import Scriptlet.Grammar.Statement
import Scriptlet.Proofs.Grammar.Derives

/-! # The grammar of statements as a relation

`States` says which rows of tokens are statements, and with which tree. Semicolons behind
statements and the braces that close blocks may be missing unless the derivation is
`strict`. An arm belongs to the innermost chain that can take it: a body that could go on
with an arm is never followed by one.
-/

namespace Scriptlet

/-- Does this row consist of the words that introduce an arm? -/
def BranchWord.Introduces (word : BranchWord) (ts : List Token) : Prop :=
  ts.map (·.toLexeme) = Piece.lexemes word.pieces

namespace Node

/-- Is this a chain of arms? -/
def isChain : Node → Bool
  | chain _ _ => true
  | _ => false

/-- Could another arm follow this statement and belong to it? -/
def endsOpen : Node → Bool
  | chain branches _ => branches.getLast?.any (·.word ≠ .else_)
  | _ => false

end Node

namespace Grammar

open Parse

/-- Does this token introduce an arm, other than the first? -/
def ArmWord (t : Token) : Prop :=
  t.isSymbol "elseif" = true ∨ t.isSymbol "elsif" = true ∨ t.isSymbol "else" = true

/-- Could another arm follow these arms and belong to the body of the last one? -/
def openBody (branches : List (Branch Node)) : Bool :=
  branches.getLast?.any (·.body.endsOpen)

/-- The separator `c`, or nothing where nothing is strict. -/
def Ends (strict : Bool) (c : Char) (ts : List Token) : Prop :=
  (∃ t, ts = [t] ∧ t.isSeparator c = true) ∨ (strict = false ∧ ts = [])

/-- The row of tokens declares a name. -/
inductive Declares (d : Nat) : List Token → Declarator Node → Prop where
  | bare {t} (isName : isName t = true) : Declares d [t] ⟨t.text, none, t.location⟩
  | valued {t sign ts n} (isName : isName t = true) (assigned : sign.isOperator "=" = true)
      (value : Derives false d .assignment ts n) :
      Declares d (t :: sign :: ts) ⟨t.text, some n, t.location⟩

/-- The row of tokens is a condition in parentheses. -/
inductive Conditions (d : Nat) : List Token → Node → Prop where
  | paren {opening ts n closing} (opens : opening.isSeparator '(' = true)
      (inside : Derives false d .expression ts n) (closes : closing.isSeparator ')' = true) :
      Conditions d (opening :: ts ++ [closing]) n

/-- The parts of the grammar of statements. -/
inductive Form where
  | statement
  /-- The statements of a block, which a block node holds together. -/
  | body
  /-- Declared names, which a `var` node holds together. -/
  | declarations
  /-- Arms with conditions, which a chain node holds together. -/
  | arms
  deriving DecidableEq

/-- The row of tokens has this form and this tree, with at most so many levels of nesting
    further in. -/
inductive States (strict : Bool) : Nat → Form → List Token → Node → Prop where
  | empty {d t} (ends : t.isSeparator ';' = true) :
      States strict d .statement [t] (.empty t.location)
  | block {d opening ts ns place us} (opens : opening.isSeparator '\x7b' = true)
      (all : States strict d .body ts (.block ns place)) (ending : Ends strict '\x7d' us) :
      States strict d .statement (opening :: ts ++ us) (.block ns opening.location)
  | none {d place} : States strict (d + 1) .body [] (.block [] place)
  | next {d ts ns place us n} (before : States strict (d + 1) .body ts (.block ns place))
      (statement : States strict d .statement us n) :
      States strict (d + 1) .body (ts ++ us) (.block (ns ++ [n]) place)
  | var {d word ts xs place us} (isVar : word.isSymbol "var" = true)
      (all : States strict d .declarations ts (.var xs place)) (ending : Ends strict ';' us) :
      States strict d .statement (word :: ts ++ us) (.var xs word.location)
  | declared {d ts x place} (item : Declares d ts x) :
      States strict d .declarations ts (.var [x] place)
  | alsoDeclared {d ts xs place comma us x}
      (items : States strict d .declarations ts (.var xs place))
      (separated : comma.isOperator "," = true) (item : Declares d us x) :
      States strict d .declarations (ts ++ comma :: us) (.var (xs ++ [x]) place)
  | ifArm {d word cs c ts n} (isIf : word.isSymbol "if" = true)
      (condition : Conditions (d + 1) cs c) (body : States strict d .statement ts n) :
      States strict (d + 1) .arms (word :: cs ++ ts) (.chain [⟨.if_, some c, n⟩] word.location)
  | elseArm {d ts bs place word ws cs c us n}
      (arms : States strict (d + 1) .arms ts (.chain bs place)) (closed : openBody bs = false)
      (further : word ∈ [BranchWord.elseif, .elsif, .elseIf]) (introduced : word.Introduces ws)
      (condition : Conditions (d + 1) cs c) (body : States strict d .statement us n) :
      States strict (d + 1) .arms (ts ++ (ws ++ cs ++ us)) (.chain (bs ++ [⟨word, some c, n⟩]) place)
  | armed {d ts bs place} (arms : States strict d .arms ts (.chain bs place)) :
      States strict d .statement ts (.chain bs place)
  | otherwise {d ts bs place word us n} (arms : States strict (d + 1) .arms ts (.chain bs place))
      (closed : openBody bs = false) (isElse : word.isSymbol "else" = true)
      (body : States strict d .statement us n) (apart : n.isChain = false) :
      States strict (d + 1) .statement (ts ++ word :: us)
        (.chain (bs ++ [⟨.else_, Option.none, n⟩]) place)
  | expression {d t ts n us} (value : Derives false d .expression (t :: ts) n)
      (ending : Ends strict ';' us) :
      States strict d .statement (t :: ts ++ us) (.expression n t.location)

theorem States.body_level {strict : Bool} {d : Nat} {ts : List Token} {n : Node}
    (h : States strict d .body ts n) : ∃ e, d = e + 1 := by
  cases h <;> exact ⟨_, rfl⟩

theorem States.body_shape {strict : Bool} {d : Nat} {ts : List Token} {n : Node}
    (h : States strict d .body ts n) : ∃ ns place, n = .block ns place := by
  cases h <;> exact ⟨_, _, rfl⟩

theorem States.declarations_shape {strict : Bool} {d : Nat} {ts : List Token} {n : Node}
    (h : States strict d .declarations ts n) :
    ∃ first others place, n = .var (first :: others) place := by
  generalize form : Form.declarations = X at h
  induction h with
  | declared => exact ⟨_, _, _, rfl⟩
  | alsoDeclared _ _ _ ih =>
      obtain ⟨first, others, place, same⟩ := ih form
      cases same
      exact ⟨_, _, _, rfl⟩
  | _ => cases form

theorem States.arms_shape {strict : Bool} {d : Nat} {ts : List Token} {n : Node}
    (h : States strict d .arms ts n) : ∃ first others place, n = .chain (first :: others) place := by
  generalize form : Form.arms = X at h
  induction h with
  | ifArm => exact ⟨_, _, _, rfl⟩
  | elseArm _ _ _ _ _ _ ih _ =>
      obtain ⟨first, others, place, same⟩ := ih form
      cases same
      exact ⟨_, _, _, rfl⟩
  | _ => cases form

theorem States.arms_begin {strict : Bool} {d : Nat} {ts : List Token} {n : Node}
    (h : States strict d .arms ts n) : ∃ t us, ts = t :: us ∧ t.isSymbol "if" = true := by
  generalize form : Form.arms = X at h
  induction h with
  | ifArm isIf _ _ _ => exact ⟨_, _, rfl, isIf⟩
  | elseArm _ _ _ _ _ _ ih _ =>
      obtain ⟨t, us, rfl, isIf⟩ := ih rfl
      exact ⟨t, _, rfl, isIf⟩
  | _ => cases form

/-- A chain of arms begins with the word `if`. -/
theorem States.chain_begins {strict : Bool} {d : Nat} {ts : List Token} {n : Node}
    (h : States strict d .statement ts n) (isChain : n.isChain = true) :
    ∃ t us, ts = t :: us ∧ t.isSymbol "if" = true := by
  cases h with
  | armed arms => exact arms.arms_begin
  | otherwise arms =>
      obtain ⟨t, us, rfl, isIf⟩ := arms.arms_begin
      exact ⟨t, _, rfl, isIf⟩
  | _ => cases isChain

end Grammar

end Scriptlet
