import Scriptlet.Proofs.Grammar.Exhaustion
import Scriptlet.Proofs.Grammar.Nesting
import Scriptlet.Proofs.Grammar.Progress

/-! # What is read within what, and how far in

What is read comes to read its parts, some of them one level of nesting further in: what stands in
parentheses, between brackets, behind a prefix operator or `new`, the right operand of an operator
that groups to the right, the branches of a choice, a block and what an arm governs. `Descends`
lists these steps and what each of them counts, without any regard to a limit, and `Reaches` sums
them up.
-/

namespace Scriptlet.Grammar

open Parse

/-! ## Reading with enough levels -/

section Finds

variable {α : Type} {d : Nat} {s s₁ : Tokens} {p : Grammar → Parse α} {a : α}

/-- With enough levels of nesting, the parser finds `a` at `s` and then stands at `s₁`. -/
def Finds (p : Grammar → Parse α) (s : Tokens) (a : α) (s₁ : Tokens) : Prop :=
  ∃ d, p (within d) s = .ok a s₁

/-- What is found with enough levels is found with any number of them, unless they run out. So
    what runs out of levels behind it makes the whole run out, in one way or the other. -/
theorem Finds.exhausts_or (found : Finds p s a s₁) (rises : Rises p)
    {Q : α → Tokens → Prop} (behind : Q a s₁) :
    Exhausts (p (within d)) s ∨ ∃ a s₁, p (within d) s = .ok a s₁ ∧ Q a s₁ := by
  obtain ⟨e, ran⟩ := found
  obtain le | le := Nat.le_total d e
  · obtain same | deep := rises.below le s
    · exact .inr ⟨a, s₁, same.trans ran, behind⟩
    · exact .inl deep
  · obtain same | deep := rises.below le s
    · exact .inr ⟨a, s₁, same.symm.trans ran, behind⟩
    · exact absurd deep (not_exhausts_of_ok ran)

theorem Finds.exhausts_or_some {p : Grammar → Parse (Option α)} (found : Finds p s (some a) s₁)
    (rises : Rises p) {Q : α → Tokens → Prop} (behind : Q a s₁) :
    Exhausts (p (within d)) s ∨ ∃ a s₁, p (within d) s = .ok (some a) s₁ ∧ Q a s₁ := by
  obtain deep | ⟨r, s₂, ran, a, rfl, behind⟩ :=
    found.exhausts_or rises (Q := fun r s => ∃ a, r = some a ∧ Q a s) ⟨a, rfl, behind⟩
  · exact .inl deep
  · exact .inr ⟨a, s₂, ran, behind⟩

/-- Operands joined by the operators of some levels. -/
def parseOperands (levels : List (List BinaryOp)) (inner : Grammar) : Parse (Option Node) :=
  levels.foldr leftChain inner.operand

theorem rises_parseOperands (levels : List (List BinaryOp)) : Rises (parseOperands levels) :=
  .of_both (Below.corresponds.foldr_leftChain · levels) (by simp)

theorem finds_conditional {r : Option Node} :
    Finds (·.conditional) s r s₁ ↔ Finds parseConditional s r s₁ := by
  constructor
  · rintro ⟨_ | d, ran⟩
    · exact absurd ran (tooDeep_ne_ok _)
    · exact ⟨d, ran⟩
  · rintro ⟨d, ran⟩
    exact ⟨d + 1, ran⟩

end Finds

/-! ## The count of levels -/

/-- The parts of the grammar that are read in one another. -/
inductive Part where
  /-- Statements, one behind the other. -/
  | body
  | statement
  /-- Declared names, from the first of them or from behind a comma on. -/
  | declarations
  /-- Arms, from behind the words that introduce one of them on. -/
  | arms (word : BranchWord)
  | expression
  | assignment
  | conditional
  | chain (levels : List (List BinaryOp))
  | operand
  | update
  | call
  /-- Calls and members, behind an object. -/
  | suffixes
  | access
  /-- Members, behind an atom. -/
  | members
  | atom

/-- Is this an operand, or part of one? -/
def Part.inOperand : Part → Bool
  | .operand | .update | .call | .suffixes | .access | .members | .atom => true
  | _ => false

/-- Reading `X` at `s` comes to reading `Y` at `s'`, so many levels of nesting further in. What
    stands in front of `s'` is read with any number of levels. -/
inductive Descends : Part → Tokens → Nat → Part → Tokens → Prop where
  | first {s} : Descends .body s 0 .statement s
  | next {s n s'} (found : Finds parseStatement s (some n) s') : Descends .body s 0 .body s'
  | block {t s} (opens : t.isSeparator '\x7b' = true) :
      Descends .statement (s.prepend [t]) 1 .body s
  | var {t s} (isVar : t.isSymbol "var" = true) :
      Descends .statement (s.prepend [t]) 0 .declarations s
  | value {t sign s} (isName : isName t = true) (assigned : sign.isOperator "=" = true) :
      Descends .declarations (s.prepend [t, sign]) 0 .assignment s
  | alsoDeclared {s x s' comma} (found : Finds parseDeclarator s x (s'.prepend [comma]))
      (separated : comma.isOperator "," = true) :
      Descends .declarations s 0 .declarations s'
  | armed {t s} (isIf : t.isSymbol "if" = true) :
      Descends .statement (s.prepend [t]) 0 (.arms .if_) s
  | condition {word opening s} (opens : opening.isSeparator '(' = true) :
      Descends (.arms word) (s.prepend [opening]) 0 .expression s
  | governed {word opening closing s c s'} (opens : opening.isSeparator '(' = true)
      (found : Finds parseExpression s (some c) (s'.prepend [closing]))
      (closes : closing.isSeparator ')' = true) :
      Descends (.arms word) (s.prepend [opening]) 1 .statement s'
  | furtherArm {word further ws s b s'}
      (found : Finds (parseArm · word) s b (s'.prepend ws))
      (mem : further ∈ [BranchWord.elseif, .elsif, .elseIf]) (introduced : further.Introduces ws) :
      Descends (.arms word) s 0 (.arms further) s'
  | otherwise {word t s b s'} (found : Finds (parseArm · word) s b (s'.prepend [t]))
      (isElse : t.isSymbol "else" = true) (notIf : ¬s'.Next (·.isSymbol "if" = true)) :
      Descends (.arms word) s 1 .statement s'
  | expression {t : Token} {s : Tokens} (notClosing : t.isSeparator '\x7d' = false)
      (notEmpty : t.isSeparator ';' = false) (notBlock : t.isSeparator '\x7b' = false)
      (notVar : t.isSymbol "var" = false) (notIf : t.isSymbol "if" = false) :
      Descends .statement (s.prepend [t]) 0 .expression (s.prepend [t])
  | item {s} : Descends .expression s 0 .assignment s
  | furtherItem {s n comma s'} (found : Finds parseAssignment s (some n) (s'.prepend [comma]))
      (separated : comma.isOperator "," = true) : Descends .expression s 0 .expression s'
  | target {s} : Descends .assignment s 0 .conditional s
  | assigned {s n op t s'} (found : Finds parseConditional s (some n) (s'.prepend [t]))
      (mem : op ∈ BinaryOp.assignments ++ [.lambda]) (spelled : t.Spells op.symbol) :
      Descends .assignment s 1 .assignment s'
  | asked {s} : Descends .conditional s 0 (.chain binaryLevels) s
  | yes {s n question s'} (found : Finds parseChain s (some n) (s'.prepend [question]))
      (asks : question.isOperator "?" = true) : Descends .conditional s 1 .conditional s'
  | no {s n question s₁ y colon s'} (found : Finds parseChain s (some n) (s₁.prepend [question]))
      (asks : question.isOperator "?" = true)
      (chosen : Finds parseConditional s₁ (some y) (s'.prepend [colon]))
      (divides : colon.isOperator ":" = true) : Descends .conditional s 1 .conditional s'
  | default {s n op t s'} (found : Finds parseChain s (some n) (s'.prepend [t]))
      (mem : op ∈ [BinaryOp.elvis, .coalesce]) (spelled : t.Spells op.symbol) :
      Descends .conditional s 1 .conditional s'
  | alone {s} : Descends (.chain []) s 0 .operand s
  | tighter {ops levels s} : Descends (.chain (ops :: levels)) s 0 (.chain levels) s
  | joined {ops levels s n op t s'}
      (found : Finds (parseOperands levels) s (some n) (s'.prepend [t])) (mem : op ∈ ops)
      (spelled : t.Spells op.symbol) :
      Descends (.chain (ops :: levels)) s 0 (.chain (ops :: levels)) s'
  | prefixed {op t s} (mem : op ∈ PrefixOp.unary) (spelled : t.Spells op.symbol) :
      Descends .operand (s.prepend [t]) 1 .operand s
  | unprefixed {s} (plain : ¬s.Next fun t => ∃ op ∈ PrefixOp.unary, t.Spells op.symbol) :
      Descends .operand s 0 .update s
  | stepped {op t s} (mem : op ∈ PrefixOp.steps) (spelled : t.Spells op.symbol) :
      Descends .update (s.prepend [t]) 0 .call s
  | unstepped {s} (plain : ¬s.Next fun t => ∃ op ∈ PrefixOp.steps, t.Spells op.symbol) :
      Descends .update s 0 .call s
  | callee {s} : Descends .call s 0 .access s
  | behind {s n s'} (found : Finds parseAccess s (some n) s') : Descends .call s 0 .suffixes s'
  | arguments {opening s} (opens : opening.isSeparator '(' = true)
      (some_argument : ¬s.Next (·.isSeparator ')' = true)) :
      Descends .suffixes (s.prepend [opening]) 1 .expression s
  | furtherSuffix {s x s'} (found : Finds parseSuffix s (some x) s') :
      Descends .suffixes s 0 .suffixes s'
  | new {t s} (word : t.isSymbol "new" = true) : Descends .access (s.prepend [t]) 1 .access s
  | object {s} (plain : ¬s.Next (·.isSymbol "new" = true)) : Descends .access s 0 .atom s
  | reached {s n s'} (plain : ¬s.Next (·.isSymbol "new" = true))
      (found : Finds parseAtom s (some n) s') : Descends .access s 0 .members s'
  | index {X t s} (takes : X = .suffixes ∨ X = .members) (opens : t.Opens .index) :
      Descends X (s.prepend [t]) 1 .expression s
  | furtherMember {s x s'} (found : Finds parseMember s (some x) s') :
      Descends .members s 0 .members s'
  | paren {opening s} (opens : opening.isSeparator '(' = true) :
      Descends .atom (s.prepend [opening]) 1 .expression s

/-- Reading `X` at `s` comes to reading `Y` at `s'`, in some number of steps and so many levels of
    nesting further in. -/
inductive Reaches : Part → Tokens → Nat → Part → Tokens → Prop where
  | here {X s} : Reaches X s 0 X s
  | further {X s c Y s₁ levels Z s₂} (step : Descends X s c Y s₁)
      (rest : Reaches Y s₁ levels Z s₂) : Reaches X s (c + levels) Z s₂

variable {X Y : Part} {c d : Nat} {s s' : Tokens}

/-! ### What a step changes -/

/-- How many parts there can be, one in the other, at the same place. -/
def Part.rank : Part → Nat
  | .body => 22
  | .statement => 21
  | .expression => 20
  | .assignment => 19
  | .conditional => 18
  | .chain levels => 7 + levels.length
  | .operand => 6
  | .update => 5
  | .call => 4
  | .access => 3
  | .atom | .suffixes | .members | .declarations | .arms _ => 2

theorem Finds.length_le {α : Type} {p : Grammar → Parse α} {a : α} (found : Finds p s a s')
    (forward : ∀ d, Forward (p (within d))) : s'.pending.length ≤ s.pending.length := by
  obtain ⟨d, ran⟩ := found
  obtain ⟨ts, taken⟩ := forward d s
  rw [leaves_of_ok ran] at taken
  simp [taken]

theorem Finds.length_lt {α : Type} {step : Grammar → Parse (Option α)} {a : α}
    (found : Finds step s (some a) s') (progress : ∀ d, Progresses (step (within d))) :
    s'.pending.length < s.pending.length := by
  obtain ⟨d, ran⟩ := found
  exact progress d ran

/-- A step counts a level where the parsers go one level further in, but into operands they go
    without a level that counts, and out of them without going further in. -/
theorem Descends.levels (step : Descends X s c Y s') :
    X.inOperand.toNat ≤ c + Y.inOperand.toNat ∧
      c + Y.inOperand.toNat ≤ X.inOperand.toNat + 1 := by
  cases step with
  | index takes =>
      obtain rfl | rfl := takes <;> decide
  | _ => simp [Part.inOperand]

/-- Without going further in, a step leads to another part at the same place, or goes on behind
    some token. -/
theorem Descends.falls (step : Descends X s c Y s')
    (same : c + Y.inOperand.toNat = X.inOperand.toNat) :
    s'.pending.length < s.pending.length ∨
      s'.pending.length ≤ s.pending.length ∧ Y.rank < X.rank := by
  have forward := composes_forward.corresponds
  have level (d : Nat) := Composes.both (composes_forward.within d)
  cases step with
  | block | assigned | yes | no | default | alone | prefixed | new | governed | otherwise =>
      simp [Part.inOperand] at same
  | first | expression | item | target | unprefixed | unstepped | callee | object =>
      exact .inr ⟨Nat.le_refl _, by decide⟩
  | asked => exact .inr ⟨Nat.le_refl _, by decide⟩
  | tighter => exact .inr ⟨Nat.le_refl _, by simp [Part.rank]⟩
  | var | armed | condition | stepped | arguments | index | paren =>
      exact .inl (Nat.lt_succ_self _)
  | value =>
      simp only [Tokens.pending_prepend, List.length_append, List.length_cons]
      exact .inl (by omega)
  | next found =>
      exact .inl (found.length_lt fun d => statement_progresses (soundStatements_within (d + 1)))
  | furtherSuffix found =>
      exact .inl (found.length_lt fun d => parseSuffix_progresses (sound_within d))
  | furtherMember found =>
      exact .inl (found.length_lt fun d => parseMember_progresses (sound_within d))
  | behind found =>
      exact .inr ⟨found.length_le fun d => forward.parseAccess (level d), by decide⟩
  | reached _ found =>
      exact .inr ⟨found.length_le fun d => forward.parseAtom (level d), by decide⟩
  | alsoDeclared found =>
      exact .inl (found.length_le fun d => forward.parseDeclarator (level d))
  | furtherItem found =>
      exact .inl (found.length_le fun d => forward.parseAssignment (level d))
  | joined found =>
      exact .inl (found.length_le fun d => forward.foldr_leftChain (level d) _)
  | furtherArm found _ introduced =>
      have le := found.length_le fun d => forward.parseArm (level d) _
      have some_word := List.length_pos_iff.mpr (introduces_ne_nil introduced)
      simp only [Tokens.pending_prepend, List.length_append] at le
      exact .inl (by omega)

end Scriptlet.Grammar
