import Scriptlet.Proofs.Grammar.Derives
import Scriptlet.Proofs.Lexeme
import Scriptlet.Proofs.Operator

/-! # Which tokens go on with a phrase, and which begin one

A token that can go on with an expression does so at one precedence: `Attaches`. A
phrase is complete where the next token attaches only to what is looser, and then every
loop of the parsers ends. In the same way a token that begins an expression shows how
tight it is: `Begins`.
-/

namespace Scriptlet.Grammar

open Parse

variable {s : Tokens} {t : Token} {ts : List Token} {p : Nat}

/-- The token can go on with what stands before it, at this precedence. -/
inductive Attaches (t : Token) : Nat → Prop where
  | member (opens : OpensMember t) : Attaches t Precedence.member
  | call (opens : t.isSeparator '(' = true) : Attaches t Precedence.call
  | step (op : Step) (spelled : t.isOperator op.symbol = true) : Attaches t Precedence.update
  | binary (op : BinaryOp) (spelled : t.Spells op.symbol) : Attaches t op.precedence
  | question (spelled : t.isOperator "?" = true) : Attaches t Precedence.conditional
  | comma (spelled : t.isOperator "," = true) : Attaches t Precedence.comma

/-- The next token goes on only with what is looser than `p`. -/
def Stops (p : Nat) (s : Tokens) : Prop :=
  ¬s.Next fun t => ∃ q ≤ p, Attaches t q

theorem Stops.mono {q : Nat} (h : Stops p s) (le : q ≤ p) : Stops q s := by
  rintro ⟨t, head, r, tight, attaches⟩
  exact h ⟨t, head, r, Nat.le_trans tight le, attaches⟩

theorem Stops.not_next (h : Stops p s) {test : Token → Prop} {q : Nat} (le : q ≤ p)
    (attaches : ∀ t, test t → Attaches t q) : ¬s.Next test := by
  rintro ⟨t, head, passes⟩
  exact h ⟨t, head, q, le, attaches t passes⟩

theorem stops_prepend_cons : Stops p (s.prepend (t :: ts)) ↔ ∀ q, Attaches t q → p < q := by
  simp only [Stops, Tokens.next_prepend_cons, not_exists, not_and]
  constructor
  · intro h q attaches
    exact Nat.lt_of_not_le fun tight => h q tight attaches
  · intro h q le attaches
    exact absurd (h q attaches) (Nat.not_lt.mpr le)

/-- An operator between operands is none of another table. -/
theorem not_isOperator_of_spells {op : BinaryOp} {sign : String} (spelled : t.Spells op.symbol)
    (mem : sign ∈ BinaryOp.others) : ¬t.isOperator sign = true := by
  intro same
  rw [← (Token.isOperator_iff.mp same).2, spelled.2] at mem
  exact op.symbol_not_mem_others mem

/-- An operator between operands attaches at its own precedence only. -/
theorem Attaches.eq_precedence {op : BinaryOp} {q : Nat} (attaches : Attaches t q)
    (spelled : t.Spells op.symbol) : q = op.precedence := by
  have apart : t.text ∉ BinaryOp.others := by
    rw [spelled.2]
    exact op.symbol_not_mem_others
  cases attaches with
  | member opens =>
      obtain ⟨op', -, found⟩ := opens
      rw [AccessOp.symbol_of_ofSymbol? found] at apart
      cases op' <;> exact absurd (by decide) apart
  | call opens =>
      obtain ⟨kind, -⟩ := Token.isSeparator_iff.mp opens
      have operator := spelled.1
      simp [kind] at operator
  | step op' spelled' =>
      rw [(Token.isOperator_iff.mp spelled').2] at apart
      cases op' <;> exact absurd (by decide) apart
  | binary op' spelled' =>
      rw [BinaryOp.symbol_inj (spelled.2.symm.trans spelled'.2)]
  | question spelled' | comma spelled' =>
      rw [(Token.isOperator_iff.mp spelled').2] at apart
      exact absurd (by decide) apart

theorem stops_of_spells {op : BinaryOp} (spelled : t.Spells op.symbol) (lt : p < op.precedence) :
    Stops p (s.prepend (t :: ts)) := by
  rw [stops_prepend_cons]
  intro q attaches
  rw [attaches.eq_precedence spelled]
  exact lt

/-- The signs that stand in no table of operators between operands. -/
def signs : List (String × Nat) :=
  [("++", Precedence.update), ("--", Precedence.update), ("?", Precedence.conditional),
    (",", Precedence.comma)]

/-- A sign attaches at its own precedence only. -/
theorem Attaches.mem_signs {sign : String} {q : Nat} (attaches : Attaches t q)
    (spelled : t.isOperator sign = true) (mem : sign ∈ ["++", "--", "?", ":", ","]) :
    (sign, q) ∈ signs := by
  obtain ⟨kind, text⟩ := Token.isOperator_iff.mp spelled
  cases attaches with
  | member opens =>
      obtain ⟨op, -, found⟩ := opens
      rw [← text, AccessOp.symbol_of_ofSymbol? found] at mem
      cases op <;> exact absurd mem (by decide)
  | call opens =>
      rw [(Token.isSeparator_iff.mp opens).1] at kind
      cases kind
  | step op spelled' =>
      rw [← text, (Token.isOperator_iff.mp spelled').2]
      cases op <;> decide
  | binary op spelled' =>
      have apart := op.symbol_not_mem_others
      rw [← spelled'.2, text] at apart
      have others : ∀ sign ∈ ["++", "--", "?", ":", ","], sign ∈ BinaryOp.others := by decide
      exact absurd (others sign mem) apart
  | question spelled' | comma spelled' =>
      rw [← text, (Token.isOperator_iff.mp spelled').2]
      decide

theorem stops_of_sign {sign : String} (spelled : t.isOperator sign = true)
    (mem : sign ∈ ["++", "--", "?", ":", ","]) (lt : ∀ q, (sign, q) ∈ signs → p < q) :
    Stops p (s.prepend (t :: ts)) := by
  rw [stops_prepend_cons]
  intro q attaches
  exact lt q (attaches.mem_signs spelled mem)

theorem stops_of_step {op : Step} (spelled : t.isOperator op.symbol = true)
    (lt : p < Precedence.update) : Stops p (s.prepend (t :: ts)) := by
  refine stops_of_sign spelled (by cases op <;> decide) ?_
  intro q mem
  cases op <;> simp_all [signs, Step.symbol]

theorem stops_of_question (spelled : t.isOperator "?" = true) (lt : p < Precedence.conditional) :
    Stops p (s.prepend (t :: ts)) := by
  refine stops_of_sign spelled (by decide) ?_
  simpa [signs] using lt

theorem stops_of_colon (spelled : t.isOperator ":" = true) : Stops p (s.prepend (t :: ts)) := by
  refine stops_of_sign spelled (by decide) ?_
  simp [signs]

theorem stops_of_comma (spelled : t.isOperator "," = true) (lt : p < Precedence.comma) :
    Stops p (s.prepend (t :: ts)) := by
  refine stops_of_sign spelled (by decide) ?_
  simpa [signs] using lt

/-- Closing brackets, semicolons and braces. -/
def closings : List Char := [')', ']', ';', '\x7b', '\x7d']

theorem symbol_ne_of_closing (op : AccessOp) {c : Char} (mem : c ∈ closings) :
    c.toString ≠ op.symbol := by
  have all : closings.all (fun c => c.toString ≠ op.symbol) = true := by
    cases op <;> decide
  simpa using List.all_eq_true.mp all c mem

/-- Closing brackets and semicolons end every expression. -/
theorem stops_of_closing {c : Char} (separator : t.isSeparator c = true) (mem : c ∈ closings) :
    Stops p (s.prepend (t :: ts)) := by
  rw [stops_prepend_cons]
  obtain ⟨kind, text⟩ := Token.isSeparator_iff.mp separator
  intro q attaches
  cases attaches with
  | member opens =>
      obtain ⟨op, -, found⟩ := opens
      have same := text.symm.trans (AccessOp.symbol_of_ofSymbol? found)
      exact absurd same (symbol_ne_of_closing op mem)
  | call opens =>
      have same := text.symm.trans (Token.isSeparator_iff.mp opens).2
      simp only [Char.toString, String.singleton_inj] at same
      subst same
      exact absurd mem (by decide)
  | step op spelled | question spelled | comma spelled =>
      rw [(Token.isOperator_iff.mp spelled).1] at kind
      cases kind
  | binary op spelled =>
      have operator := spelled.1
      simp [kind] at operator

theorem stops_of_nil (nothing : s.pending = []) : Stops p s := by
  rintro ⟨t, head, -⟩
  simp [nothing] at head

/-! ## First tokens -/

/-- The token begins an atom. -/
inductive BeginsAtom (t : Token) : Prop where
  | paren (opens : t.isSeparator '(' = true)
  | number (kind : t.kind = .number)
  | string (kind : t.kind = .string)
  | name (isName : isName t = true)

/-- The token begins an atom, or is one of the operators that can stand before it. -/
def Begins (ops : List PrefixOp) (t : Token) : Prop :=
  BeginsAtom t ∨ ∃ op ∈ ops, t.Spells op.symbol

theorem Begins.mono {ops ops' : List PrefixOp} (begins : Begins ops t) (subset : ops ⊆ ops') :
    Begins ops' t := by
  obtain atom | ⟨op, mem, spelled⟩ := begins
  · exact .inl atom
  · exact .inr ⟨op, subset mem, spelled⟩

/-- The operators that a phrase can begin with. -/
def Phrase.prefixes : Phrase → List PrefixOp
  | .atom | .object => []
  | .access | .call => [.new]
  | .update => .new :: PrefixOp.steps
  | _ => .new :: PrefixOp.steps ++ PrefixOp.unary

/-- What members can follow begins no differently with them. -/
theorem Derives.begins {ambiguous : Bool} {d : Nat} {X : Phrase} {n : Node}
    (h : Derives ambiguous d X ts n) : ∃ t us, ts = t :: us ∧ Begins X.prefixes t := by
  induction h with
  | single _ ih | several _ _ ih | first _ ih | unassigned _ ih | unconditional _ ih
  | unjoined _ ih | tighter _ ih | bare _ ih | uncalled _ ih => exact ih
  | further _ _ _ ih _ | assigned _ _ _ _ ih _ | default _ _ _ _ ih _ | joined _ _ _ _ ih _
  | calledEmpty _ _ _ ih | called _ _ _ _ ih _ | member _ _ _ _ _ _ ih =>
      obtain ⟨t, us, rfl, begins⟩ := ih
      exact ⟨t, _, rfl, begins⟩
  | ternary _ _ _ _ _ ih _ _ | index _ _ _ _ _ _ ih _ =>
      obtain ⟨t, us, rfl, begins⟩ := ih
      exact ⟨t, _, rfl, begins⟩
  | unprefixed _ ih | unstepped _ ih | reached _ ih =>
      obtain ⟨t, us, rfl, begins⟩ := ih
      exact ⟨t, us, rfl, begins.mono (by decide)⟩
  | steppedBehind _ _ ih =>
      obtain ⟨t, us, rfl, begins⟩ := ih
      exact ⟨t, _, rfl, begins.mono (by decide)⟩
  | prefixed mem spelled _ _ =>
      exact ⟨_, _, rfl, .inr ⟨_, List.mem_append_right _ mem, spelled⟩⟩
  | steppedBefore mem spelled _ _ => exact ⟨_, _, rfl, .inr ⟨_, .tail _ mem, spelled⟩⟩
  | new word _ _ =>
      obtain ⟨kind, text⟩ := Token.isSymbol_iff.mp word
      exact ⟨_, _, rfl, .inr ⟨.new, .head _, .inr kind, text⟩⟩
  | paren opens _ _ _ => exact ⟨_, _, rfl, .inl (.paren opens)⟩
  | number kind => exact ⟨_, _, rfl, .inl (.number kind)⟩
  | string kind => exact ⟨_, _, rfl, .inl (.string kind)⟩
  | name isName => exact ⟨_, _, rfl, .inl (.name isName)⟩

/-- No token of a text is at once an operator and the beginning of an atom. -/
theorem BeginsAtom.not_spells (begins : BeginsAtom t) (lexical : t.Lexical) (op : PrefixOp) :
    ¬t.Spells op.symbol := by
  rintro ⟨kind, text⟩
  cases begins with
  | paren opens => simp [(Token.isSeparator_iff.mp opens).1] at kind
  | number same | string same => simp [same] at kind
  | name isName =>
      simp only [Parse.isName, Bool.and_eq_true, decide_eq_true_eq, Bool.not_eq_true'] at isName
      have starts := Lexeme.startsSymbol_of_symbol lexical isName.1
      rw [text] at starts isName
      rw [op.isKeyword_symbol ((Option.any_eq_true _ _).mpr starts)] at isName
      exact absurd isName.2 (by decide)

theorem Begins.not_spells {ops ops' : List PrefixOp} (begins : Begins ops t)
    (lexical : t.Lexical) (apart : ∀ op ∈ ops', op ∉ ops) :
    ¬∃ op ∈ ops', t.Spells op.symbol := by
  rintro ⟨op, mem, spelled⟩
  obtain atom | ⟨op', mem', spelled'⟩ := begins
  · exact atom.not_spells lexical op spelled
  · cases PrefixOp.symbol_inj (spelled.2.symm.trans spelled'.2)
    exact apart op mem mem'

/-- No expression begins where a bracket closes or a statement ends. -/
theorem Begins.not_isSeparator {ops : List PrefixOp} {c : Char} (begins : Begins ops t)
    (mem : c ∈ closings) : ¬t.isSeparator c = true := by
  intro separator
  obtain ⟨kind, text⟩ := Token.isSeparator_iff.mp separator
  obtain atom | ⟨op, -, spelled⟩ := begins
  · cases atom with
    | paren opens =>
        have same := text.symm.trans (Token.isSeparator_iff.mp opens).2
        simp only [Char.toString, String.singleton_inj] at same
        subst same
        exact absurd mem (by decide)
    | number same | string same => simp [same] at kind
    | name isName => simp [Parse.isName, kind] at isName
  · have operator := spelled.1
    simp [kind] at operator

end Scriptlet.Grammar
