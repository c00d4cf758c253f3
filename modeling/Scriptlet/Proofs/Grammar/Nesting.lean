import Scriptlet.Proofs.Grammar.Composition
import Scriptlet.Proofs.Parse

/-! # More levels of nesting

A parser with fewer levels of nesting open to it does what one with more of them does,
unless it fails because the nesting is too deep. The relation passes through every way to
put parsers together, and so from the innermost level to all parsers of the grammar.
-/

namespace Scriptlet

namespace Parse

variable {α : Type}

/-- The parser does what `q` does, unless the nesting is too deep for it. -/
def Below (p q : Parse α) : Prop :=
  ∀ s, p s = q s ∨ ∃ e s', p s = .error e s' ∧ e.cause = .tooDeep

namespace Below

theorem refl (p : Parse α) : Below p p :=
  fun _ => .inl rfl

theorem tooDeep (q : Parse α) : Below Parse.tooDeep q :=
  fun s => .inr ⟨_, s, rfl, rfl⟩

theorem trans {p q r : Parse α} (first : Below p q) (second : Below q r) : Below p r := by
  intro s
  obtain same | deep := first s
  · rw [same]
    exact second s
  · exact .inr deep

/-- Too deep for a part is too deep for the whole. -/
theorem corresponds : Corresponds .plain fun f p q => Below (f <$> p) q := by
  refine .of_same refl fun {α β f g p p' q q'} first second s => ?_
  rw [map_bind]
  cases ran : p s with
  | ok a s₁ =>
      have mapped : (f <$> p) s = .ok (f a) s₁ := map_of_ok ran
      obtain same | ⟨e, s', failed, -⟩ := first s
      · rw [bind_of_ok ran, bind_of_ok (same.symm.trans mapped)]
        exact second a s₁
      · cases mapped.symm.trans failed
  | error e s₁ =>
      have mapped : (f <$> p) s = .error e s₁ := map_of_error ran
      rw [bind_of_error ran]
      obtain same | ⟨e', s', failed, cause⟩ := first s
      · exact .inl (bind_of_error (same.symm.trans mapped)).symm
      · cases mapped.symm.trans failed
        exact .inr ⟨e, s₁, rfl, cause⟩

end Below

end Parse

namespace Grammar

open Parse

/-- Another level of nesting changes nothing but what was too deep before. -/
theorem within_below_succ :
    ∀ d, Both .plain (fun f p q => Below (f <$> p) q) (within d) (within (d + 1))
  | 0 => .of_same (.tooDeep _) (.tooDeep _) (.tooDeep _) (.tooDeep _) (.tooDeep _)
  | d + 1 => Below.corresponds.around (within_below_succ d)

variable {α : Type} {p : Grammar → Parse α} {d e : Nat}

/-- The parser does with any number of levels what it does with more of them, unless the nesting
    is too deep for it. -/
def Rises (p : Grammar → Parse α) : Prop :=
  ∀ d, Below (p (within d)) (p (within (d + 1)))

namespace Rises

theorem below (rises : Rises p) (le : d ≤ e) : Below (p (within d)) (p (within e)) := by
  induction le with
  | refl => exact .refl _
  | step _ ih => exact ih.trans (rises _)

/-- What is put together from the parsers of a level rises with them. -/
theorem of_both {f : α → α} (h : ∀ {inner inner' : Grammar},
    Both .plain (fun f p q => Below (f <$> p) q) inner inner' → Below (f <$> p inner) (p inner'))
    (same : f = id) : Rises p := by
  intro d
  have below := h (within_below_succ d)
  rwa [same, id_map] at below

end Rises

theorem rises_parseStatement : Rises parseStatement :=
  .of_both Below.corresponds.parseStatement (by simp)

theorem rises_parseDeclarator : Rises parseDeclarator :=
  .of_both Below.corresponds.parseDeclarator (by simp)

theorem rises_parseArm (word : BranchWord) : Rises (parseArm · word) :=
  .of_both (Below.corresponds.parseArm · word) (by simp)

theorem rises_parseExpression : Rises parseExpression :=
  .of_both Below.corresponds.parseExpression (by simp)

theorem rises_parseAssignment : Rises parseAssignment :=
  .of_both Below.corresponds.parseAssignment (by simp)

theorem rises_parseConditional : Rises parseConditional :=
  .of_both Below.corresponds.parseConditional (by simp)

theorem rises_conditional : Rises (·.conditional) :=
  .of_both (·.conditional) (by simp)

theorem rises_parseChain : Rises parseChain :=
  .of_both Below.corresponds.parseChain (by simp)

theorem rises_parseSuffix : Rises parseSuffix :=
  .of_both Below.corresponds.parseSuffix (by simp)

theorem rises_parseAccess : Rises parseAccess :=
  .of_both Below.corresponds.parseAccess (by simp)

theorem rises_parseMember : Rises parseMember :=
  .of_both Below.corresponds.parseMember (by simp)

theorem rises_parseAtom : Rises parseAtom :=
  .of_both Below.corresponds.parseAtom (by simp)

end Grammar

end Scriptlet
