import Scriptlet.Proofs.Parse

/-! # Where the levels of nesting run out

A parser that is put together from others runs out of levels of nesting where one of these does.
-/

namespace Scriptlet

namespace Parse

variable {α β : Type} {p : Parse α} {f : α → Parse β} {s s' s₁ : Tokens}

/-- The parser fails at `s` because the nesting is too deep. -/
def Exhausts (p : Parse α) (s : Tokens) : Prop :=
  ∃ e s', p s = .error e s' ∧ e.cause = .tooDeep

theorem exhausts_congr {q : Parse α} (same : p s = q s₁) : Exhausts p s ↔ Exhausts q s₁ := by
  simp only [Exhausts, same]

theorem exhausts_tooDeep (s : Tokens) : Exhausts (tooDeep : Parse α) s :=
  ⟨_, s, rfl, rfl⟩

theorem not_exhausts_of_ok {a : α} (ran : p s = .ok a s') : ¬Exhausts p s := by
  rintro ⟨e, s₁, failed, -⟩
  cases ran.symm.trans failed

instance : Decidable (Exhausts p s) :=
  match ran : p s with
  | .ok _ _ => isFalse (not_exhausts_of_ok ran)
  | .error e s' =>
      decidable_of_iff (e.cause = .tooDeep) <| by
        simp [Exhausts, ran]

@[simp] theorem not_exhausts_pure (a : α) (s : Tokens) : ¬Exhausts (pure a : Parse α) s :=
  not_exhausts_of_ok (pure_apply a s)

theorem not_exhausts_failAt {cause : ParseError.Cause} (other : cause ≠ .tooDeep)
    (found : Option Token) (s : Tokens) : ¬Exhausts (failAt cause found : Parse α) s := by
  rintro ⟨e, s₁, failed, deep⟩
  cases found <;>
  · cases failed
    exact other deep

theorem not_exhausts_refuse {cause : ParseError.Cause} (other : cause ≠ .tooDeep)
    (found : Option Token) (s : Tokens) : ¬Exhausts (refuse cause found : Parse α) s := by
  refine not_exhausts_failAt ?_ found s
  split
  · nofun
  · exact other

theorem not_exhausts_refuseNext {cause : ParseError.Cause} (other : cause ≠ .tooDeep)
    (s : Tokens) : ¬Exhausts (refuseNext cause : Parse α) s :=
  not_exhausts_refuse other s.pending.head? s

/-! ## Sequences -/

theorem exhausts_bind :
    Exhausts (p >>= f) s ↔ Exhausts p s ∨ ∃ a s₁, p s = .ok a s₁ ∧ Exhausts (f a) s₁ := by
  cases ran : p s with
  | ok a s₁ =>
      constructor
      · rintro ⟨e, s', failed, deep⟩
        exact .inr ⟨a, s₁, rfl, e, s', (bind_of_ok ran).symm.trans failed, deep⟩
      · rintro (absurd | ⟨_, _, same, e, s', failed, deep⟩)
        · exact (not_exhausts_of_ok ran absurd).elim
        · cases same
          exact ⟨e, s', (bind_of_ok ran).trans failed, deep⟩
  | error e s₁ => simp [Exhausts, bind_of_error ran, ran]

theorem exhausts_bind_of_ok {a : α} (ran : p s = .ok a s₁) :
    Exhausts (p >>= f) s ↔ Exhausts (f a) s₁ := by
  simp [Exhausts, bind_of_ok ran]

theorem Exhausts.bind (deep : Exhausts p s) : Exhausts (p >>= f) s :=
  exhausts_bind.mpr (.inl deep)

theorem exhausts_bind_left (behind : ∀ a s, ¬Exhausts (f a) s) :
    Exhausts (p >>= f) s ↔ Exhausts p s :=
  exhausts_bind.trans (or_iff_left fun ⟨a, s₁, _, deep⟩ => behind a s₁ deep)

theorem exhausts_bind_some {p : Parse (Option α)} {f : Option α → Parse β}
    (nothing : ∀ s, ¬Exhausts (f none) s) :
    Exhausts (p >>= f) s ↔
      Exhausts p s ∨ ∃ a s₁, p s = .ok (some a) s₁ ∧ Exhausts (f (some a)) s₁ := by
  rw [exhausts_bind]
  refine or_congr_right ⟨?_, ?_⟩
  · rintro ⟨r, s₁, ran, deep⟩
    cases r with
    | none => exact absurd deep (nothing s₁)
    | some a => exact ⟨a, s₁, ran, deep⟩
  · rintro ⟨a, s₁, ran, deep⟩
    exact ⟨some a, s₁, ran, deep⟩

@[simp] theorem exhausts_map {g : α → β} : Exhausts (g <$> p) s ↔ Exhausts p s := by
  rw [map_eq_pure_bind]
  exact exhausts_bind_left fun _ => not_exhausts_pure _

theorem exhausts_require {after : String} {p : Parse (Option Node)} :
    Exhausts (require after p) s ↔ Exhausts p s := by
  refine exhausts_bind_left fun r => ?_
  cases r with
  | none => exact not_exhausts_refuseNext (by nofun)
  | some n => exact not_exhausts_pure n

/-! ## Single tokens -/

theorem exhausts_takeIf {test : Token → Bool} {f : Option Token → Parse β} :
    Exhausts (takeIf test >>= f) s ↔
      (∃ t s₁, s = s₁.prepend [t] ∧ test t = true ∧ Exhausts (f (some t)) s₁) ∨
        (¬s.Next (test · = true) ∧ Exhausts (f none) s) := by
  by_cases next : s.Next (test · = true)
  · obtain ⟨t, s₁, rfl, passes⟩ := Tokens.next_iff.mp next
    rw [exhausts_bind_of_ok (takeIf_of_next passes s₁ []), Tokens.prepend_nil,
      Tokens.exists_prepend_iff, and_iff_right passes, or_iff_left]
    exact fun absent => absent.1 next
  · rw [exhausts_bind_of_ok (takeIf_of_not_next next)]
    constructor
    · intro deep
      exact .inr ⟨next, deep⟩
    · rintro (⟨t, s₁, same, passes, -⟩ | ⟨-, deep⟩)
      · exact absurd (Tokens.next_iff.mpr ⟨t, s₁, same, passes⟩) next
      · exact deep

theorem not_exhausts_takeIf {test : Token → Bool} {f : Option Token → Parse β}
    (behind : ∀ r s, ¬Exhausts (f r) s) (s : Tokens) : ¬Exhausts (takeIf test >>= f) s := by
  intro deep
  obtain ⟨t, s₁, -, -, deep⟩ | ⟨-, deep⟩ := exhausts_takeIf.mp deep
  · exact behind _ s₁ deep
  · exact behind none s deep

theorem exhausts_expectSeparator {c : Char} {what : Expectation} {f : Token → Parse β} :
    Exhausts (expectSeparator c what >>= f) s ↔
      ∃ t s₁, s = s₁.prepend [t] ∧ t.isSeparator c = true ∧ Exhausts (f t) s₁ := by
  refine exhausts_bind.trans ⟨?_, ?_⟩
  · rintro (deep | ⟨t, s₁, found, deep⟩)
    · refine absurd deep (not_exhausts_takeIf (fun r => ?_) s)
      cases r with
      | none => exact not_exhausts_refuseNext (by nofun)
      | some t => exact not_exhausts_pure t
    · obtain ⟨separates, rfl⟩ := expectSeparator_eq_ok.mp found
      exact ⟨t, s₁, rfl, separates, deep⟩
  · rintro ⟨t, s₁, rfl, separates, deep⟩
    exact .inr ⟨t, s₁, expectSeparator_of_next separates s₁ [], deep⟩

theorem exhausts_takeOneOf {symbol : α → String} {ops : List α}
    (injective : ∀ a b, symbol a = symbol b → a = b) {f : Option (α × Location) → Parse β} :
    Exhausts (takeOneOf symbol ops >>= f) s ↔
      (∃ op ∈ ops, ∃ t s₁, s = s₁.prepend [t] ∧ t.Spells (symbol op) ∧
          Exhausts (f (some (op, t.location))) s₁) ∨
        (¬s.Next (fun t => ∃ op ∈ ops, t.Spells (symbol op)) ∧ Exhausts (f none) s) := by
  by_cases next : s.Next fun t => ∃ op ∈ ops, t.Spells (symbol op)
  · obtain ⟨t, s₁, rfl, op, mem, spelled⟩ := Tokens.next_iff.mp next
    rw [exhausts_bind_of_ok (takeOneOf_of_next injective mem spelled s₁ [])]
    constructor
    · intro deep
      exact .inl ⟨op, mem, t, s₁, rfl, spelled, deep⟩
    · rintro (⟨op', -, u, s₂, same, spelled', deep⟩ | ⟨absent, -⟩)
      · obtain ⟨rfl, rfl⟩ := Tokens.prepend_singleton_inj same
        cases injective _ _ (spelled.2.symm.trans spelled'.2)
        exact deep
      · exact absurd next absent
  · rw [exhausts_bind_of_ok (takeOneOf_of_not_next next)]
    constructor
    · intro deep
      exact .inr ⟨next, deep⟩
    · rintro (⟨op, mem, t, s₁, same, spelled, -⟩ | ⟨-, deep⟩)
      · exact absurd (Tokens.next_iff.mpr ⟨t, s₁, same, op, mem, spelled⟩) next
      · exact deep

/-- Taking a token that was looked at, with its place. -/
theorem exhausts_here_skip {t : Token} {f : Location → Parse α} :
    Exhausts (do
      let place ← here
      skip
      f place) (s.prepend [t]) ↔ Exhausts (f t.location) s :=
  Iff.rfl

/-! ## Repetition -/

/-- A repetition runs out of levels in its first round, or as one that begins behind it. -/
theorem exhausts_many {step : Parse (Option α)} (progress : Progresses step) :
    Exhausts (many step) s ↔
      Exhausts step s ∨ ∃ a s₁, step s = .ok (some a) s₁ ∧ Exhausts (many step) s₁ := by
  cases ran : step s with
  | error e s₁ =>
      have failed : many step s = .error e s₁ := bind_of_error ran
      simp [Exhausts, ran, failed]
  | ok r s₁ =>
      cases r with
      | none => simp [Exhausts, ran, many_of_none ran]
      | some a =>
          rw [exhausts_congr (many_of_some progress ran), exhausts_map]
          constructor
          · exact fun deep => .inr ⟨a, s₁, rfl, deep⟩
          · rintro (absurd | ⟨_, _, same, deep⟩)
            · exact (not_exhausts_of_ok ran absurd).elim
            · cases same
              exact deep

/-- The same where a round finds what `item` does behind the tokens that lead to it. -/
theorem exhausts_many_of_step {step : Parse (Option α)} (progress : Progresses step)
    {item : Parse β} {g : β → α} (same : step s = ((fun b => some (g b)) <$> item) s₁) :
    Exhausts (many step) s ↔
      Exhausts item s₁ ∨ ∃ b s₂, item s₁ = .ok b s₂ ∧ Exhausts (many step) s₂ := by
  rw [exhausts_many progress]
  refine or_congr ?_ ?_
  · exact (exhausts_congr same).trans exhausts_map
  · constructor
    · rintro ⟨a, s₂, ran, deep⟩
      obtain ⟨b, found, -⟩ := map_eq_ok.mp (same.symm.trans ran)
      exact ⟨b, s₂, found, deep⟩
    · rintro ⟨b, s₂, found, deep⟩
      exact ⟨g b, s₂, same.trans (map_of_ok found), deep⟩

end Parse

end Scriptlet
