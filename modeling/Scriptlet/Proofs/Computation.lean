/-! # What computations leave

A computation over a state leaves a state behind whether it succeeds or fails.
-/

namespace Scriptlet

variable {ε σ α β : Type}

/-- The state that a computation leaves, whether it succeeds or fails. -/
def leaves (p : EStateM ε σ α) (s : σ) : σ :=
  match p s with
  | .ok _ s' => s'
  | .error _ s' => s'

theorem leaves_of_ok {p : EStateM ε σ α} {s s' : σ} {a : α} (h : p s = .ok a s') :
    leaves p s = s' := by
  simp [leaves, h]

theorem leaves_of_error {p : EStateM ε σ α} {s s' : σ} {e : ε} (h : p s = .error e s') :
    leaves p s = s' := by
  simp [leaves, h]

/-- If two computations keep to a relation between the states before and behind them, so
    do they one after the other. -/
theorem leaves_bind {R : σ → σ → Prop} (trans : ∀ {s₁ s₂ s₃}, R s₁ s₂ → R s₂ s₃ → R s₁ s₃)
    {p : EStateM ε σ α} {f : α → EStateM ε σ β} (first : ∀ s, R s (leaves p s))
    (second : ∀ a s, R s (leaves (f a) s)) (s : σ) : R s (leaves (p >>= f) s) := by
  have before := first s
  cases ran : p s with
  | error e s₁ =>
      have failed : (p >>= f) s = .error e s₁ := by simp [bind, EStateM.bind, ran]
      rwa [leaves_of_error ran, ← leaves_of_error failed] at before
  | ok a s₁ =>
      have same : leaves (p >>= f) s = leaves (f a) s₁ := by
        simp [leaves, bind, EStateM.bind, ran]
      rw [leaves_of_ok ran] at before
      rw [same]
      exact trans before (second a s₁)

end Scriptlet
