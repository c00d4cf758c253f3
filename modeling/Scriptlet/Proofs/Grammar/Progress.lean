import Scriptlet.Proofs.Computation
import Scriptlet.Proofs.Grammar.Composition
import Scriptlet.Proofs.Grammar.StatesSoundness

/-! # Parsing goes forward

Whether a parser of the grammar succeeds or fails, it has taken tokens off the front of the
row and given none back. A statement that was found has taken a token at least, and where
there is none the row is left alone.
-/

namespace Scriptlet

namespace Parse

variable {α : Type}

/-- The parser takes tokens off the front only. -/
def Forward (p : Parse α) : Prop :=
  ∀ s, ∃ ts, s = (leaves p s).prepend ts

theorem Forward.of_leaves {p : Parse α} (h : ∀ s, leaves p s = s) : Forward p := by
  intro s
  exact ⟨[], by rw [h, Tokens.prepend_nil]⟩

theorem forward_next : Forward next := by
  intro s
  obtain nothing | ⟨t, s₁, rfl⟩ := s.eq_prepend
  · obtain ⟨_, stop⟩ := s
    cases nothing
    exact ⟨[], rfl⟩
  · exact ⟨[t], rfl⟩

theorem leaves_failAt (cause : ParseError.Cause) (found : Option Token) (s : Tokens) :
    leaves (failAt cause found : Parse α) s = s := by
  cases found <;> rfl

theorem Forward.bind {β : Type} {p : Parse α} {f : α → Parse β} (first : Forward p)
    (second : ∀ a, Forward (f a)) : Forward (p >>= f) := by
  refine leaves_bind (R := fun s s' : Tokens => ∃ ts, s = s'.prepend ts) ?_ first second
  rintro _ _ s ⟨ts, rfl⟩ ⟨us, rfl⟩
  exact ⟨ts ++ us, (s.prepend_append ts us).symm⟩

theorem forward_memberName (op : AccessOp) : Forward (Grammar.memberName op) := by
  refine forward_next.bind fun r => ?_
  cases r with
  | none => exact .of_leaves (leaves_failAt _ _)
  | some t =>
      simp only
      split
      · exact .of_leaves fun _ => rfl
      · exact .of_leaves (leaves_failAt _ _)

/-- All parsers of the grammar go forward. -/
theorem composes_forward : Composes Forward where
  pure _ := .of_leaves fun _ => rfl
  bind := Forward.bind
  get := .of_leaves fun _ => rfl
  next := forward_next
  failNext _ := .of_leaves fun s => leaves_failAt _ s.pending.head? s
  refuseNext _ := .of_leaves fun s => leaves_failAt _ s.pending.head? s
  failAtEnd cause := .of_leaves (leaves_failAt cause none)
  memberName := forward_memberName

end Parse

namespace Grammar

open Parse

/-- What a parser of statements does to the row of tokens. -/
structure Advances (p : Parse (Option Node)) : Prop where
  /-- A statement takes up a token. -/
  found : ∀ ⦃s n s'⦄, p s = .ok (some n) s' → ∃ ts, ts ≠ [] ∧ s = s'.prepend ts
  /-- There is none exactly where the text ends or a brace closes, and nothing is taken
      then. -/
  absent : ∀ ⦃s s'⦄, p s = .ok none s' ↔ s' = s ∧ Closes s
  /-- A fault needs a token, and leaves the end of the row. -/
  failed : ∀ ⦃s e s'⦄, p s = .error e s' → s.pending ≠ [] ∧ ∃ ts, s = s'.prepend ts

/-- The parser of statements advances at every level of nesting. -/
theorem parseStatement_advances (d : Nat) : Advances (parseStatement (within d)) where
  found s n s' h := by
    obtain ⟨ts, rfl, stated, -⟩ := parseStatement_takes (soundStatements_within d) h
    exact ⟨ts, stated.ne_nil, rfl⟩
  absent _ _ := parseStatement_eq_none
  failed s e s' h := by
    constructor
    · intro nothing
      rw [parseStatement_of_closes (.inl nothing)] at h
      cases h
    · obtain ⟨ts, taken⟩ := composes_forward.parseStatement (composes_forward.within d) s
      rw [leaves_of_error h] at taken
      exact ⟨ts, taken⟩

end Grammar

end Scriptlet
