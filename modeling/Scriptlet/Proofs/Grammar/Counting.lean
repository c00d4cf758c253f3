import Scriptlet.Grammar.Counted
import Scriptlet.Proofs.Computation
import Scriptlet.Proofs.Grammar.Composition

/-! # Counting keeps to the levels

At every depth the parsers with a counter do what the parsers do that have as many levels left,
and the counter is then where it was, whether they succeed or fail. The relation passes through
every way to put parsers together, and so to all parsers, level by level.
-/

namespace Scriptlet.Counted

open Parse

variable {α : Type} {c : Nat}

/-- At depth `c`, the parser does what `q` does and leaves the counter where it is. -/
def Mirrors (c : Nat) (p : Counted α) (q : Parse α) : Prop :=
  ∀ ts, p ⟨ts, c⟩ = lift q ⟨ts, c⟩

theorem lift_of_ok {q : Parse α} {s : Counter} {a : α} {ts : Tokens} (h : q s.tokens = .ok a ts) :
    lift q s = .ok a { s with tokens := ts } := by
  rw [lift, h]

/-- Parsers are put together before they are run beside a counter, or behind it. -/
instance : LawfulMonadLift Parse Counted where
  monadLift_pure _ := rfl
  monadLift_bind p f := by
    funext s
    simp only [MonadLift.monadLift, lift, bind, EStateM.bind]
    cases p s.tokens <;> rfl

namespace Mirrors

variable {p : Counted α} {q : Parse α}

theorem plain (q : Parse α) : Mirrors c (liftM q) q :=
  fun _ => rfl

/-- A sequence mirrors what its parts do, one behind the other. -/
theorem corresponds : Corresponds .plain fun f p q => Mirrors c (f <$> p) q := by
  refine .of_same plain fun {α β f g p q p' q'} first second ts => ?_
  have here := first ts
  rw [map_bind]
  simp only [Functor.map, EStateM.map, lift, bind, EStateM.bind] at here ⊢
  cases ran : p ⟨ts, c⟩ with
  | ok a s₁ =>
      cases mirrored : q ts with
      | ok b ts₁ =>
          rw [ran, mirrored] at here
          cases here
          exact second a ts₁
      | error e ts₁ =>
          rw [ran, mirrored] at here
          cases here
  | error e s₁ =>
      cases mirrored : q ts with
      | ok b ts₁ =>
          rw [ran, mirrored] at here
          cases here
      | error e' ts₁ =>
          rw [ran, mirrored] at here
          cases here
          rfl

theorem of_map {f : α → α} (mirrors : Mirrors c (f <$> p) q) (same : f = id) : Mirrors c p q := by
  rwa [same, id_map] at mirrors

theorem bind {β : Type} {f : α → Counted β} {g : α → Parse β} (first : Mirrors c p q)
    (second : ∀ a, Mirrors c (f a) (g a)) : Mirrors c (p >>= f) (q >>= g) := by
  refine (corresponds.bind (f := id) (g := id) ?_ fun a => ?_).of_map rfl
  · rwa [id_map]
  · rw [id_map]
    exact second a

/-- One level deeper, there is one level less. -/
theorem nested (room : c < maxNesting) (mirrors : Mirrors (c + 1) p q) :
    Mirrors c (Counted.nested p) q := by
  intro ts
  rw [Counted.nested, if_neg (Nat.not_le.mpr room)]
  simp only [mirrors ts, Counted.lift]
  cases q ts <;> rfl

theorem nested_of_full (full : maxNesting ≤ c) : Mirrors c (Counted.nested p) tooDeep := by
  intro ts
  rw [Counted.nested, if_pos full]

/-- Whether it succeeds or fails, such a parser leaves the counter alone. -/
theorem leaves (mirrors : Mirrors c p q) (ts : Tokens) :
    Scriptlet.leaves p ⟨ts, c⟩ = ⟨Scriptlet.leaves q ts, c⟩ := by
  simp only [Scriptlet.leaves, mirrors ts, Counted.lift]
  cases q ts <;> rfl

end Mirrors

/-- At depth `c`, the parsers that others call do what those of the level do. -/
abbrev Inside (c : Nat) (inner : Level Counted) (g : Grammar) : Prop :=
  Grammar.Both .plain (fun f p q => Mirrors c (f <$> p) q) inner g

/-- One more round around parsers that mirror a level mirrors the level around it. -/
theorem Inside.around {inner : Level Counted} {g : Grammar} (room : c < maxNesting)
    (inside : Inside (c + 1) inner g) : Inside c (Counted.around inner) (Grammar.around g) :=
  .of_same
    (((Mirrors.corresponds.parseStatement inside).of_map (by simp)).nested room)
    (((Mirrors.corresponds.parseAssignment inside).of_map (by simp)).nested room)
    (((Mirrors.corresponds.parseConditional inside).of_map (by simp)).nested room)
    (((Mirrors.corresponds.parseOperand inside).of_map (by simp)).nested room)
    (((Mirrors.corresponds.parseAccess inside).of_map (by simp)).nested room)

/-- Enough rounds mirror as many levels as are left at this depth. -/
theorem rounds_inside {calls : Nat} (enough : maxNesting ≤ c + calls) :
    Inside c (rounds calls) (Grammar.within (maxNesting - c)) := by
  induction calls generalizing c with
  | zero =>
      rw [show maxNesting - c = 0 from Nat.sub_eq_zero_of_le enough]
      exact Mirrors.corresponds.exhausted
  | succ calls ih =>
      by_cases room : c < maxNesting
      · have left : maxNesting - c = maxNesting - (c + 1) + 1 := by omega
        rw [left]
        exact Inside.around room (ih (by omega))
      · have full := Nat.not_lt.mp room
        rw [Nat.sub_eq_zero_of_le full]
        exact .of_same (.nested_of_full full) (.nested_of_full full) (.nested_of_full full)
          (.nested_of_full full) (.nested_of_full full)

theorem inner_inside (c : Nat) : Inside c inner (Grammar.within (maxNesting - c)) :=
  rounds_inside (Nat.le_add_left _ _)

/-- A parser is known by what it mirrors at every depth. -/
theorem eq_of_mirrors {p p' : Counted α} {q : Nat → Parse α} (first : ∀ c, Mirrors c p (q c))
    (second : ∀ c, Mirrors c p' (q c)) : p = p' :=
  funext fun s => (first s.depth s.tokens).trans (second s.depth s.tokens).symm

/-- The parsers call themselves: another round around them makes no difference. -/
theorem around_inner : around inner = inner := by
  have more (c : Nat) : Inside c (around inner) (Grammar.within (maxNesting - c)) :=
    rounds_inside (by omega : maxNesting ≤ c + (maxNesting + 1))
  have same (part : Level Counted → Counted (Option Node)) (part' : Grammar → Parse (Option Node))
      (both : ∀ {c inner g}, Inside c inner g →
        Mirrors c (Option.map View.plain.node <$> part inner) (part' g)) :
      part (around inner) = part inner :=
    eq_of_mirrors (fun c => (both (more c)).of_map (by simp))
      fun c => (both (inner_inside c)).of_map (by simp)
  exact Level.ext (same (·.statement) (·.statement) (·.statement))
    (same (·.assignment) (·.assignment) (·.assignment))
    (same (·.conditional) (·.conditional) (·.conditional))
    (same (·.operand) (·.operand) (·.operand)) (same (·.access) (·.access) (·.access))

end Scriptlet.Counted
