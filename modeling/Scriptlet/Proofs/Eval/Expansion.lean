import Scriptlet.Proofs.Eval.Composition
import Scriptlet.Session

/-! # Assignments spelled out

A joined assignment is an assignment of what its operator makes of the target and the right
operand, and a step is an assignment of a sum. Both sides look at the target first, so they
fail alike where it is none. Where it is one, evaluating the node of the target is reading
the variable.
-/

namespace Scriptlet

/-- A step that succeeds has read the variable. -/
theorem Target.read_of_step {t : Target} {s : Step} {env env' : Environment} {old new : Value}
    (ran : t.step s env = .ok (old, new) env') :
    ∃ v, t.read env = .ok v env ∧ old = .number v.toNumber := by
  have stepped : (t.read >>= fun v => do
      let new ← t.write (.number (v.toNumber.add s.delta))
      return (.number v.toNumber, new)) env = .ok (old, new) env' := ran
  simp only [bind, EStateM.bind, Target.read_apply] at stepped ⊢
  cases bound : env.get? t.name with
  | none => simp [bound] at stepped
  | some v =>
      simp only [bound] at stepped
      split at stepped
      · cases stepped
        exact ⟨v, rfl, rfl⟩
      · cases stepped

namespace Node

variable {α : Type}

/-- A node that names a variable is evaluated by reading the variable. -/
theorem run_of_target {n : Node} {t : Target} (located : n.target = .ok t) : n.run = t.read := by
  fun_induction target n with
  | case1 => cases located
  | case2 name place free =>
      cases located
      have unreserved : reserved? name = none := by simpa [isReserved] using free
      rw [run, unreserved]
  | case3 expr place ih => rw [run, ih located]
  | case4 | case5 | case6 => cases located

/-- What follows on a target may evaluate the node instead of reading the variable. -/
theorem locate_bind_congr {n : Node} {f g : Target → Eval α}
    (same : ∀ t, n.run = t.read → f t = g t) : n.locate >>= f = n.locate >>= g := by
  rw [locate]
  cases located : n.target with
  | error e => rfl
  | ok t =>
      have applied := same t (run_of_target located)
      simpa using applied

theorem run_compound (op : ArithOp) (l e : Node) (p q r : Location) :
    (binary (.assign (some op)) l e p).run =
      (binary (.assign none) l (.binary (.arith op) l e q) r).run := by
  simp only [run]
  refine locate_bind_congr fun t same => ?_
  simp only [same, bind_assoc, pure_bind]

/-! ## Steps -/

/-- The literal `1`. -/
def one (place : Location) : Node :=
  .number (Numeral.value "1".toList) "1" place

/-- What a step adds, as it is written: `1` or `(-1)`. -/
def summand (place : Location) : Step → Node
  | .increment => one place
  | .decrement => .paren (.prefixed .minus (one place) place) place

theorem run_summand (s : Step) (place : Location) :
    (summand place s).run = pure (.number s.delta) := by
  have literal : Numeral.value "1".toList = .ofInt 1 := by decide +kernel
  have opposite : (Double.ofInt 1).neg = .ofInt (-1) := by decide +kernel
  cases s with
  | increment => rw [summand, one, run, literal, Step.delta]
  | decrement =>
      simp only [summand, one, run, literal, applyUnary, Value.toNumber, opposite, Step.delta,
        pure_bind]

theorem run_step (s : Step) (l : Node) (p q r t u : Location) :
    (prefixed (.step s) l p).run =
      (binary (.assign none) l
        (.binary (.arith .add) (.paren (.prefixed .plus l q) q) (summand r s) t) u).run := by
  simp only [run, run_summand]
  refine locate_bind_congr fun target same => ?_
  simp only [Target.step, same, applyUnary, ArithOp.apply, Value.toNumber, bind_assoc, pure_bind,
    bind_pure]

/-- A step that succeeds found the number that `+` makes of the variable. -/
theorem run_plus_of_step {s : Step} {l : Node} {env env' : Environment} {old new : Value}
    (ran : (l.locate >>= (·.step s)) env = .ok (old, new) env') (place : Location) :
    (prefixed .plus l place).run env = .ok old env := by
  rw [locate] at ran
  cases located : l.target with
  | error e =>
      rw [located] at ran
      cases ran
  | ok t =>
      rw [located] at ran
      obtain ⟨v, found, rfl⟩ := Target.read_of_step ran
      simp only [run, run_of_target located, bind, EStateM.bind, found]
      rfl

/-- The steps behind and before a node differ only in which of the two numbers they yield. -/
theorem execute_postfixed (s : Step) (l : Node) (p q : Location) (env : Environment) :
    ((postfixed s l p).execute env).2 = ((prefixed (.step s) l q).execute env).2 ∧
    (∀ e, ((postfixed s l p).execute env).1 = .error e ↔
      ((prefixed (.step s) l q).execute env).1 = .error e) ∧
    ∀ v, ((postfixed s l p).execute env).1 = .ok v →
      (prefixed .plus l q).execute env = (.ok v, env) := by
  have before : (prefixed (.step s) l q).run = (·.2) <$> (l.locate >>= (·.step s)) := by
    simp only [run, map_eq_pure_bind, bind_assoc]
  have behind : (postfixed s l p).run = (·.1) <$> (l.locate >>= (·.step s)) := by
    simp only [run, map_eq_pure_bind, bind_assoc]
  simp only [execute, before, behind, Functor.map, EStateM.map]
  cases ran : (l.locate >>= (·.step s)) env with
  | error e env' => simp
  | ok numbers env' =>
      refine ⟨rfl, by simp, ?_⟩
      rintro v ⟨⟩
      rw [run_plus_of_step ran]

/-- Joined assignments and steps equal what they are short for, whatever the target is. `l op= e`
    comes to the same end as `l = l op e`, with the same value or error and the same variables;
    so do `++l` and `l = (+l) + 1`, and `--l` and `l = (+l) + (-1)`. The steps behind a node
    change the same and fail alike, but yield the number that `+l` was before. -/
theorem execute_expanded (l e : Node) (op : ArithOp) (env : Environment)
    (p q r t u : Location) :
    (binary (.assign (some op)) l e p).execute env =
      (binary (.assign none) l (.binary (.arith op) l e q) r).execute env ∧
    (∀ s, (prefixed (.step s) l p).execute env =
      (binary (.assign none) l
        (.binary (.arith .add) (.paren (.prefixed .plus l q) q) (summand r s) t) u).execute env) ∧
    ∀ s, ((postfixed s l p).execute env).2 = ((prefixed (.step s) l q).execute env).2 ∧
      (∀ e, ((postfixed s l p).execute env).1 = .error e ↔
        ((prefixed (.step s) l q).execute env).1 = .error e) ∧
      ∀ v, ((postfixed s l p).execute env).1 = .ok v →
        (prefixed .plus l q).execute env = (.ok v, env) := by
  refine ⟨?_, fun s => ?_, fun s => execute_postfixed s l p q env⟩
  · rw [execute, execute, run_compound op l e p q r]
  · rw [execute, execute, run_step s l p q r t u]

end Node

end Scriptlet
