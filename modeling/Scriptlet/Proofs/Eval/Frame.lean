import Mathlib.Logic.Relation
import Scriptlet.Proofs.Computation
import Scriptlet.Proofs.Environment
import Scriptlet.Proofs.Eval.Composition
import Scriptlet.Session

/-! # What an evaluation leaves alone

Whether it succeeds or fails, the evaluation of a tree changes variables only by the
declarations and assignments that stand in the tree, one after the other. `Frame` says what
a row of such changes can do to the bindings.
-/

namespace Scriptlet

namespace Environment

/-- One change of a variable, by its declaration or by an assignment to it. -/
inductive Change (declares assigns : String → Prop) : Environment → Environment → Prop where
  | declare {e : Environment} {x : String} (declared : declares x) (free : isReserved x = false)
      (v : Value) : Change declares assigns e (e.declare x v)
  | assign {e e' : Environment} {x : String} {v : Value} (assigned : assigns x)
      (free : isReserved x = false) (changed : e.set? x v = some e') : Change declares assigns e e'

/-- Changes one after the other. -/
abbrev Changes (declares assigns : String → Prop) : Environment → Environment → Prop :=
  Relation.ReflTransGen (Change declares assigns)

/-- May the binding of `x` in a scope become another one? Declarations go into the innermost
    scope, and assignments go to the innermost binding that there is. -/
def MayChange (declares assigns : String → Prop) (e : Environment) (i : Nat) (x : String) : Prop :=
  isReserved x = false ∧
    (i = 0 ∧ declares x ∨
      assigns x ∧ (e.binding? i x).isSome = true ∧ ∀ j < i, e.binding? j x = none)

/-- The bindings of `e'` are those of `e`, apart from some that are there and may have
    changed. -/
structure Frame (declares assigns : String → Prop) (e e' : Environment) : Prop where
  depth : e'.depth = e.depth
  binding : ∀ i x, e'.binding? i x = e.binding? i x ∨
    (e'.binding? i x).isSome = true ∧ MayChange declares assigns e i x

variable {declares assigns : String → Prop} {e e₁ e' : Environment}

theorem Frame.refl (e : Environment) : Frame declares assigns e e :=
  ⟨rfl, fun _ _ => .inl rfl⟩

/-- No binding is lost. -/
theorem Frame.isSome (frame : Frame declares assigns e e') {i : Nat} {x : String}
    (bound : (e.binding? i x).isSome = true) : (e'.binding? i x).isSome = true := by
  obtain same | ⟨bound', -⟩ := frame.binding i x
  · rw [same]
    exact bound
  · exact bound'

theorem Frame.eq_none (frame : Frame declares assigns e e') {i : Nat} {x : String}
    (unbound : e'.binding? i x = none) : e.binding? i x = none := by
  cases bound : e.binding? i x with
  | none => rfl
  | some v =>
      have kept := frame.isSome (Option.isSome_of_eq_some bound)
      rw [unbound] at kept
      cases kept

/-- What may change afterwards might have changed before: a binding that came up in between
    is that of a declared name, in the innermost scope. -/
theorem Frame.mayChange (frame : Frame declares assigns e e₁) {i : Nat} {x : String}
    (may : MayChange declares assigns e₁ i x) : MayChange declares assigns e i x := by
  obtain ⟨free, declared | ⟨assigned, bound, inner⟩⟩ := may
  · exact ⟨free, .inl declared⟩
  · obtain same | ⟨-, may⟩ := frame.binding i x
    · exact ⟨free, .inr ⟨assigned, same ▸ bound, fun j below => frame.eq_none (inner j below)⟩⟩
    · exact may

theorem Frame.trans (first : Frame declares assigns e e₁) (second : Frame declares assigns e₁ e') :
    Frame declares assigns e e' := by
  refine ⟨second.depth.trans first.depth, fun i x => ?_⟩
  obtain same | ⟨bound, may⟩ := second.binding i x
  · rw [same]
    exact first.binding i x
  · exact .inr ⟨bound, first.mayChange may⟩

theorem Change.frame (change : Change declares assigns e e') : Frame declares assigns e e' := by
  cases change with
  | declare declared free v =>
      refine ⟨depth_declare e _ v, fun i y => ?_⟩
      rw [binding?_declare]
      split
      · next here =>
          obtain ⟨rfl, rfl⟩ := here
          exact .inr ⟨rfl, free, .inl ⟨rfl, declared⟩⟩
      · exact .inl rfl
  | assign assigned free changed =>
      obtain ⟨i, bound, inner, same⟩ := binding?_of_set? changed
      refine ⟨depth_of_set? changed, fun k y => ?_⟩
      rw [same]
      split
      · next here =>
          obtain ⟨rfl, rfl⟩ := here
          exact .inr ⟨rfl, free, .inr ⟨assigned, bound, inner⟩⟩
      · exact .inl rfl

theorem Changes.frame (changes : Changes declares assigns e e') : Frame declares assigns e e' := by
  induction changes with
  | refl => exact .refl e
  | tail _ change ih => exact ih.trans change.frame

/-- Where no name may be declared or assigned to, nothing changes. -/
theorem Changes.eq (changes : Changes declares assigns e e') (undeclared : ∀ x, ¬declares x)
    (unassigned : ∀ x, ¬assigns x) : e' = e := by
  induction changes with
  | refl => rfl
  | tail _ change _ =>
      cases change with
      | declare declared => exact absurd declared (undeclared _)
      | assign assigned => exact absurd assigned (unassigned _)

end Environment

namespace Eval

open Environment

/-- Computations that make granted changes only. -/
theorem composes_changes (declares assigns : String → Prop) :
    Composes (fun p => ∀ e, Changes declares assigns e (leaves p e)) (fun _ => True)
      (fun _ => True) (fun t => assigns t.name) declares where
  pure _ _ := .refl
  bind first second := leaves_bind .trans first second
  throw _ _ := .refl
  read {t} _ _ e := by
    rw [leaves, Target.read_apply]
    cases e.get? t.name <;> exact .refl
  write {t} assigned free v e := by
    rw [leaves, Target.write_apply]
    cases changed : e.set? t.name v with
    | none => exact .refl
    | some e' => exact .single (.assign assigned free changed)
  declare declared free v e := .single (.declare declared free v)

end Eval

theorem isReserved_of_mem {x : String} (mem : x ∈ ["null", "undefined", "true", "false"]) :
    isReserved x = true := by
  revert x
  decide

namespace Node

open Environment

theorem execute_snd (n : Node) (env : Environment) : (n.execute env).2 = leaves n.run env := by
  rw [execute, leaves]
  cases n.run env <;> rfl

/-- A tree is evaluated by changes to names that are declared and assigned to in it. -/
theorem execute_changes (n : Node) (env : Environment) :
    Changes (· ∈ n.declared) (· ∈ n.assigned) env (n.execute env).2 := by
  rw [execute_snd]
  refine run_composes (Eval.composes_changes (· ∈ n.declared) (· ∈ n.assigned)) n ?_ env
  intro m inside
  exact ⟨fun _ _ => trivial, fun _ _ _ => trivial,
    fun target t own located => List.mem_flatMap.mpr
      ⟨m, inside, mem_assigns.mpr ⟨target, own, (targetName?_of_target located).1⟩⟩,
    fun x mem => List.mem_flatMap.mpr ⟨m, inside, mem⟩⟩

/-- Whether its evaluation succeeds or fails, a tree leaves as many scopes as there were and
    loses no binding; names that it neither declares nor assigns to keep their bindings in
    every scope; new bindings are in the innermost scope, for declared names; in a scope
    further out only the innermost binding of a name that is assigned to can change; and the
    reserved names keep their bindings, if they have any. A tree that declares and assigns
    to nothing leaves everything as it was, so that it can be evaluated again with the same
    result. -/
theorem execute_frame (n : Node) (env : Environment) :
    let env' := (n.execute env).2
    env'.depth = env.depth ∧
    (∀ i x, (env.binding? i x).isSome = true → (env'.binding? i x).isSome = true) ∧
    (∀ x, x ∉ n.declared → x ∉ n.assigned → ∀ i, env'.binding? i x = env.binding? i x) ∧
    (∀ i x, env.binding? i x = none → (env'.binding? i x).isSome = true →
      i = 0 ∧ x ∈ n.declared) ∧
    (∀ i x, 0 < i → env'.binding? i x ≠ env.binding? i x →
      x ∈ n.assigned ∧ (env.binding? i x).isSome = true ∧ ∀ j < i, env.binding? j x = none) ∧
    (∀ x ∈ ["null", "undefined", "true", "false"], ∀ i, env'.binding? i x = env.binding? i x) ∧
    (n.declared = [] → n.assigned = [] → env' = env ∧ n.execute env' = n.execute env) := by
  intro env'
  have changes := n.execute_changes env
  have frame := changes.frame
  refine ⟨frame.depth, fun i x bound => frame.isSome bound, ?_, ?_, ?_, ?_, ?_⟩
  · intro x undeclared unassigned i
    obtain same | ⟨-, -, ⟨-, declared⟩ | ⟨assigned, -⟩⟩ := frame.binding i x
    · exact same
    · exact absurd declared undeclared
    · exact absurd assigned unassigned
  · intro i x unbound bound
    obtain same | ⟨-, -, declared | ⟨-, bound, -⟩⟩ := frame.binding i x
    · rw [same, unbound] at bound
      cases bound
    · exact declared
    · rw [unbound] at bound
      cases bound
  · intro i x outer changed
    obtain same | ⟨-, -, ⟨rfl, -⟩ | assigned⟩ := frame.binding i x
    · exact absurd same changed
    · exact absurd outer (Nat.lt_irrefl 0)
    · exact assigned
  · intro x reserved i
    obtain same | ⟨-, free, -⟩ := frame.binding i x
    · exact same
    · rw [isReserved_of_mem reserved] at free
      cases free
  · intro undeclared unassigned
    have same : env' = env := changes.eq (by simp [undeclared]) (by simp [unassigned])
    exact ⟨same, congrArg n.execute same⟩

/-- A tree that declares `n`, assigns to `a` further out, and fails: it leaves both bindings
    of `x` alone. Without the declaration and the assignment it leaves everything alone. -/
theorem execute_frame_failing :
    let env : Environment :=
      { locals := [[("x", .null)]], global := [("x", .undefined), ("a", .undefined)] }
    let reading := Node.symbol "missing" .start
    let n := Node.block [.var [⟨"n", none, .start⟩] .start,
      .binary (.assign none) (.paren (.symbol "a" .start) .start) (.symbol "x" .start) .start,
      reading] .start
    let env' := (n.execute env).2
    (n.execute env).1.isOk = false ∧
    ("x" ∉ n.declared ∧ "x" ∉ n.assigned ∧ ∀ i, env'.binding? i "x" = env.binding? i "x") ∧
    (env'.binding? 1 "a" ≠ env.binding? 1 "a" ∧ "a" ∈ n.assigned ∧ env.binding? 0 "a" = none) ∧
    ((env'.binding? 0 "n").isSome = true ∧ "n" ∈ n.declared) ∧
    (reading.execute env).2 = env := by
  intro env reading n env'
  obtain ⟨-, -, untouched, new, outer, -⟩ := execute_frame n env
  have changed : env'.binding? 1 "a" ≠ env.binding? 1 "a" := by decide +kernel
  have found : (env'.binding? 0 "n").isSome = true := by decide +kernel
  obtain ⟨assigned, -, inner⟩ := outer 1 "a" Nat.one_pos changed
  refine ⟨by decide +kernel, ⟨by decide, by decide, untouched "x" (by decide) (by decide)⟩,
    ⟨changed, assigned, inner 0 Nat.one_pos⟩, ⟨found, (new 0 "n" rfl found).2⟩, ?_⟩
  exact ((execute_frame reading env).2.2.2.2.2.2 rfl rfl).1

end Node

end Scriptlet
