import Scriptlet.Proofs.Environment
import Scriptlet.Proofs.Eval.Composition
import Scriptlet.Session

/-! # What an evaluation depends on

The evaluation of a tree depends on nothing but what the names in it mean. Where two
environments agree on these, however their scopes are laid out, the evaluation comes to the
same end in both, and they agree again afterwards.
-/

namespace Scriptlet

namespace Environment

/-- The names mean the same in both environments, those aside that have a fixed meaning. -/
def AgreeOn (names : String → Prop) (e₁ e₂ : Environment) : Prop :=
  ∀ x, names x → isReserved x = false → e₁.get? x = e₂.get? x

variable {names : String → Prop} {e₁ e₂ : Environment} {x : String}

theorem AgreeOn.declare (agree : AgreeOn names e₁ e₂) (x : String) (v : Value) :
    AgreeOn names (e₁.declare x v) (e₂.declare x v) := by
  intro y mem free
  rw [get?_declare, get?_declare, agree y mem free]

/-- A name that both environments agree on can be assigned to in both or in neither. -/
theorem AgreeOn.set? (agree : AgreeOn names e₁ e₂) (mem : names x) (free : isReserved x = false)
    (v : Value) :
    e₁.set? x v = none ∧ e₂.set? x v = none ∨
      ∃ e₁' e₂', e₁.set? x v = some e₁' ∧ e₂.set? x v = some e₂' ∧ AgreeOn names e₁' e₂' := by
  have bound : (e₁.set? x v).isSome = (e₂.set? x v).isSome := by
    rw [isSome_set?, isSome_set?, agree x mem free]
  cases first : e₁.set? x v with
  | none =>
      rw [first, Option.isSome_none, eq_comm, Option.isSome_eq_false_iff] at bound
      exact .inl ⟨rfl, by simpa using bound⟩
  | some e₁' =>
      rw [first, Option.isSome_some, eq_comm, Option.isSome_iff_exists] at bound
      obtain ⟨e₂', second⟩ := bound
      refine .inr ⟨e₁', e₂', rfl, second, fun y mem' free' => ?_⟩
      rw [get?_of_set? first, get?_of_set? second, agree y mem' free']

end Environment

namespace Eval

open Environment

variable {names : String → Prop} {α β : Type}

/-- Two computations have come to the same end, and left environments that agree. -/
inductive SameEnd (names : String → Prop) :
    EStateM.Result RuntimeError Environment α → EStateM.Result RuntimeError Environment α → Prop
    where
  | ok {e₁ e₂} (a : α) (agree : AgreeOn names e₁ e₂) : SameEnd names (.ok a e₁) (.ok a e₂)
  | error {e₁ e₂} (failure : RuntimeError) (agree : AgreeOn names e₁ e₂) :
      SameEnd names (.error failure e₁) (.error failure e₂)

/-- The computation depends on nothing but what the names mean. -/
def Oblivious (names : String → Prop) (p : Eval α) : Prop :=
  ∀ e₁ e₂, AgreeOn names e₁ e₂ → SameEnd names (p e₁) (p e₂)

theorem Oblivious.bind {p : Eval α} {f : α → Eval β} (first : Oblivious names p)
    (second : ∀ a, Oblivious names (f a)) : Oblivious names (p >>= f) := by
  intro e₁ e₂ agree
  have ends := first e₁ e₂ agree
  simp only [Bind.bind, EStateM.bind]
  cases ran₁ : p e₁ <;> cases ran₂ : p e₂ <;> rw [ran₁, ran₂] at ends <;> cases ends
  · next a e₁' e₂' agree' => exact second a e₁' e₂' agree'
  · next failure e₁' e₂' agree' => exact .error failure agree'

theorem oblivious_read {t : Target} (mem : names t.name) (free : isReserved t.name = false) :
    Oblivious names t.read := by
  intro e₁ e₂ agree
  rw [Target.read_apply, Target.read_apply, agree t.name mem free]
  cases e₂.get? t.name with
  | none => exact .error _ agree
  | some v => exact .ok v agree

theorem oblivious_write {t : Target} (mem : names t.name) (free : isReserved t.name = false)
    (v : Value) : Oblivious names (t.write v) := by
  intro e₁ e₂ agree
  rw [Target.write_apply, Target.write_apply]
  obtain ⟨first, second⟩ | ⟨e₁', e₂', first, second, agree'⟩ := agree.set? mem free v
  · rw [first, second]
    exact .error _ agree
  · rw [first, second]
    exact .ok v agree'

/-- Computations that keep to the names depend on nothing else. -/
theorem composes_oblivious (names : String → Prop) :
    Composes (Oblivious names) (fun _ => True) (fun t => names t.name) (fun t => names t.name)
      names where
  pure a _ _ agree := .ok a agree
  bind := Oblivious.bind
  throw _ _ _ agree := .error _ agree
  read granted free := oblivious_read (or_self_iff.mp granted) free
  write mem free v := oblivious_write mem free v
  declare _ _ v _ _ agree := .ok () (agree.declare _ v)

end Eval

namespace Node

open Environment

/-- Every node of a tree keeps to the names in the tree. -/
theorem granted_names (n : Node) :
    ∀ m ∈ n.subnodes, m.Granted (fun _ => True) (·.name ∈ n.names) (·.name ∈ n.names)
      (· ∈ n.names) := by
  intro m inside
  have own (x : String) (mem : x ∈ m.reads ++ m.declares) : x ∈ n.names :=
    List.mem_flatMap.mpr ⟨m, inside, mem⟩
  refine ⟨fun _ _ => trivial, ?_, fun target t assigned located => ?_,
    fun x mem => own x (List.mem_append_right _ mem)⟩
  · rintro name place rfl
    exact own name (List.mem_append_left _ (.head _))
  have mem := mem_assigns.mpr ⟨target, assigned, (targetName?_of_target located).1⟩
  obtain ⟨k, below, named⟩ := exists_reads_of_assigns mem
  exact List.mem_flatMap.mpr ⟨k, n.closed_subnodes m inside below, List.mem_append_left _ named⟩

/-- The evaluation of a tree depends on nothing but what the names in it mean, of symbols and
    of declarations, reserved ones aside. Where two environments agree on these, whatever
    their scopes and their other bindings are, the result is the same in both, be it a value
    or an error, and they agree on these names again afterwards. -/
theorem execute_of_agree (n : Node) {e₁ e₂ : Environment}
    (agree : ∀ x ∈ n.names, isReserved x = false → e₁.get? x = e₂.get? x) :
    (n.execute e₁).1 = (n.execute e₂).1 ∧
      ∀ x ∈ n.names, isReserved x = false →
        (n.execute e₁).2.get? x = (n.execute e₂).2.get? x := by
  have ends := run_composes (Eval.composes_oblivious (· ∈ n.names)) n n.granted_names e₁ e₂ agree
  rw [execute, execute]
  cases ran₁ : n.run e₁ <;> cases ran₂ : n.run e₂ <;> rw [ran₁, ran₂] at ends <;> cases ends
  · next v e₁' e₂' agree' => exact ⟨rfl, agree'⟩
  · next failure e₁' e₂' agree' => exact ⟨rfl, agree'⟩

/-- A tree that declares `b`, assigns `null` to `a` and fails, where there is one scope and
    where there are three of them, with a hidden `a` and a binding of `null`. -/
theorem execute_of_agree_shadowed :
    let e₁ : Environment := { global := [("a", .string "s")] }
    let e₂ : Environment :=
      { locals := [[("null", .bool true)], [("a", .string "s")]],
        global := [("a", .undefined), ("c", .null)] }
    let n := Node.block [.var [⟨"b", some (.symbol "a" .start), .start⟩] .start,
      .binary (.assign none) (.paren (.symbol "a" .start) .start) (.symbol "null" .start) .start,
      .symbol "missing" .start] .start
    (∀ x ∈ n.names, isReserved x = false → e₁.get? x = e₂.get? x) ∧
    (n.execute e₁).1 = (n.execute e₂).1 ∧ (n.execute e₂).1.isOk = false ∧
    (n.execute e₁).2.get? "a" = (n.execute e₂).2.get? "a" ∧
    (n.execute e₂).2.get? "a" ≠ e₂.get? "a" := by
  intro e₁ e₂ n
  have agree : ∀ x ∈ n.names, isReserved x = false → e₁.get? x = e₂.get? x := by decide +kernel
  obtain ⟨result, after⟩ := execute_of_agree n agree
  exact ⟨agree, result, by decide +kernel, after "a" (by decide) (by decide), by decide +kernel⟩

end Node

end Scriptlet
