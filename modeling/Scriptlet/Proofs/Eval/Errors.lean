import Scriptlet.Proofs.Eval.Frame

/-! # What errors of evaluation say

An error points at a node or a declarator of the tree that was evaluated. Where it names a
variable, the name stands at this place. A name that is said to be undefined is bound
nowhere, and since no binding is ever lost, it was bound nowhere before.
-/

namespace Scriptlet

theorem mem_of_isReserved {x : String} (reserved : isReserved x = true) :
    x ∈ ["null", "undefined", "true", "false"] := by
  grind [isReserved, reserved?]

/-- Does an error with this cause say something of a name? -/
def RuntimeError.Cause.isNamed : RuntimeError.Cause → Bool
  | .undefinedVariable _ | .reservedAssignment _ => true
  | .unsupported _ | .notAnObject _ _ | .invalidTarget _ => false

namespace Node

/-- The declarators of all `var` statements in a tree. -/
def declarators (n : Node) : List (Declarator Node) :=
  n.subnodes.flatMap fun
    | .var own _ => own
    | _ => []

/-- What an error says is so in the tree, and in the environment that is left. -/
structure Explains (n : Node) (e : RuntimeError) (env : Environment) : Prop where
  located : (∃ m ∈ n.subnodes, m.location = e.location) ∨
    ∃ x ∈ n.declarators, x.location = e.location
  undefined : ∀ name, e.cause = .undefinedVariable name →
    symbol name e.location ∈ n.subnodes ∧ isReserved name = false ∧ env.get? name = none
  reserved : ∀ name, e.cause = .reservedAssignment name →
    isReserved name = true ∧ (symbol name e.location ∈ n.subnodes ∨
      ∃ x ∈ n.declarators, x.name = name ∧ x.location = e.location)

theorem mem_declarators {n : Node} {x : Declarator Node} {own : List (Declarator Node)}
    {place : Location} (inside : var own place ∈ n.subnodes) (mem : x ∈ own) :
    x ∈ n.declarators :=
  List.mem_flatMap.mpr ⟨_, inside, mem⟩

theorem declarators_subset {n m : Node} (inside : m.subnodes ⊆ n.subnodes) :
    m.declarators ⊆ n.declarators := by
  intro x mem
  obtain ⟨k, below, own⟩ := List.mem_flatMap.mp mem
  exact List.mem_flatMap.mpr ⟨k, inside below, own⟩

namespace Explains

variable {n m : Node} {e : RuntimeError} {env : Environment}

/-- What is so in a tree is so in every tree around it. -/
theorem mono (explains : m.Explains e env) (inside : m.subnodes ⊆ n.subnodes) :
    n.Explains e env where
  located := explains.located.imp (fun ⟨k, below, same⟩ => ⟨k, inside below, same⟩)
    (fun ⟨x, mem, same⟩ => ⟨x, declarators_subset inside mem, same⟩)
  undefined name same := (explains.undefined name same).imp_left (inside ·)
  reserved name same := (explains.reserved name same).imp_right (.imp (inside ·)
    fun ⟨x, mem, here⟩ => ⟨x, declarators_subset inside mem, here⟩)

/-- An error that says nothing of a name only has to point at a node. -/
theorem of_located (inside : m ∈ n.subnodes) (here : m.location = e.location)
    (unnamed : e.cause.isNamed = false) : n.Explains e env where
  located := .inl ⟨m, inside, here⟩
  undefined name same := by
    rw [same] at unnamed
    cases unnamed
  reserved name same := by
    rw [same] at unnamed
    cases unnamed

/-- A reserved name, as a symbol or in a declarator. -/
theorem reservedName {name : String} {place : Location} (reserved : isReserved name = true)
    (here : symbol name place ∈ n.subnodes ∨
      ∃ x ∈ n.declarators, x.name = name ∧ x.location = place) :
    n.Explains ⟨.reservedAssignment name, place⟩ env where
  located := here.imp (fun inside => ⟨_, inside, rfl⟩) fun ⟨x, mem, _, same⟩ => ⟨x, mem, same⟩
  undefined _ same := by cases same
  reserved _ same := by
    cases same
    exact ⟨reserved, here⟩

/-- A variable that does not exist. -/
theorem unbound {t : Target} (inside : symbol t.name t.location ∈ n.subnodes)
    (free : isReserved t.name = false) (nowhere : env.get? t.name = none) :
    n.Explains t.unbound env where
  located := .inl ⟨_, inside, rfl⟩
  undefined name same := by
    cases same
    exact ⟨inside, free, nowhere⟩
  reserved name same := by cases same

end Explains

/-- An error in a target is about a symbol in it, or about no name. -/
theorem explains_of_target {n : Node} {e : RuntimeError} (failed : n.target = .error e)
    (env : Environment) : n.Explains e env := by
  fun_induction target n with
  | case1 name place reserved =>
      cases failed
      exact .reservedName reserved (.inl (self_mem_subnodes _))
  | case2 => cases failed
  | case3 expr place ih => exact (ih failed).mono (List.subset_cons_self _ _)
  | case4 | case5 | case6 =>
      cases failed
      exact .of_located (self_mem_subnodes _) rfl rfl

/-- Whatever a node raises by itself speaks of this node, whatever the variables are. -/
theorem Raises.explains {n : Node} {e : RuntimeError} (raises : n.Raises e) (env : Environment) :
    n.Explains e env := by
  cases raises with
  | target own failed => exact (explains_of_target failed env).mono (assignee?_mem_subnodes own)
  | @declarator own place x mem reserved =>
      have declared := mem_declarators (self_mem_subnodes (.var own place)) mem
      exact .reservedName reserved (.inr ⟨x, declared, rfl, rfl⟩)
  | construction | lambda | object | call | access =>
      exact .of_located (self_mem_subnodes _) rfl rfl

end Node

namespace Eval

open Node

/-- Computations whose errors are explained. -/
theorem composes_explains (n : Node) :
    Composes (fun p => ∀ {env e env'}, p env = .error e env' → n.Explains e env')
      (fun e => ∀ env, n.Explains e env) (fun t => symbol t.name t.location ∈ n.subnodes)
      (fun t => symbol t.name t.location ∈ n.subnodes) (fun _ => True) where
  pure a env e env' failed := by cases failed
  bind {α β p f} first second env e env' failed := by
    simp only [Bind.bind, EStateM.bind] at failed
    cases ran : p env with
    | ok a env₁ =>
        rw [ran] at failed
        exact second a failed
    | error e₁ env₁ =>
        rw [ran] at failed
        cases failed
        exact first ran
  throw explains env e env' failed := by
    cases failed
    exact explains env
  read {t} granted free env e env' failed := by
    rw [Target.read_apply] at failed
    split at failed
    · cases failed
    · next nowhere =>
        cases failed
        exact .unbound (or_self_iff.mp granted) free nowhere
  write {t} inside free v env e env' failed := by
    rw [Target.write_apply] at failed
    split at failed
    · cases failed
    · next unset =>
        cases failed
        have nowhere := Environment.isSome_set? env t.name v
        rw [unset, Option.isSome_none, eq_comm, Option.isSome_eq_false_iff] at nowhere
        exact .unbound inside free (by simpa using nowhere)
  declare _ _ v env e env' failed := by cases failed

end Eval

namespace Node

/-- Every node of a tree raises errors that the tree explains. -/
theorem granted_explains (n : Node) :
    ∀ m ∈ n.subnodes, m.Granted (fun e => ∀ env, n.Explains e env)
      (fun t => symbol t.name t.location ∈ n.subnodes)
      (fun t => symbol t.name t.location ∈ n.subnodes) (fun _ => True) := by
  intro m inside
  have below := n.closed_subnodes m inside
  refine ⟨fun e raises env => (raises.explains env).mono below, ?_, ?_, fun _ _ => trivial⟩
  · rintro name place rfl
    exact inside
  · intro target t own located
    exact below (assignee?_mem_subnodes own (symbol_mem_of_target located))

theorem explains_of_execute {n : Node} {env : Environment} {e : RuntimeError}
    (failed : (n.execute env).1 = .error e) : n.Explains e (n.execute env).2 := by
  unfold execute at failed ⊢
  cases ran : n.run env with
  | ok v env' => simp [ran] at failed
  | error e' env' =>
      simp only [ran, Except.error.injEq] at failed ⊢
      exact failed ▸ run_composes (Eval.composes_explains n) n n.granted_explains ran

/-- When the evaluation of a tree fails, the error points at a node or a declarator of the
    tree. A name that is said to be undefined stands there as a symbol, is not reserved, and
    is bound in no scope that is left. A name that is said to be reserved is one of the four
    and stands there, as a symbol or in a declarator. Where all symbols of the tree that are
    not reserved are bound beforehand, no name is said to be undefined. -/
theorem execute_error {n : Node} {env : Environment} {e : RuntimeError}
    (failed : (n.execute env).1 = .error e) :
    let env' := (n.execute env).2
    let reserved := ["null", "undefined", "true", "false"]
    ((∃ m ∈ n.subnodes, m.location = e.location) ∨
      ∃ x ∈ n.declarators, x.location = e.location) ∧
    (∀ name, e.cause = .undefinedVariable name →
      symbol name e.location ∈ n.subnodes ∧ name ∉ reserved ∧
      ∀ i, env'.binding? i name = none) ∧
    (∀ name, e.cause = .reservedAssignment name →
      name ∈ reserved ∧ (symbol name e.location ∈ n.subnodes ∨
        ∃ x ∈ n.declarators, x.name = name ∧ x.location = e.location)) ∧
    ((∀ name place, symbol name place ∈ n.subnodes → name ∉ reserved →
        ∃ i, (env.binding? i name).isSome = true) →
      ∀ name, e.cause ≠ .undefinedVariable name) := by
  intro env' reserved
  have explains := explains_of_execute failed
  have undefined (name : String) (same : e.cause = .undefinedVariable name) :
      symbol name e.location ∈ n.subnodes ∧ name ∉ reserved ∧
        ∀ i, env'.binding? i name = none := by
    obtain ⟨inside, free, nowhere⟩ := explains.undefined name same
    refine ⟨inside, fun mem => ?_, Environment.get?_eq_none_iff.mp nowhere⟩
    rw [isReserved_of_mem mem] at free
    cases free
  refine ⟨explains.located, undefined, fun name same => ?_, fun bound name same => ?_⟩
  · exact (explains.reserved name same).imp_left mem_of_isReserved
  · obtain ⟨inside, free, nowhere⟩ := undefined name same
    obtain ⟨i, before⟩ := bound name e.location inside free
    have kept := (n.execute_changes env).frame.isSome before
    rw [nowhere i] at kept
    cases kept

/-- A compound assignment to a name that is not there, behind a declaration that stays; a
    declarator of a reserved name; and a call with all its symbols bound. -/
theorem execute_error_examples :
    let env : Environment := { locals := [[("a", .null)]], global := [("b", .undefined)] }
    let missing := Node.block [.var [⟨"n", some (.symbol "b" ⟨1, 9⟩), ⟨1, 5⟩⟩] ⟨1, 1⟩,
      .binary (.assign (some .add)) (.paren (.symbol "c" ⟨1, 13⟩) ⟨1, 12⟩) (.symbol "a" ⟨1, 19⟩)
        ⟨1, 16⟩] ⟨1, 1⟩
    let declaring := Node.var [⟨"a", none, ⟨1, 5⟩⟩, ⟨"true", none, ⟨1, 8⟩⟩] ⟨1, 1⟩
    let calling := Node.call (.symbol "b" ⟨1, 1⟩) [.symbol "null" ⟨1, 3⟩] ⟨1, 2⟩
    ((missing.execute env).1 = .error ⟨.undefinedVariable "c", ⟨1, 13⟩⟩ ∧
      (missing.execute env).2.binding? 0 "n" = some .undefined ∧
      symbol "c" ⟨1, 13⟩ ∈ missing.subnodes ∧
      ∀ i, (missing.execute env).2.binding? i "c" = none) ∧
    ((declaring.execute env).1 = .error ⟨.reservedAssignment "true", ⟨1, 8⟩⟩ ∧
      (symbol "true" ⟨1, 8⟩ ∈ declaring.subnodes ∨
        ∃ x ∈ declaring.declarators, x.name = "true" ∧ x.location = ⟨1, 8⟩)) ∧
    (calling.execute env).1 = .error ⟨.unsupported .call, ⟨1, 2⟩⟩ ∧
      ∀ name, RuntimeError.Cause.unsupported .call ≠ .undefinedVariable name := by
  intro env missing declaring calling
  have undefined : (missing.execute env).1 = .error ⟨.undefinedVariable "c", ⟨1, 13⟩⟩ := rfl
  have reserved : (declaring.execute env).1 = .error ⟨.reservedAssignment "true", ⟨1, 8⟩⟩ := rfl
  have called : (calling.execute env).1 = .error ⟨.unsupported .call, ⟨1, 2⟩⟩ := rfl
  have bound : ∀ name place, symbol name place ∈ calling.subnodes →
      name ∉ ["null", "undefined", "true", "false"] →
      ∃ i, (env.binding? i name).isSome = true := by
    intro name place inside free
    simp only [calling, subnodes, subnodesAll, List.append_nil, List.cons_append, List.nil_append,
      List.mem_cons, reduceCtorEq, symbol.injEq, List.not_mem_nil, or_false, false_or] at inside
    obtain ⟨rfl, -⟩ | ⟨rfl, -⟩ := inside
    · exact ⟨1, by decide⟩
    · exact absurd (.head _) free
  obtain ⟨-, unbound, -⟩ := execute_error undefined
  obtain ⟨inside, -, nowhere⟩ := unbound "c" rfl
  obtain ⟨-, -, named, -⟩ := execute_error reserved
  obtain ⟨-, -, -, defined⟩ := execute_error called
  exact ⟨⟨undefined, by decide +kernel, inside, nowhere⟩, ⟨reserved, (named "true" rfl).2⟩,
    called, defined bound⟩

end Node

end Scriptlet
