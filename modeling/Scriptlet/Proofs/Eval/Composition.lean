import Scriptlet.Proofs.Node.Names

/-! # Properties that all evaluations share

The evaluation of a tree is put together from few computations: those that read a variable,
assign to one, declare one, or fail. A property that passes through the ways of putting
computations together, and holds of these, holds of the evaluation of every tree. What a tree
reads, assigns to, declares and fails with is said for each node in it.
-/

namespace Scriptlet

namespace Target

theorem read_apply (t : Target) (e : Environment) :
    t.read e =
      match e.get? t.name with
      | some v => .ok v e
      | none => .error t.unbound e := by
  show (match e.get? t.name with | some v => pure v | none => throw t.unbound : Eval Value) e = _
  cases e.get? t.name <;> rfl

theorem write_apply (t : Target) (v : Value) (e : Environment) :
    t.write v e =
      match e.set? t.name v with
      | some e' => .ok v e'
      | none => .error t.unbound e := by
  show (match e.set? t.name v with
    | some e' => do set e'; return v
    | none => throw t.unbound : Eval Value) e = _
  cases e.set? t.name v <;> rfl

end Target

namespace Eval

/-- The property holds of the computations that an evaluation is put together from, and
    passes on to what is put together. The errors that may be raised outright are given, and so
    are the variables that may be read and assigned to, and the names that may be declared;
    reserved names are none of them. What is assigned to may be read as well. -/
structure Composes (P : {α : Type} → Eval α → Prop) (raises : RuntimeError → Prop)
    (reads assigns : Target → Prop) (declares : String → Prop) : Prop where
  pure {α : Type} (a : α) : P (pure a : Eval α)
  bind {α β : Type} {p : Eval α} {f : α → Eval β} (first : P p) (second : ∀ a, P (f a)) :
    P (p >>= f)
  throw {α : Type} {e : RuntimeError} (raised : raises e) : P (throw e : Eval α)
  read {t : Target} (granted : reads t ∨ assigns t) (free : isReserved t.name = false) : P t.read
  write {t : Target} (assigned : assigns t) (free : isReserved t.name = false) (v : Value) :
    P (t.write v)
  declare {x : String} (declared : declares x) (free : isReserved x = false) (v : Value) :
    P (modify (·.declare x v) : Eval Unit)

end Eval

namespace Node

/-- The errors that a node itself gives rise to, whatever the variables are. -/
inductive Raises : Node → RuntimeError → Prop where
  | target {n target : Node} {e : RuntimeError} (own : n.assignee? = some target)
      (failed : target.target = .error e) : Raises n e
  | construction {operand place} :
      Raises (.prefixed .new operand place) ⟨.unsupported .construction, place⟩
  | lambda {lhs rhs place} : Raises (.binary .lambda lhs rhs place) ⟨.unsupported .lambda, place⟩
  | object {op lhs rhs place} (v : Value) :
      Raises (.binary (.rel op) lhs rhs place) ⟨.notAnObject op v, place⟩
  | call {callee args place} :
      Raises (.call callee args place)
        ⟨.unsupported (if callee.isNew then .construction else .call), place⟩
  | access {op object property place} :
      Raises (.access op object property place) ⟨.unsupported (.access op), place⟩
  | declarator {declarators place x} (mem : x ∈ declarators) (reserved : isReserved x.name = true) :
      Raises (.var declarators place) ⟨.reservedAssignment x.name, x.location⟩

/-- A node itself raises, reads, assigns to and declares only what is granted. -/
structure Granted (raises : RuntimeError → Prop) (reads assigns : Target → Prop)
    (declares : String → Prop) (n : Node) : Prop where
  raises : ∀ e, n.Raises e → raises e
  reads : ∀ name place, n = .symbol name place → reads ⟨name, place⟩
  assigns : ∀ target t, n.assignee? = some target → target.target = .ok t → assigns t
  declares : ∀ x ∈ n.declares, declares x

end Node

namespace Eval.Composes

variable {P : {α : Type} → Eval α → Prop} {raises : RuntimeError → Prop}
  {reads assigns : Target → Prop} {declares : String → Prop} {α β : Type}

theorem map (c : Composes P raises reads assigns declares) {p : Eval α} (f : α → β) (h : P p) :
    P (f <$> p) := by
  rw [map_eq_pure_bind]
  exact c.bind h fun a => c.pure (f a)

theorem step (c : Composes P raises reads assigns declares) {t : Target} (assigned : assigns t)
    (free : isReserved t.name = false) (s : Step) : P (t.step s) :=
  c.bind (c.read (.inr assigned) free) fun _ =>
    c.bind (c.write assigned free _) fun _ => c.pure _

/-- What follows on a target needs the property only for the variable that the target is. -/
theorem locate (c : Composes P raises reads assigns declares) {n target : Node}
    {f : Target → Eval α} (granted : n.Granted raises reads assigns declares)
    (own : n.assignee? = some target)
    (h : ∀ t, assigns t → isReserved t.name = false → P (f t)) : P (target.locate >>= f) := by
  rw [Node.locate]
  cases located : target.target with
  | error e => exact c.throw (granted.raises e (.target own located))
  | ok t =>
      obtain ⟨-, free⟩ := Node.targetName?_of_target located
      exact h t (granted.assigns target t own located) free

end Eval.Composes

namespace Node

variable {P : {α : Type} → Eval α → Prop} {raises : RuntimeError → Prop}
  {reads assigns : Target → Prop} {declares : String → Prop}

mutual

/-- The evaluation of a tree has every property that composes, if what its nodes do is
    granted. -/
theorem run_composes (c : Eval.Composes P raises reads assigns declares) : ∀ n : Node,
    (∀ m ∈ n.subnodes, m.Granted raises reads assigns declares) → P n.run
  | .empty _, _ | .number _ _ _, _ | .string _ _ _, _ => c.pure _
  | .symbol name place, h => by
      simp only [subnodes, List.forall_mem_cons] at h
      rw [run]
      split
      · exact c.pure _
      · next free => exact c.read (.inl (h.1.reads name place rfl)) (by simp [isReserved, free])
  | .call callee args place, h => by
      simp only [subnodes, List.forall_mem_cons] at h
      exact c.throw (h.1.raises _ .call)
  | .access op object property place, h => by
      simp only [subnodes, List.forall_mem_cons] at h
      exact c.throw (h.1.raises _ .access)
  | .block nodes _, h | .comma nodes _, h => by
      simp only [subnodes, List.forall_mem_cons] at h
      exact runAll_composes c nodes .undefined h.2
  | .expression expr _, h | .paren expr _, h => by
      simp only [subnodes, List.forall_mem_cons] at h
      exact run_composes c expr h.2
  | .var declarators _, h => by
      simp only [subnodes, List.forall_mem_cons] at h
      have own : ∀ x ∈ declarators, declares x.name ∧
          (isReserved x.name = true → raises ⟨.reservedAssignment x.name, x.location⟩) :=
        fun x mem => ⟨h.1.declares x.name (List.mem_map_of_mem mem),
          fun reserved => h.1.raises _ (.declarator mem reserved)⟩
      exact c.bind (declareAll_composes c declarators own h.2) fun _ => c.pure _
  | .chain branches _, h => by
      simp only [subnodes, List.forall_mem_cons] at h
      exact runBranches_composes c branches h.2
  | .prefixed op operand _, h => by
      simp only [subnodes, List.forall_mem_cons] at h
      cases op with
      | new => exact c.throw (h.1.raises _ .construction)
      | step s =>
          refine c.locate h.1 rfl fun t assigned free => ?_
          exact c.bind (c.step assigned free s) fun _ => c.pure _
      | _ => exact c.bind (run_composes c operand h.2) fun _ => c.pure _
  | .postfixed op operand _, h => by
      simp only [subnodes, List.forall_mem_cons] at h
      refine c.locate h.1 rfl fun t assigned free => ?_
      exact c.bind (c.step assigned free op) fun _ => c.pure _
  | .ternary condition yes no _, h => by
      simp only [subnodes, List.forall_mem_cons, List.forall_mem_append] at h
      refine c.bind (run_composes c condition h.2.1.1) fun v => ?_
      split
      · exact run_composes c yes h.2.1.2
      · exact run_composes c no h.2.2
  | .binary op lhs rhs _, h => by
      simp only [subnodes, List.forall_mem_cons, List.forall_mem_append] at h
      obtain ⟨own, inLeft, inRight⟩ := h
      cases op with
      | lambda => exact c.throw (own.raises _ .lambda)
      | assign compound =>
          cases compound with
          | none =>
              refine c.locate own rfl fun t assigned free => ?_
              exact c.bind (run_composes c rhs inRight) fun _ => c.write assigned free _
          | some op =>
              refine c.locate own rfl fun t assigned free => ?_
              refine c.bind (c.read (.inr assigned) free) fun _ => ?_
              exact c.bind (run_composes c rhs inRight) fun _ => c.write assigned free _
      | and | elvis | coalesce =>
          refine c.bind (run_composes c lhs inLeft) fun v => ?_
          split
          · exact run_composes c rhs inRight
          · exact c.pure _
      | or =>
          refine c.bind (run_composes c lhs inLeft) fun v => ?_
          split
          · exact c.pure _
          · exact run_composes c rhs inRight
      | arith op =>
          refine c.bind (run_composes c lhs inLeft) fun v => ?_
          exact c.bind (run_composes c rhs inRight) fun _ => c.pure _
      | rel op =>
          refine c.bind (run_composes c lhs inLeft) fun v => ?_
          refine c.bind (run_composes c rhs inRight) fun w => ?_
          split
          · exact c.pure _
          · exact c.throw (own.raises _ (.object w))

theorem runAll_composes (c : Eval.Composes P raises reads assigns declares) :
    ∀ (ns : List Node) (last : Value),
      (∀ m ∈ subnodesAll ns, m.Granted raises reads assigns declares) → P (runAll last ns)
  | [], _, _ => c.pure _
  | n :: rest, last, h => by
      simp only [subnodesAll, List.forall_mem_append] at h
      exact c.bind (run_composes c n h.1) fun v => runAll_composes c rest v h.2

theorem declareAll_composes (c : Eval.Composes P raises reads assigns declares) :
    ∀ xs : List (Declarator Node), (∀ x ∈ xs, declares x.name ∧
        (isReserved x.name = true → raises ⟨.reservedAssignment x.name, x.location⟩)) →
      (∀ m ∈ subnodesDeclarators xs, m.Granted raises reads assigns declares) → P (declareAll xs)
  | [], _, _ => c.pure _
  | ⟨name, value, place⟩ :: rest, own, h => by
      simp only [List.forall_mem_cons] at own
      rw [declareAll]
      cases reserved : isReserved name with
      | true => exact c.throw (own.1.2 reserved)
      | false =>
          cases value with
          | none =>
              refine c.bind (c.pure _) fun v => ?_
              exact c.bind (c.declare own.1.1 reserved v) fun _ =>
                declareAll_composes c rest own.2 h
          | some n =>
              simp only [subnodesDeclarators, List.forall_mem_append] at h
              refine c.bind (run_composes c n h.1) fun v => ?_
              exact c.bind (c.declare own.1.1 reserved v) fun _ =>
                declareAll_composes c rest own.2 h.2

theorem runBranches_composes (c : Eval.Composes P raises reads assigns declares) :
    ∀ bs : List (Branch Node),
      (∀ m ∈ subnodesBranches bs, m.Granted raises reads assigns declares) → P (runBranches bs)
  | [], _ => c.pure _
  | ⟨word, none, body⟩ :: rest, h => by
      simp only [subnodesBranches, List.forall_mem_append] at h
      exact run_composes c body h.1
  | ⟨word, some condition, body⟩ :: rest, h => by
      simp only [subnodesBranches, List.forall_mem_append] at h
      refine c.bind (c.map Value.isTruthy (run_composes c condition h.1.1)) fun taken => ?_
      cases taken with
      | true => exact run_composes c body h.1.2
      | false => exact runBranches_composes c rest h.2

end

end Node

end Scriptlet
