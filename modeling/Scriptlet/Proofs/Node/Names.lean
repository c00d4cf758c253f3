import Scriptlet.Eval

/-! # The names in a tree

What a tree reads, declares and assigns to is said for each node in it.
-/

namespace Scriptlet

namespace Node

mutual

/-- A node and all nodes inside it. -/
def subnodes : Node → List Node
  | n@(.empty _) | n@(.number _ _ _) | n@(.string _ _ _) | n@(.symbol _ _) => [n]
  | n@(.block body _) | n@(.comma body _) => n :: subnodesAll body
  | n@(.expression inner _) | n@(.paren inner _) | n@(.prefixed _ inner _)
  | n@(.postfixed _ inner _) => n :: inner.subnodes
  | n@(.var declarators _) => n :: subnodesDeclarators declarators
  | n@(.chain branches _) => n :: subnodesBranches branches
  | n@(.binary _ lhs rhs _) => n :: (lhs.subnodes ++ rhs.subnodes)
  | n@(.ternary condition yes no _) => n :: (condition.subnodes ++ yes.subnodes ++ no.subnodes)
  | n@(.call callee args _) => n :: (callee.subnodes ++ subnodesAll args)
  | n@(.access _ object property _) => n :: (object.subnodes ++ property.subnodes)

def subnodesAll : List Node → List Node
  | [] => []
  | n :: rest => n.subnodes ++ subnodesAll rest

def subnodesDeclarators : List (Declarator Node) → List Node
  | [] => []
  | ⟨_, none, _⟩ :: rest => subnodesDeclarators rest
  | ⟨_, some v, _⟩ :: rest => v.subnodes ++ subnodesDeclarators rest

def subnodesBranches : List (Branch Node) → List Node
  | [] => []
  | ⟨_, none, body⟩ :: rest => body.subnodes ++ subnodesBranches rest
  | ⟨_, some c, body⟩ :: rest => c.subnodes ++ body.subnodes ++ subnodesBranches rest

end

/-- The name that a node stands for where something is assigned to it: that of a symbol, in
    parentheses or not. -/
def targetName? : Node → Option String
  | .symbol name _ => some name
  | .paren expr _ => expr.targetName?
  | _ => none

/-- The name of the variable that a node itself is. -/
def reads : Node → List String
  | .symbol name _ => [name]
  | _ => []

/-- The names that a node itself declares. -/
def declares : Node → List String
  | .var declarators _ => declarators.map (·.name)
  | _ => []

/-- The name that a node itself assigns to, as an assignment or as a step. -/
def assigns : Node → List String
  | .binary (.assign _) target _ _ => target.targetName?.toList
  | .prefixed (.step _) target _ => target.targetName?.toList
  | .postfixed _ target _ => target.targetName?.toList
  | _ => []

/-- The node that a node itself assigns to, as an assignment or as a step. -/
def assignee? : Node → Option Node
  | .binary (.assign _) target _ _ => some target
  | .prefixed (.step _) target _ => some target
  | .postfixed _ target _ => some target
  | _ => none

/-- All names in a tree, of symbols and of declarations. -/
def names (n : Node) : List String :=
  n.subnodes.flatMap fun m => m.reads ++ m.declares

/-- All names that are declared in a tree. -/
def declared (n : Node) : List String :=
  n.subnodes.flatMap declares

/-- All names that are assigned to in a tree. -/
def assigned (n : Node) : List String :=
  n.subnodes.flatMap assigns

/-! ## Nodes inside nodes -/

theorem self_mem_subnodes (n : Node) : n ∈ n.subnodes := by
  cases n <;> exact .head _

theorem forall_mem_subnodes {P : Node → Prop} {n : Node} :
    (∀ m ∈ n.subnodes, P m) ↔ P n ∧ ∀ m ∈ n.subnodes.tail, P m := by
  have own : n.subnodes = n :: n.subnodes.tail := by cases n <;> rfl
  rw [own]
  exact List.forall_mem_cons

theorem subnodesAll_eq_flatMap (ns : List Node) : subnodesAll ns = ns.flatMap subnodes := by
  induction ns with
  | nil => rfl
  | cons n ns ih => simp [subnodesAll, ih]

theorem subnodesAll_append (ns ms : List Node) :
    subnodesAll (ns ++ ms) = subnodesAll ns ++ subnodesAll ms := by
  simp [subnodesAll_eq_flatMap]

theorem forall_mem_subnodesAll {P : Node → Prop} {ns : List Node} :
    (∀ m ∈ subnodesAll ns, P m) ↔ ∀ n ∈ ns, ∀ m ∈ n.subnodes, P m := by
  simp only [subnodesAll_eq_flatMap, List.mem_flatMap]
  exact ⟨fun h n mem m inside => h m ⟨n, mem, inside⟩,
    fun h m ⟨n, mem, inside⟩ => h n mem m inside⟩

theorem subnodesDeclarators_append (xs ys : List (Declarator Node)) :
    subnodesDeclarators (xs ++ ys) = subnodesDeclarators xs ++ subnodesDeclarators ys := by
  induction xs with
  | nil => rfl
  | cons x xs ih => obtain ⟨name, _ | v, place⟩ := x <;> simp [subnodesDeclarators, ih]

theorem subnodesBranches_append (bs cs : List (Branch Node)) :
    subnodesBranches (bs ++ cs) = subnodesBranches bs ++ subnodesBranches cs := by
  induction bs with
  | nil => rfl
  | cons b bs ih => obtain ⟨word, _ | c, body⟩ := b <;> simp [subnodesBranches, ih]

/-- With every node, the nodes inside it are among these as well. -/
def Closed (ns : List Node) : Prop :=
  ∀ m ∈ ns, m.subnodes ⊆ ns

theorem Closed.append {ns ms : List Node} (first : Closed ns) (second : Closed ms) :
    Closed (ns ++ ms) := by
  intro m mem
  obtain inside | inside := List.mem_append.mp mem
  · exact List.Subset.trans (first m inside) (List.subset_append_left ns ms)
  · exact List.Subset.trans (second m inside) (List.subset_append_right ns ms)

theorem Closed.cons {n : Node} {ns : List Node} (own : n.subnodes = n :: ns) (inner : Closed ns) :
    Closed (n :: ns) := by
  intro m mem
  obtain rfl | inside := List.mem_cons.mp mem
  · rw [own]
    exact List.Subset.refl _
  · exact List.Subset.trans (inner m inside) (List.subset_cons_self n ns)

mutual

theorem closed_subnodes : ∀ n : Node, Closed n.subnodes
  | .empty _ | .number _ _ _ | .string _ _ _ | .symbol _ _ => .cons rfl nofun
  | .block nodes _ | .comma nodes _ => .cons rfl (closed_subnodesAll nodes)
  | .expression inner _ | .paren inner _ | .prefixed _ inner _ | .postfixed _ inner _ =>
      .cons rfl (closed_subnodes inner)
  | .var declarators _ => .cons rfl (closed_subnodesDeclarators declarators)
  | .chain branches _ => .cons rfl (closed_subnodesBranches branches)
  | .binary _ lhs rhs _ => .cons rfl ((closed_subnodes lhs).append (closed_subnodes rhs))
  | .ternary condition yes no _ =>
      .cons rfl (((closed_subnodes condition).append (closed_subnodes yes)).append
        (closed_subnodes no))
  | .call callee args _ => .cons rfl ((closed_subnodes callee).append (closed_subnodesAll args))
  | .access _ object property _ =>
      .cons rfl ((closed_subnodes object).append (closed_subnodes property))

theorem closed_subnodesAll : ∀ ns : List Node, Closed (subnodesAll ns)
  | [] => nofun
  | n :: rest => (closed_subnodes n).append (closed_subnodesAll rest)

theorem closed_subnodesDeclarators : ∀ xs : List (Declarator Node),
    Closed (subnodesDeclarators xs)
  | [] => nofun
  | ⟨_, none, _⟩ :: rest => closed_subnodesDeclarators rest
  | ⟨_, some v, _⟩ :: rest => (closed_subnodes v).append (closed_subnodesDeclarators rest)

theorem closed_subnodesBranches : ∀ bs : List (Branch Node), Closed (subnodesBranches bs)
  | [] => nofun
  | ⟨_, none, body⟩ :: rest => (closed_subnodes body).append (closed_subnodesBranches rest)
  | ⟨_, some c, body⟩ :: rest =>
      ((closed_subnodes c).append (closed_subnodes body)).append (closed_subnodesBranches rest)

end

/-! ## Targets -/

theorem targetName?_of_target {n : Node} {t : Target} (located : n.target = .ok t) :
    n.targetName? = some t.name ∧ isReserved t.name = false := by
  fun_induction target n with
  | case1 => cases located
  | case2 name place free =>
      cases located
      exact ⟨rfl, by simpa using free⟩
  | case3 expr place ih => exact ih located
  | case4 | case5 | case6 => cases located

/-- What is assigned to stands in the tree as a symbol. -/
theorem symbol_mem_of_target {n : Node} {t : Target} (located : n.target = .ok t) :
    symbol t.name t.location ∈ n.subnodes := by
  fun_induction target n with
  | case1 => cases located
  | case2 =>
      cases located
      exact .head _
  | case3 expr place ih => exact .tail _ (ih located)
  | case4 | case5 | case6 => cases located

theorem mem_assigns {n : Node} {x : String} :
    x ∈ n.assigns ↔ ∃ target, n.assignee? = some target ∧ target.targetName? = some x := by
  unfold assigns assignee?
  split <;> simp

theorem assignee?_mem_subnodes {n target : Node} (own : n.assignee? = some target) :
    target.subnodes ⊆ n.subnodes := by
  unfold assignee? at own
  split at own <;> cases own
  · exact fun m mem => .tail _ (List.mem_append_left _ mem)
  · exact fun m mem => .tail _ mem
  · exact fun m mem => .tail _ mem

/-- A name that is assigned to stands in the tree as a symbol. -/
theorem exists_reads_of_targetName? {n : Node} {x : String} (named : n.targetName? = some x) :
    ∃ m ∈ n.subnodes, x ∈ m.reads := by
  fun_induction targetName? n with
  | case1 name place =>
      cases named
      exact ⟨.symbol x place, by simp [subnodes], .head _⟩
  | case2 expr place ih =>
      obtain ⟨m, inside, mem⟩ := ih named
      exact ⟨m, by simp [subnodes, inside], mem⟩
  | case3 => cases named

theorem exists_reads_of_assigns {n : Node} {x : String} (mem : x ∈ n.assigns) :
    ∃ m ∈ n.subnodes, x ∈ m.reads := by
  obtain ⟨target, own, named⟩ := mem_assigns.mp mem
  obtain ⟨m, inside, named⟩ := exists_reads_of_targetName? named
  exact ⟨m, assignee?_mem_subnodes own inside, named⟩

end Node

end Scriptlet
