import Scriptlet.Proofs.Node.Names

/-! # Paths in a tree

A path leads from a tree to a node inside it, from each node to one of its children. Some of
its edges are those that the parser nests at. `Node.nesting` bounds how many of them a path can
have.
-/

namespace Scriptlet

/-- Does the parser nest at the operand of this operator? It does not at that of a step. -/
def PrefixOp.nests : PrefixOp → Bool
  | .step _ => false
  | _ => true

namespace Node

/-- `m` is a child of the node, and the parser nests at it or not. -/
inductive Child : Node → Bool → Node → Prop where
  | statement {body place n} (mem : n ∈ body) : Child (.block body place) true n
  | expression {expr place} : Child (.expression expr place) false expr
  | value {xs place x n} (mem : x ∈ xs) (valued : x.value = some n) : Child (.var xs place) false n
  | condition {bs place b n} (mem : b ∈ bs) (conditioned : b.condition = some n) :
      Child (.chain bs place) false n
  | body {bs place b} (mem : b ∈ bs) : Child (.chain bs place) true b.body
  | item {exprs place n} (mem : n ∈ exprs) : Child (.comma exprs place) false n
  | paren {expr place} : Child (.paren expr place) true expr
  | prefixed {op operand place} : Child (.prefixed op operand place) op.nests operand
  | postfixed {op operand place} : Child (.postfixed op operand place) false operand
  | lhs {op lhs rhs place} : Child (.binary op lhs rhs place) false lhs
  | rhs {op lhs rhs place} : Child (.binary op lhs rhs place) op.isRightAssociative rhs
  | asked {condition yes no place} : Child (.ternary condition yes no place) false condition
  | yes {condition yes no place} : Child (.ternary condition yes no place) true yes
  | no {condition yes no place} : Child (.ternary condition yes no place) true no
  | callee {callee args place} : Child (.call callee args place) false callee
  | argument {callee args place n} (mem : n ∈ args) : Child (.call callee args place) true n
  | object {op object property place} : Child (.access op object property place) false object
  | property {op object property place} :
      Child (.access op object property place) (op == .index) property

/-- A path from a node to `m`, and how many of its edges the parser nests at. -/
inductive Path : Node → Nat → Node → Prop where
  | refl (n : Node) : Path n 0 n
  | step {n child m : Node} {nests : Bool} {k : Nat} (edge : n.Child nests child)
      (rest : child.Path k m) : Path n (nests.toNat + k) m

mutual

/-- How many edges that the parser nests at a path in the tree can have. -/
def nesting : Node → Nat
  | .empty _ | .number _ _ _ | .string _ _ _ | .symbol _ _ => 0
  | .block body _ => nestingAll true body
  | .comma exprs _ => nestingAll false exprs
  | .expression inner _ | .postfixed _ inner _ => inner.nesting
  | .paren inner _ => inner.nesting + 1
  | .prefixed op inner _ => inner.nesting + op.nests.toNat
  | .var declarators _ => nestingDeclarators declarators
  | .chain branches _ => nestingBranches branches
  | .binary op lhs rhs _ => max lhs.nesting (rhs.nesting + op.isRightAssociative.toNat)
  | .ternary condition yes no _ => max condition.nesting (max yes.nesting no.nesting + 1)
  | .call callee args _ => max callee.nesting (nestingAll true args)
  | .access op object property _ => max object.nesting (property.nesting + (op == .index).toNat)

def nestingAll (nests : Bool) : List Node → Nat
  | [] => 0
  | n :: rest => max (n.nesting + nests.toNat) (nestingAll nests rest)

def nestingDeclarators : List (Declarator Node) → Nat
  | [] => 0
  | ⟨_, none, _⟩ :: rest => nestingDeclarators rest
  | ⟨_, some v, _⟩ :: rest => max v.nesting (nestingDeclarators rest)

def nestingBranches : List (Branch Node) → Nat
  | [] => 0
  | ⟨_, none, body⟩ :: rest => max (body.nesting + 1) (nestingBranches rest)
  | ⟨_, some c, body⟩ :: rest =>
      max (max c.nesting (body.nesting + 1)) (nestingBranches rest)

end

/-! ## Rows of nodes -/

theorem nestingAll_append (nests : Bool) (ns ms : List Node) :
    nestingAll nests (ns ++ ms) = max (nestingAll nests ns) (nestingAll nests ms) := by
  induction ns with
  | nil => simp [nestingAll]
  | cons n ns ih => simp only [List.cons_append, nestingAll, ih, Nat.max_assoc]

theorem nestingDeclarators_append (xs ys : List (Declarator Node)) :
    nestingDeclarators (xs ++ ys) = max (nestingDeclarators xs) (nestingDeclarators ys) := by
  induction xs with
  | nil => simp [nestingDeclarators]
  | cons x xs ih =>
      obtain ⟨name, _ | v, place⟩ := x <;>
        simp only [List.cons_append, nestingDeclarators, ih, Nat.max_assoc]

theorem nestingBranches_append (bs cs : List (Branch Node)) :
    nestingBranches (bs ++ cs) = max (nestingBranches bs) (nestingBranches cs) := by
  induction bs with
  | nil => simp [nestingBranches]
  | cons b bs ih =>
      obtain ⟨word, _ | c, body⟩ := b <;>
        simp only [List.cons_append, nestingBranches, ih, Nat.max_assoc]

/-- One edge before each of the paths adds no more than one. -/
theorem nestingAll_true_le (ns : List Node) : nestingAll true ns ≤ nestingAll false ns + 1 := by
  induction ns with
  | nil => exact Nat.zero_le _
  | cons n ns ih =>
      simp only [nestingAll, Bool.toNat_true, Bool.toNat_false]
      omega

theorem nesting_le_nestingAll {n : Node} {ns : List Node} (nests : Bool) (mem : n ∈ ns) :
    n.nesting + nests.toNat ≤ nestingAll nests ns := by
  obtain ⟨before, behind, rfl⟩ := List.append_of_mem mem
  rw [nestingAll_append, nestingAll]
  omega

/-! ## Paths -/

theorem Child.exists_path {n child m : Node} {nests : Bool} (edge : n.Child nests child)
    (found : ∃ k, child.Path k m) : ∃ k, n.Path k m := by
  obtain ⟨k, path⟩ := found
  exact ⟨_, .step edge path⟩

mutual

/-- A path leads to every node inside a tree. -/
theorem exists_path : ∀ n : Node, ∀ m ∈ n.subnodes, ∃ k, n.Path k m
  | .empty _ | .number _ _ _ | .string _ _ _ | .symbol _ _ =>
      List.forall_mem_singleton.mpr ⟨_, .refl _⟩
  | .block body _ => List.forall_mem_cons.mpr ⟨⟨_, .refl _⟩, fun m inside => by
      obtain ⟨n, mem, path⟩ := exists_path_all body m inside
      exact (Child.statement mem).exists_path path⟩
  | .comma exprs _ => List.forall_mem_cons.mpr ⟨⟨_, .refl _⟩, fun m inside => by
      obtain ⟨n, mem, path⟩ := exists_path_all exprs m inside
      exact (Child.item mem).exists_path path⟩
  | .expression inner _ => List.forall_mem_cons.mpr ⟨⟨_, .refl _⟩, fun m inside =>
      Child.expression.exists_path (exists_path inner m inside)⟩
  | .paren inner _ => List.forall_mem_cons.mpr ⟨⟨_, .refl _⟩, fun m inside =>
      Child.paren.exists_path (exists_path inner m inside)⟩
  | .prefixed _ inner _ => List.forall_mem_cons.mpr ⟨⟨_, .refl _⟩, fun m inside =>
      Child.prefixed.exists_path (exists_path inner m inside)⟩
  | .postfixed _ inner _ => List.forall_mem_cons.mpr ⟨⟨_, .refl _⟩, fun m inside =>
      Child.postfixed.exists_path (exists_path inner m inside)⟩
  | .var declarators _ => List.forall_mem_cons.mpr ⟨⟨_, .refl _⟩, fun m inside => by
      obtain ⟨x, mem, n, valued, path⟩ := exists_path_declarators declarators m inside
      exact (Child.value mem valued).exists_path path⟩
  | .chain branches _ => List.forall_mem_cons.mpr ⟨⟨_, .refl _⟩, fun m inside => by
      obtain ⟨b, mem, path | ⟨c, conditioned, path⟩⟩ := exists_path_branches branches m inside
      · exact (Child.body mem).exists_path path
      · exact (Child.condition mem conditioned).exists_path path⟩
  | .binary _ lhs rhs _ => List.forall_mem_cons.mpr ⟨⟨_, .refl _⟩, List.forall_mem_append.mpr
      ⟨fun m inside => Child.lhs.exists_path (exists_path lhs m inside),
        fun m inside => Child.rhs.exists_path (exists_path rhs m inside)⟩⟩
  | .ternary condition yes no _ => List.forall_mem_cons.mpr ⟨⟨_, .refl _⟩,
      List.forall_mem_append.mpr ⟨List.forall_mem_append.mpr
        ⟨fun m inside => Child.asked.exists_path (exists_path condition m inside),
          fun m inside => Child.yes.exists_path (exists_path yes m inside)⟩,
        fun m inside => Child.no.exists_path (exists_path no m inside)⟩⟩
  | .call callee args _ => List.forall_mem_cons.mpr ⟨⟨_, .refl _⟩, List.forall_mem_append.mpr
      ⟨fun m inside => Child.callee.exists_path (exists_path callee m inside), fun m inside => by
        obtain ⟨n, mem, path⟩ := exists_path_all args m inside
        exact (Child.argument mem).exists_path path⟩⟩
  | .access _ object property _ => List.forall_mem_cons.mpr ⟨⟨_, .refl _⟩,
      List.forall_mem_append.mpr
        ⟨fun m inside => Child.object.exists_path (exists_path object m inside),
          fun m inside => Child.property.exists_path (exists_path property m inside)⟩⟩

theorem exists_path_all : ∀ ns : List Node, ∀ m ∈ subnodesAll ns, ∃ n ∈ ns, ∃ k, n.Path k m
  | [] => List.forall_mem_nil _
  | n :: rest => List.forall_mem_append.mpr
      ⟨fun m inside => ⟨n, .head _, exists_path n m inside⟩, fun m inside => by
        obtain ⟨n', mem, path⟩ := exists_path_all rest m inside
        exact ⟨n', .tail _ mem, path⟩⟩

theorem exists_path_declarators : ∀ xs : List (Declarator Node), ∀ m ∈ subnodesDeclarators xs,
    ∃ x ∈ xs, ∃ n, x.value = some n ∧ ∃ k, n.Path k m
  | [] => List.forall_mem_nil _
  | ⟨_, none, _⟩ :: rest => fun m inside => by
      obtain ⟨x, mem, found⟩ := exists_path_declarators rest m inside
      exact ⟨x, .tail _ mem, found⟩
  | ⟨_, some v, _⟩ :: rest => List.forall_mem_append.mpr
      ⟨fun m inside => ⟨_, .head _, v, rfl, exists_path v m inside⟩, fun m inside => by
        obtain ⟨x, mem, found⟩ := exists_path_declarators rest m inside
        exact ⟨x, .tail _ mem, found⟩⟩

theorem exists_path_branches : ∀ bs : List (Branch Node), ∀ m ∈ subnodesBranches bs,
    ∃ b ∈ bs, (∃ k, b.body.Path k m) ∨ ∃ c, b.condition = some c ∧ ∃ k, c.Path k m
  | [] => List.forall_mem_nil _
  | ⟨_, none, body⟩ :: rest => List.forall_mem_append.mpr
      ⟨fun m inside => ⟨_, .head _, .inl (exists_path body m inside)⟩, fun m inside => by
        obtain ⟨b, mem, found⟩ := exists_path_branches rest m inside
        exact ⟨b, .tail _ mem, found⟩⟩
  | ⟨_, some c, body⟩ :: rest => List.forall_mem_append.mpr ⟨List.forall_mem_append.mpr
      ⟨fun m inside => ⟨_, .head _, .inr ⟨c, rfl, exists_path c m inside⟩⟩,
        fun m inside => ⟨_, .head _, .inl (exists_path body m inside)⟩⟩, fun m inside => by
        obtain ⟨b, mem, found⟩ := exists_path_branches rest m inside
        exact ⟨b, .tail _ mem, found⟩⟩

end

theorem Child.nesting_le {n m : Node} {nests : Bool} (child : n.Child nests m) :
    m.nesting + nests.toNat ≤ n.nesting := by
  cases child with
  | statement mem | item mem => exact nesting_le_nestingAll _ mem
  | argument mem => exact Nat.le_trans (nesting_le_nestingAll true mem) (Nat.le_max_right _ _)
  | @value xs _ x _ mem valued =>
      obtain ⟨before, behind, rfl⟩ := List.append_of_mem mem
      obtain ⟨name, _, place⟩ := x
      cases valued
      rw [nesting, nestingDeclarators_append, nestingDeclarators, Bool.toNat_false]
      omega
  | @condition bs _ b _ mem conditioned =>
      obtain ⟨before, behind, rfl⟩ := List.append_of_mem mem
      obtain ⟨word, _, body⟩ := b
      cases conditioned
      rw [nesting, nestingBranches_append, nestingBranches, Bool.toNat_false]
      omega
  | @body bs _ b mem =>
      obtain ⟨before, behind, rfl⟩ := List.append_of_mem mem
      obtain ⟨word, _ | c, body⟩ := b <;>
        simp only [nesting, nestingBranches_append, nestingBranches, Bool.toNat_true] <;> omega
  | _ =>
      simp only [nesting, Bool.toNat_true, Bool.toNat_false]
      omega

/-- No path has more edges that the parser nests at. -/
theorem Path.le_nesting {n m : Node} {k : Nat} (path : n.Path k m) :
    m.nesting + k ≤ n.nesting := by
  induction path with
  | refl => exact Nat.le_refl _
  | step edge _ ih =>
      have first := edge.nesting_le
      omega

end Node

end Scriptlet
