import Scriptlet.Node

/-! # How high trees are

The height of a tree is the number of edges on its longest path from the root to a leaf. Some
edges lead to a child that a loop of the parser grew: the left operand of an operator that
groups to the left, the callee of a call, the object of a member. They are weighed apart.
-/

namespace Scriptlet.Node

mutual

/-- The longest path from the root to a leaf, where an edge to a child that a loop grew counts
    `loop` and every other one counts one. -/
def heightBy (loop : Nat) : Node → Nat
  | .empty _ | .number _ _ _ | .string _ _ _ | .symbol _ _ => 0
  | .block body _ => heightByAll loop body
  | .comma exprs _ => heightByAll loop exprs
  | .expression inner _ | .paren inner _ | .prefixed _ inner _ | .postfixed _ inner _ =>
      inner.heightBy loop + 1
  | .var declarators _ => heightByDeclarators loop declarators
  | .chain branches _ => heightByBranches loop branches
  | .binary op lhs rhs _ =>
      max (lhs.heightBy loop + if op.isRightAssociative then 1 else loop) (rhs.heightBy loop + 1)
  | .ternary condition yes no _ =>
      max (condition.heightBy loop) (max (yes.heightBy loop) (no.heightBy loop)) + 1
  | .call callee args _ => max (callee.heightBy loop + loop) (heightByAll loop args)
  | .access _ object property _ =>
      max (object.heightBy loop + loop) (property.heightBy loop + 1)

def heightByAll (loop : Nat) : List Node → Nat
  | [] => 0
  | n :: rest => max (n.heightBy loop + 1) (heightByAll loop rest)

def heightByDeclarators (loop : Nat) : List (Declarator Node) → Nat
  | [] => 0
  | ⟨_, none, _⟩ :: rest => heightByDeclarators loop rest
  | ⟨_, some v, _⟩ :: rest => max (v.heightBy loop + 1) (heightByDeclarators loop rest)

def heightByBranches (loop : Nat) : List (Branch Node) → Nat
  | [] => 0
  | ⟨_, none, body⟩ :: rest => max (body.heightBy loop + 1) (heightByBranches loop rest)
  | ⟨_, some c, body⟩ :: rest =>
      max (max (c.heightBy loop) (body.heightBy loop) + 1) (heightByBranches loop rest)

end

/-- The longest path from the root to a leaf. -/
def height (n : Node) : Nat :=
  n.heightBy 1

variable {loop : Nat}

theorem heightByAll_append (ns ms : List Node) :
    heightByAll loop (ns ++ ms) = max (heightByAll loop ns) (heightByAll loop ms) := by
  induction ns with
  | nil => simp [heightByAll]
  | cons n ns ih => simp only [List.cons_append, heightByAll, ih, Nat.max_assoc]

theorem heightByDeclarators_append (xs ys : List (Declarator Node)) :
    heightByDeclarators loop (xs ++ ys) =
      max (heightByDeclarators loop xs) (heightByDeclarators loop ys) := by
  induction xs with
  | nil => simp [heightByDeclarators]
  | cons x xs ih =>
      obtain ⟨name, _ | v, place⟩ := x <;>
        simp only [List.cons_append, heightByDeclarators, ih, Nat.max_assoc]

theorem heightByBranches_append (bs cs : List (Branch Node)) :
    heightByBranches loop (bs ++ cs) =
      max (heightByBranches loop bs) (heightByBranches loop cs) := by
  induction bs with
  | nil => simp [heightByBranches]
  | cons b bs ih =>
      obtain ⟨word, _ | c, body⟩ := b <;>
        simp only [List.cons_append, heightByBranches, ih, Nat.max_assoc]

theorem heightBy_lt_heightByAll {n : Node} {ns : List Node} (mem : n ∈ ns) :
    n.heightBy loop < heightByAll loop ns := by
  obtain ⟨before, behind, rfl⟩ := List.append_of_mem mem
  rw [heightByAll_append, heightByAll]
  omega

end Scriptlet.Node
