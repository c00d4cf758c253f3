import Scriptlet.Proofs.Grammar.Derives

/-! # How loose a phrase can be

The tree of a phrase holds together at least as tightly as the phrase demands. The levels
of operators are ordered, so that this holds of the chains of operands as well.
-/

namespace Scriptlet.Grammar

/-- How loose a chain of operands can be. -/
def chainLimit : List (List BinaryOp) → Nat
  | [] => Precedence.unary
  | ops :: _ => (ops.map BinaryOp.precedence).foldr max 0

/-- All operators of a level bind alike, looser than those of the levels behind, and
    group to the left. -/
def Ordered : List (List BinaryOp) → Prop
  | [] => True
  | ops :: levels =>
      chainLimit levels < chainLimit (ops :: levels) ∧
        (∀ op ∈ ops, op.precedence = chainLimit (ops :: levels) ∧
          op.isRightAssociative = false) ∧
        Ordered levels

theorem ordered_binaryLevels : Ordered binaryLevels := by
  simp [Ordered, binaryLevels, chainLimit, BinaryOp.precedence, ArithOp.precedence,
    RelOp.precedence, Precedence.unary, BinaryOp.isRightAssociative]

/-- The loosest tree that a phrase can have. -/
def Phrase.limit : Phrase → Nat
  | .expression | .list => Precedence.comma
  | .assignment => Precedence.assignment
  | .conditional => Precedence.conditional
  | .chain levels => chainLimit levels
  | .operand => Precedence.unary
  | .update => Precedence.update
  | .call => Precedence.call
  | .access | .object => Precedence.member
  | .atom => Precedence.atom

/-- The levels of a chain of operands are ordered. -/
def Phrase.Sorted : Phrase → Prop
  | .chain levels => Ordered levels
  | _ => True

theorem precedence_assignments : ∀ op ∈ BinaryOp.assignments ++ [.lambda],
    op.precedence = Precedence.assignment ∧ op.isRightAssociative = true := by
  decide

theorem precedence_defaults : ∀ op ∈ [BinaryOp.elvis, .coalesce],
    op.precedence = Precedence.conditional ∧ op.isRightAssociative = true := by
  decide

theorem precedence_unary : ∀ op ∈ PrefixOp.unary,
    op.precedence = Precedence.unary ∧ op.operandLimit = Precedence.unary := by
  decide

theorem precedence_steps : ∀ op ∈ PrefixOp.steps,
    op.precedence = Precedence.update ∧ op.operandLimit = Precedence.call := by
  decide

theorem Phrase.TakesMembers.member_le {X : Phrase} (takes : X.TakesMembers) : Precedence.member ≤ X.limit := by
  obtain rfl | rfl := takes <;> decide

theorem Phrase.TakesMembers.limit_le {X : Phrase} (takes : X.TakesMembers) :
    X.limit ≤ Precedence.call := by
  obtain rfl | rfl := takes <;> decide

theorem Phrase.TakesMembers.sorted {X : Phrase} (takes : X.TakesMembers) : X.Sorted := by
  obtain rfl | rfl := takes <;> trivial

theorem Derives.precedence_le {ambiguous : Bool} {d : Nat} {X : Phrase} {ts : List Token}
    {n : Node} (h : Derives ambiguous d X ts n) (sorted : X.Sorted) : n.precedence ≤ X.limit := by
  induction h with
  | single _ ih | unassigned _ ih | unprefixed _ ih | unstepped _ ih | uncalled _ ih
  | reached _ ih | bare _ ih => exact Nat.le_trans (ih trivial) (by decide)
  | several | first | further => exact Nat.le_refl _
  | assigned _ mem _ _ _ _ => exact Nat.le_of_eq (precedence_assignments _ mem).1
  | unconditional _ ih => exact Nat.le_trans (ih ordered_binaryLevels) (by decide)
  | ternary => exact Nat.le_refl _
  | default _ mem _ _ _ _ => exact Nat.le_of_eq (precedence_defaults _ mem).1
  | unjoined _ ih => exact ih trivial
  | tighter _ ih => exact Nat.le_trans (ih sorted.2.2) (Nat.le_of_lt sorted.1)
  | joined _ mem _ _ _ _ => exact Nat.le_of_eq (sorted.2.1 _ mem).1
  | prefixed mem _ _ _ => exact Nat.le_of_eq (precedence_unary _ mem).1
  | steppedBefore mem _ _ _ => exact Nat.le_of_eq (precedence_steps _ mem).1
  | steppedBehind => exact Nat.le_refl _
  | calledEmpty | called => exact Nat.le_refl _
  | new => exact Nat.le_refl _
  | member takes _ _ _ _ _ _ | index takes _ _ _ _ _ _ _ => exact takes.member_le
  | paren =>
      unfold enclose
      split <;> exact Nat.le_refl _
  | number | string | name => exact Nat.le_refl _

end Scriptlet.Grammar
