import Scriptlet.Proofs.Grammar.Precedence
import Scriptlet.Proofs.Grammar.StatesSoundness
import Scriptlet.Proofs.Node.Paths

/-! # How deep trees are nested

A derivation with so many levels of nesting further in has a tree whose paths nest no more
often than that. An expression reaches its operands one level further in, so it nests once less
than it could.
-/

namespace Scriptlet.Grammar

open Node

variable {d : Nat} {ts : List Token} {n : Node}

/-- The levels between a phrase and its operands. -/
def Phrase.reserve : Phrase → Nat
  | .expression | .list | .assignment | .conditional | .chain _ => 1
  | .operand | .update | .call | .access | .object | .atom => 0

theorem Phrase.TakesMembers.reserve {X : Phrase} (takes : X.TakesMembers) : X.reserve = 0 := by
  obtain rfl | rfl := takes <;> rfl

theorem nests_unary : ∀ op ∈ PrefixOp.unary, op.nests = true := by
  decide

theorem nests_steps : ∀ op ∈ PrefixOp.steps, op.nests = false := by
  decide

theorem nesting_enclose_le (place : Location) (n : Node) :
    (enclose place n).nesting ≤ n.nesting + 1 := by
  cases n with
  | paren => exact Nat.le_succ _
  | _ => exact Nat.le_refl _

/-- The tree of a phrase nests no more often than there are levels, and leaves those over that
    its operands take up. -/
theorem Derives.nesting_le {ambiguous : Bool} {X : Phrase} (h : Derives ambiguous d X ts n)
    (sorted : X.Sorted) : n.nesting + X.reserve ≤ d := by
  induction h with
  | single _ ih | several _ _ ih | unassigned _ ih | unprefixed _ ih | unstepped _ ih
  | uncalled _ ih | reached _ ih | bare _ ih => exact ih trivial
  | first _ ih => simpa [nesting, nestingAll, Phrase.reserve] using ih trivial
  | further _ _ _ ihs ih =>
      have before := ihs trivial
      have own := ih trivial
      simp only [nesting, nestingAll_append, nestingAll, Bool.toNat_false, Phrase.reserve]
        at before own ⊢
      omega
  | unconditional _ ih => exact ih ordered_binaryLevels
  | assigned _ mem _ _ iht ihv =>
      have left := iht trivial
      have right := ihv trivial
      simp only [nesting, (precedence_assignments _ mem).2, Bool.toNat_true, Phrase.reserve]
        at left right ⊢
      omega
  | ternary _ _ _ _ _ ihc ihy ihn =>
      have condition := ihc ordered_binaryLevels
      have yes := ihy trivial
      have no := ihn trivial
      simp only [nesting, Phrase.reserve] at condition yes no ⊢
      omega
  | default _ mem _ _ ihv iho =>
      have left := ihv ordered_binaryLevels
      have right := iho trivial
      simp only [nesting, (precedence_defaults _ mem).2, Bool.toNat_true, Phrase.reserve]
        at left right ⊢
      omega
  | unjoined _ ih => exact Nat.succ_le_succ (ih trivial)
  | tighter _ ih => exact ih sorted.2.2
  | joined _ mem _ _ ihl ihr =>
      have left := ihl sorted
      have right := ihr sorted.2.2
      simp only [nesting, (sorted.2.1 _ mem).2, Bool.toNat_false, Phrase.reserve] at left right ⊢
      omega
  | prefixed mem _ _ ih =>
      have operand := ih trivial
      simp only [nesting, nests_unary _ mem, Bool.toNat_true, Phrase.reserve] at operand ⊢
      omega
  | steppedBefore mem _ _ ih =>
      simpa [nesting, nests_steps _ mem, Phrase.reserve] using ih trivial
  | steppedBehind _ _ ih => exact ih trivial
  | calledEmpty _ _ _ ih => simpa [nesting, nestingAll] using ih trivial
  | @called _ _ _ _ _ args _ _ _ _ _ _ ihc iha =>
      have callee := ihc trivial
      have all := iha trivial
      have each := nestingAll_true_le args
      simp only [nesting, Phrase.reserve] at callee all ⊢
      omega
  | new _ _ ih => exact Nat.succ_le_succ (ih trivial)
  | member takes _ _ _ named _ ih =>
      simpa [nesting, beq_eq_false_iff_ne.mpr named] using ih takes.sorted
  | index takes _ _ _ _ _ iho ihp =>
      have object := iho takes.sorted
      have property := ihp trivial
      rw [takes.reserve] at object ⊢
      simp only [nesting, Phrase.reserve, beq_self_eq_true, Bool.toNat_true] at property ⊢
      omega
  | @paren _ opening _ n _ _ _ _ ih =>
      have inside := ih trivial
      have enclosed := nesting_enclose_le opening.location n
      simp only [Phrase.reserve] at inside ⊢
      omega
  | number | string | name => exact Nat.zero_le _

theorem Conditions.nesting_le (h : Conditions d ts n) : n.nesting + 1 ≤ d := by
  cases h with
  | paren _ inside _ => exact inside.nesting_le trivial

theorem Declares.nesting_le {x : Declarator Node} (h : Declares d ts x) :
    nestingDeclarators [x] ≤ d := by
  cases h with
  | bare => exact Nat.zero_le _
  | valued _ _ value =>
      have own := value.nesting_le trivial
      simp only [nestingDeclarators, Phrase.reserve] at own ⊢
      omega

/-- The tree of a statement nests no more often than there are levels. -/
theorem States.nesting_le {strict : Bool} {X : Form} (h : States strict d X ts n) :
    n.nesting ≤ d := by
  induction h with
  | empty => exact Nat.zero_le _
  | none => exact Nat.zero_le _
  | block _ _ _ ih | var _ _ _ ih | armed _ ih => exact ih
  | next _ _ ihs ih =>
      simp only [nesting, nestingAll_append, nestingAll, Bool.toNat_true] at ihs ⊢
      omega
  | declared item => exact item.nesting_le
  | alsoDeclared _ _ item ih =>
      have own := item.nesting_le
      simp only [nesting, nestingDeclarators_append] at ih ⊢
      omega
  | ifArm _ condition _ ih =>
      have condition := condition.nesting_le
      simp only [nesting, nestingBranches]
      omega
  | elseArm _ _ _ _ condition _ ihs ih =>
      have condition := condition.nesting_le
      simp only [nesting, nestingBranches_append, nestingBranches] at ihs ⊢
      omega
  | otherwise _ _ _ _ _ ihs ih =>
      simp only [nesting, nestingBranches_append, nestingBranches] at ihs ⊢
      omega
  | expression value _ => exact Nat.le_of_succ_le (value.nesting_le trivial)

/-! ## What the parsers return -/

theorem nesting_le_of_statement {s s' : Tokens} (h : Parse.statement s = .ok (some n) s') :
    n.nesting ≤ maxNesting := by
  obtain ⟨_, -, stated, -⟩ := parseStatement_takes (soundStatements_within maxNesting) h
  exact stated.nesting_le

theorem nesting_le_of_block {s s' : Tokens} (h : Parse.block s = .ok n s') :
    n.nesting ≤ maxNesting := by
  obtain ⟨_, -, stated, -⟩ := parseBlock_takes (soundStatements_within maxNesting) h
  exact stated.nesting_le

theorem nesting_le_of_program {s s' : Tokens} {p : Program} (h : Parse.program s = .ok p s')
    (mem : n ∈ p) : n.nesting ≤ maxNesting := by
  have all := (program_takes h).2.nesting_le
  have own := nesting_le_nestingAll true mem
  simp only [nesting, Bool.toNat_true] at all own
  omega

end Scriptlet.Grammar
