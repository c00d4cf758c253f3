import Scriptlet.Proofs.Grammar.Grouping

/-! # Trees with all parentheses in place

When a tree is written, operands that hold together too loosely are put in parentheses.
`Node.regroup` is the tree that has these parentheses in it: it is written alike, and each
of its operands holds together tightly enough.

Operands of `new` are the exception. A member of what a call returns holds together tightly,
but `new a().b` means `(new a)().b`. So `Node.regroup` takes the `new` to the object that is
called first, and is another tree than the one that was written.
-/

namespace Scriptlet

/-- The loosest left operand that needs no parentheses. -/
def BinaryOp.leftLimit (op : BinaryOp) : Nat :=
  if op.isRightAssociative then op.precedence - 1 else op.precedence

/-- The loosest right operand that needs no parentheses. -/
def BinaryOp.rightLimit (op : BinaryOp) : Nat :=
  if op.isRightAssociative then op.precedence else op.precedence - 1

theorem BinaryOp.call_lt_precedence (op : BinaryOp) : Precedence.call < op.precedence := by
  have all : ∀ op ∈ BinaryOp.all, Precedence.call < op.precedence := by decide
  exact all op op.mem_all

namespace Node

open Piece

mutual

/-- The same expression without parentheses and places. A statement loses its places only. -/
def stripped : Node → Node
  | .paren expr _ => expr.stripped
  | .comma exprs _ => .comma (strippedAll exprs) .start
  | .prefixed op operand _ => .prefixed op operand.stripped .start
  | .postfixed op operand _ => .postfixed op operand.stripped .start
  | .binary op lhs rhs _ => .binary op lhs.stripped rhs.stripped .start
  | .ternary condition yes no _ => .ternary condition.stripped yes.stripped no.stripped .start
  | .call callee args _ => .call callee.stripped (strippedAll args) .start
  | .access op object property _ => .access op object.stripped property.stripped .start
  | n => n.unplaced

def strippedAll : List Node → List Node
  | [] => []
  | n :: rest => n.stripped :: strippedAll rest

end

/-- Put a tree in parentheses if it is looser than `limit`. -/
def fitted (limit : Nat) (n : Node) : Node :=
  if limit < n.precedence then .paren n n.location else n

/-- Put the object of a member in parentheses if it is a `new` expression or too loose. -/
def asObject (isNew : Bool) (n : Node) : Node :=
  if isNew then .paren n n.location else n.fitted Precedence.call

/-- The tree that is read where `new` stands before a tree: the object that is called first
    belongs to `new`, with its members. -/
def prependNew (place : Location) : Node → Node
  | .call callee args p => .call (callee.prependNew place) args p
  | .access op object property p =>
      if object.chainsCall then .access op (object.prependNew place) property p
      else .prefixed .new (.access op object property p) place
  | n => .prefixed .new n place

mutual

/-- The tree that is written like this one, with all parentheses in place. -/
def regroup : Node → Node
  | .comma exprs place => .comma (regroupAll exprs) place
  | .paren expr place => .paren expr.regroup place
  | .prefixed op operand place =>
      -- inside the operand a `new` may have gone to a call already, so it is looked at as it is now
      let inner := fitted op.operandLimit operand.regroup
      if op = .new then inner.prependNew place else .prefixed op inner place
  | .postfixed op operand place => .postfixed op (fitted Precedence.call operand.regroup) place
  | .binary op lhs rhs place =>
      .binary op (fitted op.leftLimit lhs.regroup) (fitted op.rightLimit rhs.regroup) place
  | .ternary condition yes no place =>
      .ternary (fitted (Precedence.conditional - 1) condition.regroup)
        (fitted Precedence.conditional yes.regroup) (fitted Precedence.conditional no.regroup) place
  | .call callee args place =>
      .call (fitted Precedence.call callee.regroup) (regroupAll args) place
  | .access op object property place =>
      .access op (object.regroup.asObject object.isNew) property.regroup place
  | n => n

/-- The expressions of a list. -/
def regroupAll : List Node → List Node
  | [] => []
  | n :: rest => fitted (Precedence.comma - 1) n.regroup :: regroupAll rest

end

/-- Is this a `new` whose operand stands without parentheses and takes a member of what a call
    returns? -/
def losesCall : Node → Bool
  | .prefixed .new operand _ => operand.precedence ≤ Precedence.member && operand.chainsCall
  | _ => false

/-- An expression as programs may put it together, with no statement in it: the names are names,
    the literals have the values that their texts stand for, a list has two expressions at least,
    and what is no index is the name of a member. -/
inductive WellFormed : Node → Prop where
  | number {value text place} (lexical : Lexeme.Lexical ⟨.number, text⟩)
      (decoded : value = Numeral.value text.toList) : WellFormed (.number value text place)
  | string {value text place} (lexical : Lexeme.Lexical ⟨.string, text⟩)
      (decoded : value = Text.Quoted.decode text) : WellFormed (.string value text place)
  | symbol {name place} (lexical : (Lexeme.symbol name).Lexical)
      (free : isKeyword name = false) : WellFormed (.symbol name place)
  | comma {exprs place} (two : 2 ≤ exprs.length) (all : ∀ n ∈ exprs, WellFormed n) :
      WellFormed (.comma exprs place)
  | paren {expr place} (inside : WellFormed expr) : WellFormed (.paren expr place)
  | prefixed {op operand place} (value : WellFormed operand) :
      WellFormed (.prefixed op operand place)
  | postfixed {op operand place} (value : WellFormed operand) :
      WellFormed (.postfixed op operand place)
  | binary {op lhs rhs place} (left : WellFormed lhs) (right : WellFormed rhs) :
      WellFormed (.binary op lhs rhs place)
  | ternary {condition yes no place} (asked : WellFormed condition) (first : WellFormed yes)
      (second : WellFormed no) : WellFormed (.ternary condition yes no place)
  | call {callee args place} (called : WellFormed callee) (all : ∀ n ∈ args, WellFormed n) :
      WellFormed (.call callee args place)
  | member {op object name place place'} (named : op ≠ .index) (reached : WellFormed object)
      (known : WellFormed (.symbol name place')) :
      WellFormed (.access op object (.symbol name place') place)
  | index {object property place} (reached : WellFormed object)
      (inside : WellFormed property) : WellFormed (.access .index object property place)

/-! ## Precedence -/

@[simp] theorem precedence_fitted (limit : Nat) (n : Node) :
    (n.fitted limit).precedence = if limit < n.precedence then Precedence.atom else n.precedence := by
  unfold fitted
  split <;> rfl

theorem precedence_fitted_le (limit : Nat) (n : Node) : (n.fitted limit).precedence ≤ limit := by
  rw [precedence_fitted]
  split
  · exact Nat.zero_le _
  · omega

/-- Calls aside, what can be called holds together as tightly as a member. -/
theorem precedence_le_member {n : Node} (tight : n.precedence ≤ Precedence.call)
    (notCall : ∀ callee args place, n ≠ .call callee args place) :
    n.precedence ≤ Precedence.member := by
  cases n with
  | call callee args place => exact absurd rfl (notCall callee args place)
  | binary op => exact absurd tight (Nat.not_le.mpr op.call_lt_precedence)
  | prefixed op =>
      rw [precedence] at tight ⊢
      revert tight
      cases op <;> simp only [PrefixOp.precedence] <;> decide
  | _ =>
      simp only [precedence] at tight ⊢
      revert tight
      decide

theorem precedence_access_le (op : AccessOp) (object property : Node) (place : Location) :
    (access op object property place).precedence ≤ Precedence.call :=
  (by decide : Precedence.member ≤ Precedence.call)

theorem precedence_prependNew_le (n : Node) (place : Location) :
    (n.prependNew place).precedence ≤ Precedence.call := by
  fun_induction prependNew with
  | case1 => exact Nat.le_refl _
  | case2 | case3 | case4 => exact (by decide : Precedence.member ≤ Precedence.call)

theorem isNew_of_chainsCall {n : Node} (chains : n.chainsCall = true) : n.isNew = false := by
  cases n <;> first | rfl | cases chains

theorem chainsCall_of_ne {n : Node} (notCall : ∀ callee args p, n ≠ .call callee args p)
    (notAccess : ∀ op object property p, n ≠ .access op object property p) :
    n.chainsCall = false := by
  cases n with
  | call callee args p => exact absurd rfl (notCall callee args p)
  | access op object property p => exact absurd rfl (notAccess op object property p)
  | _ => rfl

theorem isNew_prependNew {n : Node} (chains : n.chainsCall = true) (place : Location) :
    (n.prependNew place).isNew = false := by
  fun_induction prependNew with
  | case1 | case2 => rfl
  | case3 _ _ _ _ free => exact absurd chains free
  | case4 n notCall notAccess =>
      rw [chainsCall_of_ne notCall notAccess] at chains
      cases chains

theorem precedence_prependNew {n : Node} (tight : n.precedence ≤ Precedence.member)
    (place : Location) : (n.prependNew place).precedence = Precedence.member := by
  fun_induction prependNew with
  | case1 => exact absurd tight (by decide : ¬Precedence.call ≤ Precedence.member)
  | case2 | case3 | case4 => rfl

theorem precedence_regroup (n : Node) : n.regroup.precedence = n.precedence := by
  cases n with
  | prefixed op operand place =>
      rw [regroup]
      split
      · next isNew =>
          subst isNew
          exact precedence_prependNew (precedence_fitted_le _ _) place
      · rfl
  | _ => simp only [regroup, precedence]

theorem isNew_regroup (n : Node) : n.regroup.isNew = true → n.isNew = true := by
  cases n with
  | prefixed op operand place =>
      rw [regroup]
      split
      · next same =>
          subst same
          exact fun _ => rfl
      · cases op <;> exact id
  | _ => simp [regroup, isNew]

theorem isNew_asObject {n : Node} {isNew : Bool} (known : n.isNew = true → isNew = true) :
    (n.asObject isNew).isNew = false := by
  unfold asObject
  split
  · rfl
  · next notNew =>
      unfold fitted
      split
      · rfl
      · exact eq_false_of_ne_true fun h => notNew (known h)

theorem precedence_asObject_le (isNew : Bool) (n : Node) :
    (n.asObject isNew).precedence ≤ Precedence.call := by
  unfold asObject
  split
  · exact Nat.zero_le _
  · exact precedence_fitted_le _ _

/-! ## Pieces -/

theorem pieces_fitted (limit : Nat) (n : Node) :
    (n.fitted limit).pieces = guarded (limit < n.precedence) n.pieces := by
  unfold fitted
  split
  · next loose => simp [pieces, guarded, loose]
  · next tight => simp [guarded, tight]

theorem pieces_asObject (isNew : Bool) (n : Node) :
    (n.asObject isNew).pieces = guarded (isNew || Precedence.call < n.precedence) n.pieces := by
  cases isNew with
  | false => simp [asObject, pieces_fitted]
  | true => simp [asObject, pieces, guarded]

theorem guarded_of_le {p limit : Nat} (tight : p ≤ limit) (ps : List Piece) :
    guarded (limit < p) ps = ps := by
  simp [guarded, Nat.not_lt.mpr tight]

theorem pieces_prependNew (n : Node) (place : Location) :
    (n.prependNew place).pieces =
      before PrefixOp.new.symbol ++ guarded (Precedence.call < n.precedence) n.pieces := by
  fun_induction prependNew with
  | case1 callee args p ih =>
      have tight : (call callee args p).precedence ≤ Precedence.call := Nat.le_refl _
      rw [pieces_call (precedence_prependNew_le _ _), ih, guarded_of_le tight, pieces,
        List.append_assoc]
  | case2 op object property p chains ih =>
      have notNew := isNew_prependNew chains place
      have objectNotNew := isNew_of_chainsCall chains
      rw [pieces_access notNew (precedence_prependNew_le _ _), ih,
        guarded_of_le (precedence_access_le op object property p), pieces,
        objectNotNew, Bool.false_or, List.append_assoc, List.append_assoc]
      rfl
  | case3 op object property p free =>
      rw [pieces_prefixed (Nat.le_refl _), guarded_of_le (precedence_access_le op object property p)]
  | case4 n notCall notAccess =>
      by_cases tight : n.precedence ≤ Precedence.call
      · rw [pieces_prefixed (precedence_le_member tight notCall), guarded_of_le tight]
      · have loose : PrefixOp.new.operandLimit < n.precedence :=
          Nat.lt_trans (by decide) (Nat.not_le.mp tight)
        simp [pieces, loose, Nat.not_le.mp tight]

theorem pieces_binary (op : BinaryOp) (lhs rhs : Node) (place : Location) :
    (binary op lhs rhs place).pieces =
      guarded (op.leftLimit < lhs.precedence) lhs.pieces ++ between op.symbol ++
        guarded (op.rightLimit < rhs.precedence) rhs.pieces := by
  have positive := op.call_lt_precedence
  have strict : ∀ p, decide (op.precedence - 1 < p) =
      (decide (op.precedence < p) || p == op.precedence) := by
    intro p
    rw [Bool.eq_iff_iff]
    simp only [decide_eq_true_eq, Bool.or_eq_true, beq_iff_eq]
    omega
  cases groups : op.isRightAssociative <;>
    simp [pieces, groups, BinaryOp.leftLimit, BinaryOp.rightLimit, strict]

mutual

/-- A tree is written with the parentheses that are put into it. -/
theorem pieces_regroup : ∀ n : Node, n.regroup.pieces = n.pieces
  | .comma exprs _ => by rw [regroup, pieces, pieces, pieces_regroupAll]
  | .paren expr _ => by rw [regroup, pieces, pieces, pieces_regroup expr]
  | .prefixed op operand place => by
      have tight := precedence_fitted_le op.operandLimit operand.regroup
      rw [regroup]
      split
      · next isNew =>
          subst isNew
          have tightest := Nat.le_trans tight (by decide : _ ≤ Precedence.call)
          rw [pieces_prependNew, guarded_of_le tightest, pieces_fitted, pieces_regroup operand,
            precedence_regroup, pieces]
      · rw [pieces_prefixed tight, pieces_fitted, pieces_regroup operand, precedence_regroup,
          pieces]
  | .postfixed op operand _ => by
      rw [regroup, pieces_postfixed (precedence_fitted_le _ _), pieces_fitted,
        pieces_regroup operand, precedence_regroup, pieces]
  | .binary op lhs rhs _ => by
      rw [regroup, pieces_binary, pieces_binary, guarded_of_le (precedence_fitted_le _ _),
        guarded_of_le (precedence_fitted_le _ _), pieces_fitted, pieces_fitted,
        pieces_regroup lhs, pieces_regroup rhs, precedence_regroup, precedence_regroup]
  | .ternary condition yes no _ => by
      have tight := precedence_fitted_le (Precedence.conditional - 1) condition.regroup
      rw [regroup, pieces_ternary (Nat.lt_of_le_of_lt tight (by decide))
        (precedence_fitted_le _ _) (precedence_fitted_le _ _), pieces_fitted, pieces_fitted,
        pieces_fitted, pieces_regroup condition, pieces_regroup yes, pieces_regroup no,
        precedence_regroup, precedence_regroup, precedence_regroup, pieces, List.append_assoc]
      rfl
  | .call callee args _ => by
      rw [regroup, pieces_call (precedence_fitted_le _ _), pieces_fitted, pieces_regroup callee,
        precedence_regroup, pieces_regroupAll, pieces]
  | .access op object property _ => by
      rw [regroup, pieces_access (isNew_asObject (isNew_regroup object))
        (precedence_asObject_le _ _), pieces_asObject, pieces_regroup object,
        pieces_regroup property, precedence_regroup, pieces, List.append_assoc]
      rfl
  | .empty _ | .block _ _ | .expression _ _ | .var _ _ | .chain _ _ | .number _ _ _
  | .string _ _ _ | .symbol _ _ => rfl

theorem pieces_regroupAll : ∀ (ns : List Node) (lead sep : List Piece),
    itemPieces lead sep (regroupAll ns) = itemPieces lead sep ns
  | [], _, _ => rfl
  | n :: rest, lead, sep => by
      have tight := precedence_fitted_le (Precedence.comma - 1) n.regroup
      have fits : (fitted (Precedence.comma - 1) n.regroup).isCommaLoose = false := by
        simpa [isCommaLoose] using Nat.lt_of_le_of_lt tight (by decide)
      rw [regroupAll, itemPieces, itemPieces, fits, guarded_false, pieces_fitted,
        pieces_regroup n, precedence_regroup, pieces_regroupAll rest]
      rfl

end

/-! ## Grouping -/

theorem regroupAll_eq_map (ns : List Node) :
    regroupAll ns = ns.map fun n => n.regroup.fitted (Precedence.comma - 1) := by
  induction ns with
  | nil => rfl
  | cons n ns ih => simp [regroupAll, ih]

theorem WellFormed.precedence_le {n : Node} (wellFormed : n.WellFormed) :
    n.precedence ≤ Precedence.assignment ∨ n.precedence = Precedence.comma := by
  cases wellFormed with
  | comma => exact .inr rfl
  | @binary op =>
      have all : ∀ op ∈ BinaryOp.all, op.precedence ≤ Precedence.assignment := by decide
      exact .inl (all op op.mem_all)
  | @prefixed op =>
      have all : ∀ op ∈ PrefixOp.all, op.precedence ≤ Precedence.assignment := by decide
      exact .inl (all op op.mem_all)
  | _ => exact .inl (by simp only [precedence]; decide)

/-- Every node of the tree is grouped. -/
def AllGrouped (n : Node) : Prop :=
  ∀ m ∈ n.subnodes, m.Grouped

theorem AllGrouped.fitted {n : Node} (grouped : n.AllGrouped) (limit : Nat) :
    (n.fitted limit).AllGrouped := by
  unfold Node.fitted
  split
  · exact List.forall_mem_cons.mpr ⟨trivial, grouped⟩
  · exact grouped

theorem AllGrouped.asObject {n : Node} (grouped : n.AllGrouped) (isNew : Bool) :
    (n.asObject isNew).AllGrouped := by
  unfold Node.asObject
  split
  · exact List.forall_mem_cons.mpr ⟨trivial, grouped⟩
  · exact grouped.fitted _

theorem AllGrouped.prependNew {n : Node} (grouped : n.AllGrouped)
    (tight : n.precedence ≤ Precedence.call) (place : Location) :
    (n.prependNew place).AllGrouped := by
  fun_induction Node.prependNew with
  | case1 callee args p ih =>
      simp only [AllGrouped, subnodes, List.forall_mem_cons, List.forall_mem_append] at grouped ⊢
      obtain ⟨⟨tightCallee, tightArgs⟩, callees, args⟩ := grouped
      exact ⟨⟨precedence_prependNew_le _ _, tightArgs⟩, ih callees tightCallee, args⟩
  | case2 op object property p chains ih =>
      simp only [AllGrouped, subnodes, List.forall_mem_cons, List.forall_mem_append] at grouped ⊢
      obtain ⟨⟨tightObject, -⟩, objects, properties⟩ := grouped
      exact ⟨⟨precedence_prependNew_le _ _, isNew_prependNew chains _⟩, ih objects tightObject,
        properties⟩
  | case3 op object property p free =>
      exact List.forall_mem_cons.mpr ⟨⟨Nat.le_refl _, eq_false_of_ne_true free⟩, grouped⟩
  | case4 n notCall notAccess =>
      have free := chainsCall_of_ne notCall notAccess
      exact List.forall_mem_cons.mpr ⟨⟨precedence_le_member tight notCall, free⟩, grouped⟩

theorem grouped_binary {op : BinaryOp} {lhs rhs : Node} {place : Location}
    (left : lhs.precedence ≤ op.leftLimit) (right : rhs.precedence ≤ op.rightLimit) :
    (binary op lhs rhs place).Grouped := by
  have positive := op.call_lt_precedence
  unfold BinaryOp.leftLimit at left
  unfold BinaryOp.rightLimit at right
  rw [Grouped]
  split
  · next groups =>
      rw [if_pos groups] at left right
      omega
  · next groups =>
      rw [if_neg groups] at left right
      omega

theorem precedence_item_le {n : Node} (wellFormed : n.WellFormed) :
    (n.regroup.fitted (Precedence.comma - 1)).precedence ≤ Precedence.assignment := by
  rw [precedence_fitted, precedence_regroup]
  split
  · exact Nat.zero_le _
  · next tight =>
      obtain le | same := wellFormed.precedence_le
      · exact le
      · rw [same] at tight
        exact absurd (by decide) tight

theorem allGrouped_regroupAll {ns : List Node} (all : ∀ n ∈ ns, n.regroup.AllGrouped) :
    ∀ m ∈ subnodesAll (regroupAll ns), m.Grouped := by
  rw [forall_mem_subnodesAll, regroupAll_eq_map]
  exact List.forall_mem_map.mpr fun n mem => (all n mem).fitted _

theorem tight_regroupAll {ns : List Node} (all : ∀ n ∈ ns, n.WellFormed) :
    ∀ m ∈ regroupAll ns, m.precedence ≤ Precedence.assignment := by
  rw [regroupAll_eq_map]
  exact List.forall_mem_map.mpr fun n mem => precedence_item_le (all n mem)

/-- With all parentheses in place, every node is grouped. -/
theorem WellFormed.grouped_regroup {n : Node} (wellFormed : n.WellFormed) :
    n.regroup.AllGrouped := by
  induction wellFormed with
  | number | string | symbol => exact List.forall_mem_singleton.mpr trivial
  | @comma exprs place two all ih =>
      exact List.forall_mem_cons.mpr ⟨tight_regroupAll all, allGrouped_regroupAll ih⟩
  | paren _ ih => exact List.forall_mem_cons.mpr ⟨trivial, ih⟩
  | @prefixed op operand place _ ih =>
      have tight := precedence_fitted_le op.operandLimit operand.regroup
      have inner := ih.fitted op.operandLimit
      rw [regroup]
      split
      · next isNew =>
          subst isNew
          exact inner.prependNew (Nat.le_trans tight (by decide)) place
      · next other =>
          refine List.forall_mem_cons.mpr ⟨?_, inner⟩
          cases op <;> first | exact tight | exact absurd rfl other
  | postfixed _ ih => exact List.forall_mem_cons.mpr ⟨precedence_fitted_le _ _, ih.fitted _⟩
  | binary _ _ ihl ihr =>
      exact List.forall_mem_cons.mpr
        ⟨grouped_binary (precedence_fitted_le _ _) (precedence_fitted_le _ _),
          List.forall_mem_append.mpr ⟨ihl.fitted _, ihr.fitted _⟩⟩
  | @ternary condition _ _ _ _ _ _ ihc ihy ihn =>
      have tight := precedence_fitted_le (Precedence.conditional - 1) condition.regroup
      refine List.forall_mem_cons.mpr ⟨⟨Nat.lt_of_le_of_lt tight (by decide),
        precedence_fitted_le _ _, precedence_fitted_le _ _⟩, ?_⟩
      exact List.forall_mem_append.mpr
        ⟨List.forall_mem_append.mpr ⟨ihc.fitted _, ihy.fitted _⟩, ihn.fitted _⟩
  | call _ all ihc iha =>
      exact List.forall_mem_cons.mpr ⟨⟨precedence_fitted_le _ _, tight_regroupAll all⟩,
        List.forall_mem_append.mpr ⟨ihc.fitted _, allGrouped_regroupAll iha⟩⟩
  | @member _ object _ _ _ _ _ _ iho ihn | @index object _ _ _ _ iho ihn =>
      exact List.forall_mem_cons.mpr
        ⟨⟨precedence_asObject_le _ _, isNew_asObject (isNew_regroup object)⟩,
          List.forall_mem_append.mpr ⟨iho.asObject _, ihn⟩⟩

/-! ## Well-formed trees -/

theorem WellFormed.fitted {n : Node} (wellFormed : n.WellFormed) (limit : Nat) :
    (n.fitted limit).WellFormed := by
  unfold Node.fitted
  split
  · exact .paren wellFormed
  · exact wellFormed

theorem WellFormed.asObject {n : Node} (wellFormed : n.WellFormed) (isNew : Bool) :
    (n.asObject isNew).WellFormed := by
  unfold Node.asObject
  split
  · exact .paren wellFormed
  · exact wellFormed.fitted _

theorem WellFormed.prependNew {n : Node} (wellFormed : n.WellFormed) (place : Location) :
    (n.prependNew place).WellFormed := by
  fun_induction Node.prependNew with
  | case1 _ _ _ ih =>
      cases wellFormed with
      | call callee all => exact .call (ih callee) all
  | case2 _ _ _ _ _ ih =>
      cases wellFormed with
      | member named object name => exact .member named (ih object) name
      | index object property => exact .index (ih object) property
  | case3 | case4 => exact .prefixed wellFormed

theorem WellFormed.regroup {n : Node} (wellFormed : n.WellFormed) : n.regroup.WellFormed := by
  have items {ns : List Node} (all : ∀ n ∈ ns, n.regroup.WellFormed) :
      ∀ m ∈ regroupAll ns, m.WellFormed := by
    rw [regroupAll_eq_map]
    exact List.forall_mem_map.mpr fun n mem => (all n mem).fitted _
  induction wellFormed with
  | number lexical decoded => exact .number lexical decoded
  | string lexical decoded => exact .string lexical decoded
  | symbol lexical free => exact .symbol lexical free
  | comma two _ ih => exact .comma (by simpa [regroupAll_eq_map] using two) (items ih)
  | paren _ ih => exact .paren ih
  | prefixed _ ih =>
      rw [Node.regroup]
      split
      · exact (ih.fitted _).prependNew _
      · exact .prefixed (ih.fitted _)
  | postfixed _ ih => exact .postfixed (ih.fitted _)
  | binary _ _ ihl ihr => exact .binary (ihl.fitted _) (ihr.fitted _)
  | ternary _ _ _ ihc ihy ihn => exact .ternary (ihc.fitted _) (ihy.fitted _) (ihn.fitted _)
  | call _ _ ihc iha => exact .call (ihc.fitted _) (items iha)
  | member named _ known ih _ => exact .member named (ih.asObject _) known
  | index _ _ iho ihp => exact .index (iho.asObject _) ihp

/-! ## Where the trees differ -/

@[simp] theorem stripped_fitted (limit : Nat) (n : Node) :
    (n.fitted limit).stripped = n.stripped := by
  unfold fitted
  split <;> simp [stripped]

@[simp] theorem stripped_asObject (isNew : Bool) (n : Node) :
    (n.asObject isNew).stripped = n.stripped := by
  unfold asObject
  split <;> simp [stripped]

theorem strippedAll_eq_map (ns : List Node) : strippedAll ns = ns.map stripped := by
  induction ns with
  | nil => rfl
  | cons n ns ih => simp [strippedAll, ih]

theorem view_stripped : View stripped := by
  constructor <;> intros <;> simp only [stripped, strippedAll_eq_map, unplaced]

theorem strippedAll_regroupAll (ns : List Node) :
    strippedAll (regroupAll ns) = ns.map fun n => n.regroup.stripped := by
  simp [strippedAll_eq_map, regroupAll_eq_map]

theorem precedence_le_of_chainsCall {n : Node} (chains : n.chainsCall = true) :
    n.precedence ≤ Precedence.call := by
  cases n with
  | call => exact Nat.le_refl _
  | access => exact precedence_access_le _ _ _ _
  | _ => cases chains

theorem chainsCall_fitted (limit : Nat) (n : Node) :
    (n.fitted limit).chainsCall = (decide (n.precedence ≤ limit) && n.chainsCall) := by
  unfold fitted
  split
  · next loose => simp [chainsCall, Nat.not_le.mpr loose]
  · next tight => simp [Nat.not_lt.mp tight]

theorem chainsCall_asObject (isNew : Bool) (n : Node) :
    (n.asObject isNew).chainsCall = (!isNew && n.chainsCall) := by
  unfold asObject
  split
  · next isNew => simp [chainsCall, isNew]
  · next notNew =>
      have known : n.chainsCall = true → decide (n.precedence ≤ Precedence.call) = true :=
        fun chains => decide_eq_true (precedence_le_of_chainsCall chains)
      simp only [chainsCall_fitted, notNew, Bool.not_false, Bool.true_and]
      cases chains : n.chainsCall
      · exact Bool.and_false _
      · rw [known chains, Bool.true_and]

theorem prependNew_of_not_chainsCall {n : Node} (free : n.chainsCall = false) (place : Location) :
    n.prependNew place = .prefixed .new n place := by
  cases n with
  | call => cases free
  | access op object property p =>
      have apart : ¬object.chainsCall = true := ne_true_of_eq_false free
      rw [prependNew, if_neg apart]
  | _ => rfl

theorem isNew_stripped_prependNew {n : Node} (chains : n.chainsCall = true) (place : Location) :
    (n.prependNew place).stripped.isNew = false := by
  cases n with
  | call => rfl
  | access op object property p =>
      have inner : object.chainsCall = true := chains
      rw [prependNew, if_pos inner]
      rfl
  | _ => cases chains

/-- A call among the objects stays there. -/
theorem chainsCall_regroup (n : Node) (chains : n.chainsCall = true) :
    n.regroup.chainsCall = true := by
  fun_induction chainsCall with
  | case1 => rfl
  | case2 op object property place ih =>
      rw [regroup, chainsCall, chainsCall_asObject, isNew_of_chainsCall chains, ih chains]
      rfl
  | case3 => cases chains

theorem forall_losesCall_cons {n : Node} {ns : List Node} (own : n.losesCall = false) :
    (∀ m ∈ n :: ns, m.losesCall = false) ↔ ∀ m ∈ ns, m.losesCall = false := by
  simp [own]

theorem losesCall_prefixed {op : PrefixOp} {operand : Node} {place : Location} (other : op ≠ .new) :
    (prefixed op operand place).losesCall = false := by
  cases op <;> first | rfl | exact absurd rfl other

/-- No other call gets there unless a `new` inside loses it. -/
theorem chainsCall_regroup_of_kept (n : Node) (kept : ∀ m ∈ n.subnodes, m.losesCall = false) :
    n.regroup.chainsCall = n.chainsCall := by
  match n with
  | .prefixed op operand place =>
      simp only [subnodes, List.forall_mem_cons] at kept
      rw [regroup]
      split
      · next isNew =>
          subst isNew
          have free : (operand.regroup.fitted PrefixOp.new.operandLimit).chainsCall = false := by
            rw [chainsCall_fitted, precedence_regroup, chainsCall_regroup_of_kept operand kept.2]
            exact kept.1
          rw [prependNew_of_not_chainsCall free]
          rfl
      · rfl
  | .access op object property place =>
      simp only [subnodes, List.forall_mem_cons, List.forall_mem_append] at kept
      rw [regroup, chainsCall, chainsCall_asObject, chainsCall_regroup_of_kept object kept.2.1,
        chainsCall]
      cases chains : object.chainsCall
      · exact Bool.and_false _
      · rw [isNew_of_chainsCall chains]
        rfl
  | .empty _ | .block _ _ | .expression _ _ | .var _ _ | .chain _ _ | .number _ _ _
  | .string _ _ _ | .symbol _ _ | .comma _ _ | .paren _ _ | .postfixed _ _ _ | .binary _ _ _ _
  | .ternary _ _ _ _ | .call _ _ _ => rfl

theorem stripped_regroup_new_iff {operand : Node} {place : Location}
    (inner : operand.regroup.stripped = operand.stripped ↔
      ∀ m ∈ operand.subnodes, m.losesCall = false) :
    (prefixed .new operand place).regroup.stripped = (prefixed .new operand place).stripped ↔
      ∀ m ∈ (prefixed .new operand place).subnodes, m.losesCall = false := by
  have read : (prefixed .new operand place).regroup =
      (operand.regroup.fitted PrefixOp.new.operandLimit).prependNew place := by
    rw [regroup, if_pos rfl]
  have chained := chainsCall_fitted PrefixOp.new.operandLimit operand.regroup
  rw [precedence_regroup] at chained
  rw [read, subnodes, List.forall_mem_cons, ← inner]
  cases chains : (operand.regroup.fitted PrefixOp.new.operandLimit).chainsCall with
  | true =>
      -- the `new` is taken away from the operand, which either lost a call or got one
      rw [chains] at chained
      refine ⟨fun same => ?_, fun ⟨own, kept⟩ => ?_⟩
      · have apart := isNew_stripped_prependNew chains place
        rw [same] at apart
        cases apart
      · rw [chainsCall_regroup_of_kept operand (inner.mp kept)] at chained
        exact absurd (chained.trans own) nofun
  | false =>
      rw [prependNew_of_not_chainsCall chains]
      have own : (prefixed .new operand place).losesCall = false := by
        cases chains' : operand.chainsCall with
        | true =>
            rw [chainsCall_regroup operand chains', Bool.and_true] at chained
            rw [losesCall, chains', Bool.and_true]
            exact chained.symm.trans chains
        | false => rw [losesCall, chains', Bool.and_false]
      simp [own, stripped]

/-- With all parentheses in place, a tree is the same but for them exactly if no `new` loses
    a call. -/
theorem WellFormed.stripped_regroup_iff {n : Node} (wellFormed : n.WellFormed) :
    n.regroup.stripped = n.stripped ↔ ∀ m ∈ n.subnodes, m.losesCall = false := by
  have items {ns : List Node}
      (all : ∀ n ∈ ns, n.regroup.stripped = n.stripped ↔ ∀ m ∈ n.subnodes, m.losesCall = false) :
      strippedAll (regroupAll ns) = strippedAll ns ↔
        ∀ m ∈ subnodesAll ns, m.losesCall = false := by
    rw [strippedAll_regroupAll, strippedAll_eq_map, List.map_inj_left, forall_mem_subnodesAll]
    exact forall₂_congr all
  induction wellFormed with
  | number | string | symbol => simp [Node.regroup, subnodes, losesCall]
  | comma _ _ ih =>
      rw [subnodes, forall_losesCall_cons rfl]
      refine Iff.trans ?_ (items ih)
      simp [Node.regroup, stripped]
  | paren _ ih | postfixed _ ih =>
      rw [subnodes, forall_losesCall_cons rfl]
      refine Iff.trans ?_ ih
      simp [Node.regroup, stripped]
  | @prefixed op operand place _ ih =>
      by_cases isNew : op = .new
      · subst isNew
        exact stripped_regroup_new_iff ih
      · rw [subnodes, forall_losesCall_cons (losesCall_prefixed isNew)]
        refine Iff.trans ?_ ih
        simp [Node.regroup, isNew, stripped]
  | binary _ _ ihl ihr =>
      rw [subnodes, forall_losesCall_cons rfl, List.forall_mem_append]
      refine Iff.trans ?_ (and_congr ihl ihr)
      simp [Node.regroup, stripped]
  | ternary _ _ _ ihc ihy ihn =>
      rw [subnodes, forall_losesCall_cons rfl, List.forall_mem_append, List.forall_mem_append]
      refine Iff.trans ?_ (and_congr (and_congr ihc ihy) ihn)
      simp [Node.regroup, stripped, and_assoc]
  | call _ _ ihc iha =>
      rw [subnodes, forall_losesCall_cons rfl, List.forall_mem_append]
      refine Iff.trans ?_ (and_congr ihc (items iha))
      simp [Node.regroup, stripped]
  | member _ _ _ iho ihn | index _ _ iho ihn =>
      rw [subnodes, forall_losesCall_cons rfl, List.forall_mem_append]
      refine Iff.trans ?_ (and_congr iho ihn)
      simp [Node.regroup, stripped]

end Node

end Scriptlet
