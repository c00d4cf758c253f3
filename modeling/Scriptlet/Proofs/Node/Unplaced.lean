import Scriptlet.Node

/-! # Trees without places

Two trees are the same apart from where they stand in a text if they are equal once
every place in them is forgotten.
-/

namespace Scriptlet

namespace Node

mutual

/-- The same tree, with every node at the start of a text. -/
def unplaced : Node → Node
  | empty _ => .empty .start
  | block body _ => .block (unplacedAll body) .start
  | expression expr _ => .expression expr.unplaced .start
  | var declarators _ => .var (unplacedDeclarators declarators) .start
  | chain branches _ => .chain (unplacedBranches branches) .start
  | comma exprs _ => .comma (unplacedAll exprs) .start
  | paren expr _ => .paren expr.unplaced .start
  | prefixed op operand _ => .prefixed op operand.unplaced .start
  | postfixed op operand _ => .postfixed op operand.unplaced .start
  | binary op lhs rhs _ => .binary op lhs.unplaced rhs.unplaced .start
  | ternary condition yes no _ => .ternary condition.unplaced yes.unplaced no.unplaced .start
  | call callee args _ => .call callee.unplaced (unplacedAll args) .start
  | access op object property _ => .access op object.unplaced property.unplaced .start
  | number value text _ => .number value text .start
  | string value text _ => .string value text .start
  | symbol name _ => .symbol name .start

def unplacedAll : List Node → List Node
  | [] => []
  | n :: rest => n.unplaced :: unplacedAll rest

def unplacedDeclarators : List (Declarator Node) → List (Declarator Node)
  | [] => []
  | ⟨name, value, _⟩ :: rest =>
      ⟨name, match value with
        | some v => some v.unplaced
        | none => none, .start⟩ :: unplacedDeclarators rest

def unplacedBranches : List (Branch Node) → List (Branch Node)
  | [] => []
  | ⟨word, condition, body⟩ :: rest =>
      ⟨word, match condition with
        | some c => some c.unplaced
        | none => none, body.unplaced⟩ :: unplacedBranches rest

end

theorem unplacedAll_eq_map (ns : List Node) : unplacedAll ns = ns.map unplaced := by
  induction ns with
  | nil => rfl
  | cons n rest ih => simp [unplacedAll, ih]

theorem unplacedDeclarators_eq_map (xs : List (Declarator Node)) :
    unplacedDeclarators xs = xs.map fun x => ⟨x.name, x.value.map unplaced, .start⟩ := by
  induction xs with
  | nil => rfl
  | cons x rest ih =>
      obtain ⟨name, _ | value, place⟩ := x <;> simp [unplacedDeclarators, ih]

theorem unplacedBranches_eq_map (bs : List (Branch Node)) :
    unplacedBranches bs = bs.map fun b => ⟨b.word, b.condition.map unplaced, b.body.unplaced⟩ := by
  induction bs with
  | nil => rfl
  | cons b rest ih =>
      obtain ⟨word, _ | condition, body⟩ := b <;> simp [unplacedBranches, ih]

theorem unplaced_block (body : List Node) (place : Location) :
    (block body place).unplaced = .block (body.map unplaced) .start := by
  rw [unplaced, unplacedAll_eq_map]

theorem unplaced_var (declarators : List (Declarator Node)) (place : Location) :
    (var declarators place).unplaced =
      .var (declarators.map fun x => ⟨x.name, x.value.map unplaced, .start⟩) .start := by
  rw [unplaced, unplacedDeclarators_eq_map]

theorem unplaced_chain (branches : List (Branch Node)) (place : Location) :
    (chain branches place).unplaced =
      .chain (branches.map fun b => ⟨b.word, b.condition.map unplaced, b.body.unplaced⟩) .start := by
  rw [unplaced, unplacedBranches_eq_map]

theorem eq_paren_of_unplaced {n e : Node} {place : Location}
    (same : n.unplaced = (paren e place).unplaced) : ∃ e' place', n = paren e' place' := by
  cases n <;> simp [unplaced] at same ⊢

/-- The function shows every part of an expression as it shows this part alone, and no places.
    Of parentheses nothing is said. -/
structure View (view : Node → Node) : Prop where
  number (value : Double) (text : String) (place : Location) :
    view (.number value text place) = .number value text .start
  string (value text : String) (place : Location) :
    view (.string value text place) = .string value text .start
  symbol (name : String) (place : Location) : view (.symbol name place) = .symbol name .start
  comma (exprs : List Node) (place : Location) :
    view (.comma exprs place) = .comma (exprs.map view) .start
  prefixed (op : PrefixOp) (operand : Node) (place : Location) :
    view (.prefixed op operand place) = .prefixed op (view operand) .start
  postfixed (op : Step) (operand : Node) (place : Location) :
    view (.postfixed op operand place) = .postfixed op (view operand) .start
  binary (op : BinaryOp) (lhs rhs : Node) (place : Location) :
    view (.binary op lhs rhs place) = .binary op (view lhs) (view rhs) .start
  ternary (condition yes no : Node) (place : Location) :
    view (.ternary condition yes no place) = .ternary (view condition) (view yes) (view no) .start
  call (callee : Node) (args : List Node) (place : Location) :
    view (.call callee args place) = .call (view callee) (args.map view) .start
  access (op : AccessOp) (object property : Node) (place : Location) :
    view (.access op object property place) = .access op (view object) (view property) .start

theorem view_unplaced : View unplaced := by
  constructor <;> intros <;> simp only [unplaced, unplacedAll_eq_map]

end Node

end Scriptlet
