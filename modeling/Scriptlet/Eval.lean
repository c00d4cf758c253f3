import Scriptlet.Environment
import Scriptlet.Node.Pieces
import Scriptlet.RuntimeError
import Scriptlet.Value.Apply

/-! # Evaluation

`Node.run` evaluates a tree, changing variables on the way. When it fails, the
changes made before stay.
-/

namespace Scriptlet

/-- A computation that reads and changes variables. -/
abbrev Eval (α : Type) := EStateM RuntimeError Environment α

/-- A variable that can be assigned to: its name, and where the name stands. -/
structure Target where
  name : String
  location : Location
  deriving Repr, DecidableEq

namespace Target

/-- The error for a variable that does not exist. -/
def unbound (t : Target) : RuntimeError :=
  ⟨.undefinedVariable t.name, t.location⟩

/-- The value of the variable. -/
def read (t : Target) : Eval Value := do
  match (← get).get? t.name with
  | some v => return v
  | none => throw t.unbound

/-- Give the variable a value, which is also the result. -/
def write (t : Target) (v : Value) : Eval Value := do
  match (← get).set? t.name v with
  | some e =>
      set e
      return v
  | none => throw t.unbound

/-- Move the variable one step: its number before, and the value after. -/
def step (t : Target) (s : Step) : Eval (Value × Value) := do
  let old := (← t.read).toNumber
  let new ← t.write (.number (old.add s.delta))
  return (.number old, new)

end Target

namespace Node

/-- The variable that a node names, in parentheses or not. Whether it exists is not
    asked here. -/
def target : Node → Except RuntimeError Target
  | .symbol name place =>
      if isReserved name then .error ⟨.reservedAssignment name, place⟩ else .ok ⟨name, place⟩
  | .paren expr _ => expr.target
  | .access op _ _ place => .error ⟨.unsupported (.access op), place⟩
  | .call _ _ place => .error ⟨.unsupported .call, place⟩
  | other => .error ⟨.invalidTarget other.text, other.location⟩

/-- The variable that a node names, as a computation. -/
def locate (n : Node) : Eval Target :=
  match n.target with
  | .ok t => return t
  | .error e => throw e

/-- What a prefix operator makes of a value, other than those that change variables
    or make objects. Nothing can be deleted, and `delete` holds all the same. -/
def applyUnary (op : PrefixOp) (v : Value) : Value :=
  match op with
  | .plus => .number v.toNumber
  | .minus => .number v.toNumber.neg
  | .not => .bool !v.isTruthy
  | .complement => .ofBits32 (~~~v.toBits32)
  | .typeof => .string v.typeName
  | .delete => .bool true
  | .void | .step _ | .new => .undefined

mutual

/-- Evaluate a node. Statements have values too: a block that of its last statement,
    an `if` that of the arm taken, and a declaration none. -/
def run : Node → Eval Value
  | .empty _ => return .undefined
  | .block body _ => runAll .undefined body
  | .expression expr _ => expr.run
  | .var declarators _ => do
      declareAll declarators
      return .undefined
  | .chain branches _ => runBranches branches
  | .comma exprs _ => runAll .undefined exprs
  | .paren expr _ => expr.run
  | .prefixed op operand place =>
      match op with
      | .new => throw ⟨.unsupported .construction, place⟩
      | .step s => do
          let (_, new) ← (← operand.locate).step s
          return new
      | op => do return applyUnary op (← operand.run)
  | .postfixed op operand _ => do
      let (old, _) ← (← operand.locate).step op
      return old
  | .binary op lhs rhs place =>
      match op with
      | .and => do
          let left ← lhs.run
          if left.isTruthy then rhs.run else return left
      | .or => do
          let left ← lhs.run
          if left.isTruthy then return left else rhs.run
      | .elvis | .coalesce => do
          let left ← lhs.run
          if left.isNullish then rhs.run else return left
      | .lambda => throw ⟨.unsupported .lambda, place⟩
      -- the target is looked at before the right operand is evaluated
      | .assign none => do
          let slot ← lhs.locate
          slot.write (← rhs.run)
      | .assign (some op) => do
          let slot ← lhs.locate
          let left ← slot.read
          let right ← rhs.run
          slot.write (op.apply left right)
      | .arith op => do
          let left ← lhs.run
          let right ← rhs.run
          return op.apply left right
      | .rel op => do
          let left ← lhs.run
          let right ← rhs.run
          match op.holds? left right with
          | some b => return .bool b
          | none => throw ⟨.notAnObject op right, place⟩
  | .ternary condition yes no _ => do
      if (← condition.run).isTruthy then yes.run else no.run
  | .call callee _ place =>
      throw ⟨.unsupported (if callee.isNew then .construction else .call), place⟩
  | .access op _ _ place => throw ⟨.unsupported (.access op), place⟩
  | .number x _ _ => return .number x
  | .string text _ _ => return .string text
  | .symbol name place =>
      match reserved? name with
      | some v => return v
      | none => Target.read ⟨name, place⟩

/-- Evaluate nodes in order. The value of the last one counts. -/
def runAll (last : Value) : List Node → Eval Value
  | [] => return last
  | n :: rest => do runAll (← n.run) rest

/-- Bind declared names in the innermost scope, each after its value has been
    evaluated. -/
def declareAll : List (Declarator Node) → Eval Unit
  | [] => return ()
  | ⟨name, value, place⟩ :: rest => do
      if isReserved name then throw ⟨.reservedAssignment name, place⟩
      let v ← match value with
        | some n => n.run
        | none => pure .undefined
      modify (·.declare name v)
      declareAll rest

/-- Evaluate the first arm whose condition holds. -/
def runBranches : List (Branch Node) → Eval Value
  | [] => return .undefined
  | ⟨_, condition, body⟩ :: rest => do
      let taken ← match condition with
        | some c => Value.isTruthy <$> c.run
        | none => pure true
      if taken then body.run else runBranches rest

end

end Node

end Scriptlet
