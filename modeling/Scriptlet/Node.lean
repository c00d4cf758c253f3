import Scriptlet.Double
import Scriptlet.Location
import Scriptlet.Operator

/-! # Trees

Statements and expressions are nodes of one kind of tree. Every node has a place in
the source: that of its own token, such as the operator of a binary node.
-/

namespace Scriptlet

/-- The words that introduce an arm of an `if` statement. -/
inductive BranchWord where
  | if_
  | elseif
  | elsif
  /-- Two words, spelled `else if`. -/
  | elseIf
  | else_
  deriving Repr, DecidableEq

namespace BranchWord

def text : BranchWord → String
  | if_ => "if"
  | elseif => "elseif"
  | elsif => "elsif"
  | elseIf => "else if"
  | else_ => "else"

end BranchWord

/-- One arm of an `if` statement. An arm without a condition is always taken. -/
structure Branch (α : Type) where
  word : BranchWord
  condition : Option α
  body : α
  deriving Repr, DecidableEq

/-- One name in a `var` statement, with the value it starts with. -/
structure Declarator (α : Type) where
  name : String
  value : Option α
  location : Location
  deriving Repr, DecidableEq

/-- A statement or an expression. -/
inductive Node where
  /-- A semicolon alone. -/
  | empty (location : Location)
  | block (body : List Node) (location : Location)
  /-- An expression as a statement. -/
  | expression (expr : Node) (location : Location)
  | var (declarators : List (Declarator Node)) (location : Location)
  | chain (branches : List (Branch Node)) (location : Location)
  | comma (exprs : List Node) (location : Location)
  | paren (expr : Node) (location : Location)
  | prefixed (op : PrefixOp) (operand : Node) (location : Location)
  | postfixed (op : Step) (operand : Node) (location : Location)
  | binary (op : BinaryOp) (lhs rhs : Node) (location : Location)
  | ternary (condition yes no : Node) (location : Location)
  | call (callee : Node) (args : List Node) (location : Location)
  | access (op : AccessOp) (object property : Node) (location : Location)
  | number (value : Double) (text : String) (location : Location)
  | string (value text : String) (location : Location)
  | symbol (name : String) (location : Location)
  deriving Repr, Inhabited

namespace Node

/-- Where a node's own token stands. -/
def location : Node → Location
  | empty place | block _ place | expression _ place | var _ place | chain _ place
  | comma _ place | paren _ place | prefixed _ _ place | postfixed _ _ place
  | binary _ _ _ place | ternary _ _ _ place | call _ _ place | access _ _ _ place
  | number _ _ place | string _ _ place | symbol _ place => place

/-- How tightly a node holds together, zero being the tightest. -/
def precedence : Node → Nat
  | empty _ | block _ _ | expression _ _ | chain _ _ => Precedence.statement
  | var _ _ => Precedence.declaration
  | comma _ _ => Precedence.comma
  | ternary _ _ _ _ => Precedence.conditional
  | binary op _ _ _ => op.precedence
  | prefixed op _ _ => op.precedence
  | postfixed _ _ _ => Precedence.update
  | call _ _ _ => Precedence.call
  | access _ _ _ _ => Precedence.member
  | paren _ _ | number _ _ _ | string _ _ _ | symbol _ _ => Precedence.atom

/-- Is this a `new` expression? -/
def isNew : Node → Bool
  | prefixed .new _ _ => true
  | _ => false

end Node

end Scriptlet
