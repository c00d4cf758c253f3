import Scriptlet.Decimal.Layout
import Scriptlet.Node
import Scriptlet.Text.Escaped

/-! # Outlines of trees

An outline shows a tree over many lines, one part on a line, each part further in than
what it belongs to.
-/

namespace Scriptlet

/-- Something laid out over lines. -/
inductive Outline where
  | leaf (text : String)
  | record (name : String) (fields : List (String × Outline))
  /-- Something that might be missing, and is there. -/
  | present (inner : Outline)
  | list (items : List Outline)

namespace Outline

/-- Something that is missing. -/
def absent : Outline := leaf "None"

/-- A text, in quotes. -/
def text (s : String) : Outline := leaf (Text.Escaped.write s)

def natural (n : Nat) : Outline := leaf (toString n)

/-- The margin of the parts of something with the margin `margin`. -/
def inward (margin : String) : String := margin ++ "    "

/-- One part on lines of its own. -/
def part (margin text : String) : String := margin ++ text ++ ",\n"

mutual

/-- Write an outline whose first line is begun already and whose other lines begin with
    `margin`. -/
def write (margin : String) : Outline → String
  | leaf text => text
  | record name fields =>
      name ++ " \x7b\n" ++ writeFields (inward margin) fields ++ margin ++ "\x7d"
  | present inner =>
      "Some(\n" ++ part (inward margin) (inner.write (inward margin)) ++ margin ++ ")"
  | list items =>
      if items.isEmpty then "[]"
      else "[\n" ++ writeItems (inward margin) items ++ margin ++ "]"

/-- Write parts with their names. -/
def writeFields (margin : String) : List (String × Outline) → String
  | [] => ""
  | (name, field) :: rest =>
      part margin (name ++ ": " ++ field.write margin) ++ writeFields margin rest

/-- Write parts without names. -/
def writeItems (margin : String) : List Outline → String
  | [] => ""
  | item :: rest => part margin (item.write margin) ++ writeItems margin rest

end

end Outline

def Location.outline (place : Location) : Outline :=
  .record "SourceLocation" [("line", .natural place.line), ("column", .natural place.column)]

/-! ## Names of operators -/

def ArithOp.label : ArithOp → String
  | mul => "Mul"
  | div => "Div"
  | rem => "Mod"
  | add => "Add"
  | sub => "Sub"
  | shiftLeft => "Shl"
  | shiftRight => "Shr"
  | shiftRightZero => "UShr"
  | bitAnd => "BitAnd"
  | bitXor => "BitXor"
  | bitOr => "BitOr"

def RelOp.label : RelOp → String
  | lt => "Lt"
  | le => "Le"
  | gt => "Gt"
  | ge => "Ge"
  | inside => "In"
  | instanceOf => "Instanceof"
  | eq => "Eq"
  | ne => "Ne"
  | strictEq => "StrictEq"
  | strictNe => "StrictNe"

def BinaryOp.label : BinaryOp → String
  | arith op => op.label
  | rel op => op.label
  | and => "And"
  | or => "Or"
  | elvis => "Elvis"
  | coalesce => "NullishCoalesce"
  | assign none => "Assign"
  | assign (some op) => op.label ++ "Assign"
  | lambda => "Lambda"

def Step.label : Step → String
  | increment => "Inc"
  | decrement => "Dec"

def PrefixOp.label : PrefixOp → String
  | step s => "Pre" ++ s.label
  | plus => "Plus"
  | minus => "Minus"
  | not => "Not"
  | complement => "BitNot"
  | new => "New"
  | typeof => "Typeof"
  | void => "Void"
  | delete => "Delete"

def AccessOp.label : AccessOp → String
  | dot => "Dot"
  | optional => "WeakDot"
  | index => "Index"
  | arrow => "ThinArrow"

def BranchWord.label : BranchWord → String
  | if_ => "If"
  | elseif => "ElseIf"
  | elsif => "Elsif"
  | elseIf => "ElseSpaceIf"
  | else_ => "Else"

/-! ## Nodes -/

namespace Node

/-- A node: what it consists of, and behind that its place. -/
def record (name : String) (fields : List (String × Outline)) (place : Location) : Outline :=
  .record name (fields ++ [("location", place.outline)])

mutual

/-- The outline of a node. -/
def outline : Node → Outline
  | empty place => record "Empty" [] place
  | block body place => record "Block" [("statements", .list (outlines body))] place
  | expression expr place => record "ExpressionStatement" [("expr", expr.outline)] place
  | var declarators place =>
      record "Var" [("declarations", .list (declaratorOutlines declarators))] place
  | chain branches place => record "If" [("branches", .list (branchOutlines branches))] place
  | comma exprs place => record "Comma" [("exprs", .list (outlines exprs))] place
  | paren expr place => record "Paren" [("expr", expr.outline)] place
  | prefixed op operand place =>
      record "Prefix" [("op", .leaf op.label), ("operand", operand.outline)] place
  | postfixed op operand place =>
      record "Postfix" [("op", .leaf ("Post" ++ op.label)), ("operand", operand.outline)] place
  | binary op lhs rhs place =>
      record "Binary" [("op", .leaf op.label), ("lhs", lhs.outline), ("rhs", rhs.outline)] place
  | ternary condition yes no place =>
      record "Ternary" [("condition", condition.outline), ("then_branch", yes.outline),
        ("else_branch", no.outline)] place
  | call callee args place =>
      record "Call" [("callee", callee.outline), ("args", .list (outlines args))] place
  | access op object property place =>
      record "Access" [("op", .leaf op.label), ("object", object.outline),
        ("property", property.outline)] place
  | number value text place =>
      record "Number" [("value", .leaf (Layout.detailed.write value)), ("text", .text text)] place
  | string value text place =>
      record "Str" [("value", .text value), ("text", .text text)] place
  | symbol name place => record "Symbol" [("name", .text name)] place

/-- The outlines of nodes. -/
def outlines : List Node → List Outline
  | [] => []
  | n :: rest => n.outline :: outlines rest

/-- The outlines of declared names. -/
def declaratorOutlines : List (Declarator Node) → List Outline
  | [] => []
  | ⟨name, value, place⟩ :: rest =>
      let start : Outline :=
        match value with
        | some v => .present v.outline
        | none => .absent
      record "VarDeclarator" [("name", .text name), ("init", start)] place ::
        declaratorOutlines rest

/-- The outlines of the arms of an `if` statement. -/
def branchOutlines : List (Branch Node) → List Outline
  | [] => []
  | ⟨word, condition, body⟩ :: rest =>
      let test : Outline :=
        match condition with
        | some c => .present c.outline
        | none => .absent
      .record "IfBranch" [("keyword", .leaf word.label), ("condition", test),
        ("body", body.outline)] :: branchOutlines rest

end

/-- The outline of a node as text. -/
def outlineText (n : Node) : String :=
  n.outline.write ""

end Node

end Scriptlet
