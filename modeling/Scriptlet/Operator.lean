import Scriptlet.Lexeme

/-! # Operators

The operators of the language, how they are spelled and how tightly they bind. A
smaller precedence binds tighter. Operators that compute a value of two numbers can
also be joined with an assignment.
-/

namespace Scriptlet

namespace Precedence

def atom : Nat := 0
def member : Nat := 10
def call : Nat := 20
def update : Nat := 30
def unary : Nat := 40
def conditional : Nat := 150
def assignment : Nat := 170
def comma : Nat := 180
def declaration : Nat := 190
def statement : Nat := 200

end Precedence

/-- Operators that compute a number, or join strings. -/
inductive ArithOp where
  | mul
  | div
  | rem
  | add
  | sub
  | shiftLeft
  | shiftRight
  /-- Shift to the right, filling up with zeros. -/
  | shiftRightZero
  | bitAnd
  | bitXor
  | bitOr
  deriving Repr, DecidableEq

/-- Operators that compare. -/
inductive RelOp where
  | lt
  | le
  | gt
  | ge
  | inside
  | instanceOf
  | eq
  | ne
  | strictEq
  | strictNe
  deriving Repr, DecidableEq

/-- Operators between two operands. -/
inductive BinaryOp where
  | arith (op : ArithOp)
  | rel (op : RelOp)
  | and
  | or
  /-- The left operand unless it is `null` or `undefined`, spelled `?:`. -/
  | elvis
  /-- The same, spelled `??`. -/
  | coalesce
  /-- Assignment, of the right operand or of what `op` makes of both. -/
  | assign (op : Option ArithOp)
  | lambda
  deriving Repr, DecidableEq

/-- A step up or down by one. -/
inductive Step where
  | increment
  | decrement
  deriving Repr, DecidableEq

/-- Operators in front of their operand. -/
inductive PrefixOp where
  | step (step : Step)
  | plus
  | minus
  | not
  | complement
  | new
  | typeof
  | void
  | delete
  deriving Repr, DecidableEq

/-- Ways to reach a member of an object. -/
inductive AccessOp where
  | dot
  /-- Only if there is an object, spelled `?.`. -/
  | optional
  | index
  | arrow
  deriving Repr, DecidableEq

namespace ArithOp

def all : List ArithOp :=
  [.mul, .div, .rem, .add, .sub, .shiftLeft, .shiftRight, .shiftRightZero, .bitAnd, .bitXor,
    .bitOr]

def symbol : ArithOp → String
  | mul => "*"
  | div => "/"
  | rem => "%"
  | add => "+"
  | sub => "-"
  | shiftLeft => "<<"
  | shiftRight => ">>"
  | shiftRightZero => ">>>"
  | bitAnd => "&"
  | bitXor => "^"
  | bitOr => "|"

def precedence : ArithOp → Nat
  | mul | div | rem => 50
  | add | sub => 60
  | shiftLeft | shiftRight | shiftRightZero => 70
  | bitAnd => 100
  | bitXor => 110
  | bitOr => 120

end ArithOp

namespace RelOp

def all : List RelOp :=
  [.lt, .le, .gt, .ge, .inside, .instanceOf, .eq, .ne, .strictEq, .strictNe]

def symbol : RelOp → String
  | lt => "<"
  | le => "<="
  | gt => ">"
  | ge => ">="
  | inside => "in"
  | instanceOf => "instanceof"
  | eq => "=="
  | ne => "!="
  | strictEq => "==="
  | strictNe => "!=="

def precedence : RelOp → Nat
  | lt | le | gt | ge | inside | instanceOf => 80
  | eq | ne | strictEq | strictNe => 90

end RelOp

namespace BinaryOp

/-- Assignment alone, and joined with each operator that allows it. -/
def assignments : List BinaryOp :=
  .assign none :: ArithOp.all.map fun op => .assign (some op)

def all : List BinaryOp :=
  ArithOp.all.map .arith ++ RelOp.all.map .rel ++ [.and, .or, .elvis, .coalesce] ++
    assignments ++ [.lambda]

def symbol : BinaryOp → String
  | arith op => op.symbol
  | rel op => op.symbol
  | and => "&&"
  | or => "||"
  | elvis => "?:"
  | coalesce => "??"
  | assign none => "="
  | assign (some op) => op.symbol ++ "="
  | lambda => "=>"

def ofSymbol? (text : String) : Option BinaryOp :=
  all.find? (·.symbol == text)

def precedence : BinaryOp → Nat
  | arith op => op.precedence
  | rel op => op.precedence
  | and => 130
  | or => 140
  | elvis | coalesce => Precedence.conditional
  | assign _ | lambda => Precedence.assignment

def isAssignment : BinaryOp → Bool
  | assign _ => true
  | _ => false

/-- Does `a op b op c` mean `a op (b op c)`? -/
def isRightAssociative : BinaryOp → Bool
  | elvis | coalesce | assign _ | lambda => true
  | arith _ | rel _ | and | or => false

/-- The operator that a joined assignment applies. -/
def compoundBase? : BinaryOp → Option BinaryOp
  | assign (some op) => some (.arith op)
  | _ => none

end BinaryOp

namespace Step

def symbol : Step → String
  | increment => "++"
  | decrement => "--"

def all : List Step := [.increment, .decrement]

def ofSymbol? (text : String) : Option Step :=
  all.find? (·.symbol == text)

end Step

namespace PrefixOp

/-- The operators that stand in front of an operand that may begin with such an
    operator itself. -/
def unary : List PrefixOp :=
  [.plus, .minus, .not, .complement, .typeof, .void, .delete]

/-- The operators that change a variable. -/
def steps : List PrefixOp := Step.all.map .step

def all : List PrefixOp := steps ++ unary ++ [.new]

def symbol : PrefixOp → String
  | step s => s.symbol
  | plus => "+"
  | minus => "-"
  | not => "!"
  | complement => "~"
  | new => "new"
  | typeof => "typeof"
  | void => "void"
  | delete => "delete"

def ofSymbol? (text : String) : Option PrefixOp :=
  all.find? (·.symbol == text)

def precedence : PrefixOp → Nat
  | new => Precedence.member
  | step _ => Precedence.update
  | _ => Precedence.unary

/-- The loosest operand that needs no parentheses. -/
def operandLimit : PrefixOp → Nat
  | new => Precedence.member
  | step _ => Precedence.call
  | _ => Precedence.unary

end PrefixOp

namespace AccessOp

def all : List AccessOp := [.dot, .optional, .index, .arrow]

def symbol : AccessOp → String
  | dot => "."
  | optional => "?."
  | index => "["
  | arrow => "->"

def ofSymbol? (text : String) : Option AccessOp :=
  all.find? (·.symbol == text)

end AccessOp

/-- Operators that are spelled with letters are lexemes of the same class as
    names. -/
def operatorLexeme (symbol : String) : Lexeme :=
  if symbol.toList.head?.any Char.isAlpha then .symbol symbol else .operator symbol

/-- Is `text` an operator of the language, or a part of one? -/
def isKnownOperator (text : String) : Bool :=
  text == "?" || text == ":" || text == "," || (BinaryOp.ofSymbol? text).isSome ||
    (PrefixOp.ofSymbol? text).isSome || (Step.ofSymbol? text).isSome ||
    (AccessOp.ofSymbol? text).isSome

/-- Symbols that are never names. -/
def keywords : List String :=
  ["var", "if", "else", "elseif", "elsif", "new", "typeof", "void", "delete", "in", "instanceof"]

def isKeyword (text : String) : Bool :=
  keywords.contains text

end Scriptlet
