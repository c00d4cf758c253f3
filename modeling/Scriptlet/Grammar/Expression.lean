import Scriptlet.Grammar
import Scriptlet.Text.Quoted

/-! # Expressions

From the loosest to the tightest:

    expression  = assignment (',' assignment)*
    assignment  = conditional [assignment-operator assignment]
    conditional = chain ['?' conditional ':' conditional | ('?:' | '??') conditional]
    chain       = operands joined by the operators of `binaryLevels`
    operand     = prefix-operator operand | update
    update      = ('++' | '--') call | call ['++' | '--']
    call        = access (arguments | member)*
    access      = 'new' access | atom member*
    member      = ('.' | '?.' | '->') name | '[' expression ']'
    atom        = '(' expression ')' | number | string | name

In every function `inner` holds the parsers one level of nesting further in. The functions
run in any monad that parsers can be run in, so that other things can be watched while parsing.
-/

namespace Scriptlet.Grammar

open Parse

variable {m : Type → Type} [Monad m] [MonadLiftT Parse m]

/-- The operators that group to the left, those of a level together, the loosest
    level first. -/
def binaryLevels : List (List BinaryOp) :=
  [ [.or],
    [.and],
    [.arith .bitOr],
    [.arith .bitXor],
    [.arith .bitAnd],
    [.rel .eq, .rel .ne, .rel .strictEq, .rel .strictNe],
    [.rel .lt, .rel .le, .rel .gt, .rel .ge, .rel .inside, .rel .instanceOf],
    [.arith .shiftLeft, .arith .shiftRight, .arith .shiftRightZero],
    [.arith .add, .arith .sub],
    [.arith .mul, .arith .div, .arith .rem] ]

/-- An operator, where it stands, and its right operand. -/
abbrev Link := BinaryOp × Location × Node

/-- Join operands from the left. -/
def joinLeft (first : Node) (links : List Link) : Node :=
  links.foldl (fun lhs (op, place, rhs) => .binary op lhs rhs place) first

/-- One of the operators `ops` and the operand behind it. -/
def link (ops : List BinaryOp) (operand : m (Option Node)) : m (Option Link) := do
  let some (op, place) ← takeOneOf BinaryOp.symbol ops | return none
  let rhs ← require ("'" ++ op.symbol ++ "'") operand
  return some (op, place, rhs)

/-- Operands joined by operators of one level. -/
def leftChain (ops : List BinaryOp) (operand : m (Option Node)) : m (Option Node) := do
  let some first ← operand | return none
  return some (joinLeft first (← many (link ops operand)))

/-- Operands joined by operators of all levels that group to the left. -/
def parseChain (inner : Level m) : m (Option Node) :=
  binaryLevels.foldr leftChain inner.operand

/-- A choice between two expressions, or a default for a missing one. -/
def parseConditional (inner : Level m) : m (Option Node) := do
  let some condition ← parseChain inner | return none
  if let some question ← takeOperator "?" then
    let yes ← require "'?'" inner.conditional
    let some _ ← takeOperator ":" | refuseNext (.expected .colon)
    let no ← require "':'" inner.conditional
    return some (.ternary condition yes no question.location)
  let some (op, place, rhs) ← link [.elvis, .coalesce] inner.conditional
    | return some condition
  return some (.binary op condition rhs place)

/-- An assignment, which groups to the right, or an expression without one. -/
def parseAssignment (inner : Level m) : m (Option Node) := do
  let some target ← parseConditional inner | return none
  let some (op, place, rhs) ← link (BinaryOp.assignments ++ [.lambda]) inner.assignment
    | return some target
  return some (.binary op target rhs place)

/-- An assignment behind a comma. A message that misses it says that it belongs behind the words
    `after`. -/
def furtherItem (after : String) (inner : Level m) : m (Option Node) := do
  let some _ ← takeOperator "," | return none
  some <$> require after (parseAssignment inner)

/-- A whole expression. -/
def parseExpression (inner : Level m) : m (Option Node) := do
  let some first ← parseAssignment inner | return none
  match ← many (furtherItem "','" inner) with
  | [] => return some first
  | others => return some (.comma (first :: others) first.location)

/-- Put an expression in parentheses, once. -/
def enclose (place : Location) (n : Node) : Node :=
  match n with
  | .paren _ _ => n
  | n => .paren n place

/-- A literal, a name, or an expression in parentheses. -/
def parseAtom (inner : Level m) : m (Option Node) := do
  let some t ← peek | return none
  if t.isSeparator '(' then
    skip
    let n ← require "'('" (parseExpression inner)
    let _ ← expectSeparator ')' .parenClosing
    return some (enclose t.location n)
  else if t.kind = .number then
    skip
    return some (.number (Numeral.value t.text.toList) t.text t.location)
  else if t.kind = .string then
    skip
    return some (.string (Text.Quoted.decode t.text) t.text t.location)
  else if isName t then
    skip
    return some (.symbol t.text t.location)
  else
    return none

/-- What can follow an object: an access to a member, or arguments. -/
inductive Suffix where
  | member (op : AccessOp) (property : Node) (location : Location)
  | arguments (args : List Node) (location : Location)

/-- Apply what follows an object to it. -/
def Suffix.apply (object : Node) : Suffix → Node
  | member op property place => .access op object property place
  | arguments args place => .call object args place

/-- Apply all that follows an object. -/
def applyAll (object : Node) (suffixes : List Suffix) : Node :=
  suffixes.foldl Suffix.apply object

/-- The next token as the beginning of an access. -/
def peekAccess : Parse (Option AccessOp) := do
  let some t ← peek | return none
  if t.kind = .operator || t.kind = .separator then return AccessOp.ofSymbol? t.text
  else return none

/-- The name behind the operator of an access. A token that is none is taken all the
    same. -/
def memberName (op : AccessOp) : Parse Node := do
  match ← next with
  | some t =>
      if isName t then return .symbol t.text t.location
      else failAt (.expected (.name ("'" ++ op.symbol ++ "'"))) (some t)
  | none => failAt (.expected (.name ("'" ++ op.symbol ++ "'"))) none

/-- An access to a member. -/
def parseMember (inner : Level m) : m (Option Suffix) := do
  let some op ← peekAccess | return none
  let place ← here
  skip
  if op = .index then
    let n ← require "'['" (parseExpression inner)
    let _ ← expectSeparator ']' .indexClosing
    return some (.member op n place)
  else
    return some (.member op (← memberName op) place)

/-- An operand of `new`: an atom and its members, or another `new`. -/
def parseAccess (inner : Level m) : m (Option Node) := do
  if let some word ← takeSymbol "new" then
    let operand ← require "'new'" inner.access
    return some (.prefixed .new operand word.location)
  let some first ← parseAtom inner | return none
  return some (applyAll first (← many (parseMember inner)))

/-- Arguments, through the closing parenthesis. -/
def parseArguments (inner : Level m) : m (List Node) := do
  if let some _ ← takeSeparator ')' then return []
  let first ← require "'(' or ','" (parseAssignment inner)
  let others ← many (furtherItem "'(' or ','" inner)
  let some _ ← takeSeparator ')' | refuseNext (.expected .argumentEnd)
  return first :: others

/-- Arguments in parentheses, or an access to a member. -/
def parseSuffix (inner : Level m) : m (Option Suffix) := do
  let some opening ← takeSeparator '(' | parseMember inner
  return some (.arguments (← parseArguments inner) opening.location)

/-- An object with its calls and members. -/
def parseCall (inner : Level m) : m (Option Node) := do
  let some first ← parseAccess inner | return none
  return some (applyAll first (← many (parseSuffix inner)))

/-- A step up or down, if one comes next, and where it stands. -/
def takeStep : Parse (Option (Step × Location)) := do
  let some t ← takeIf fun t => t.kind = .operator && (Step.ofSymbol? t.text).isSome
    | return none
  return (Step.ofSymbol? t.text).map (·, t.location)

/-- A call with a step before or behind it. -/
def parseUpdate (inner : Level m) : m (Option Node) := do
  if let some (op, place) ← takeOneOf PrefixOp.symbol PrefixOp.steps then
    let operand ← require ("'" ++ op.symbol ++ "'") (parseCall inner)
    return some (.prefixed op operand place)
  let some operand ← parseCall inner | return none
  let some (op, place) ← takeStep | return some operand
  return some (.postfixed op operand place)

/-- An operand of a binary operator, with the operators before it. -/
def parseOperand (inner : Level m) : m (Option Node) := do
  let some (op, place) ← takeOneOf PrefixOp.symbol PrefixOp.unary | parseUpdate inner
  let operand ← require ("'" ++ op.symbol ++ "'") inner.operand
  return some (.prefixed op operand place)

end Scriptlet.Grammar
