import Scriptlet.Grammar.Expression

/-! # Statements

    statement = ';' | block | var | if | expression [';']
    block     = '{' statement* '}'
    var       = 'var' declarator (',' declarator)* [';']
    if        = 'if' arm (('elseif' | 'elsif' | 'else' 'if') arm)* ['else' statement]
    arm       = '(' expression ')' statement

The language itself is the outermost level of nesting.
-/

namespace Scriptlet.Grammar

open Parse

variable {m : Type → Type} [Monad m] [MonadLiftT Parse m]

/-- Statements in braces. The closing brace may be missing at the end of the text,
    unless the block is empty. -/
def parseBlock (inner : Level m) : m Node := do
  let opening ← expectSeparator '\x7b' .blockOpening
  let body ← many inner.statement
  if (← takeSeparator '\x7d').isNone && body.isEmpty then failAt .unclosedBlock none
  return .block body opening.location

/-- A declared name and the value it starts with. -/
def parseDeclarator (inner : Level m) : m (Declarator Node) := do
  let some t ← takeIf isName
    | failAt (.expected (.name "'var'")) (← peek)
  if let some _ ← takeOperator "=" then
    let value ← require ("'" ++ t.text ++ " ='") (parseAssignment inner)
    return ⟨t.text, some value, t.location⟩
  return ⟨t.text, none, t.location⟩

/-- Another declared name. A comma at the very end of the text is not taken. -/
def furtherDeclarator (inner : Level m) : m (Option (Declarator Node)) := do
  let (some t, some _) ← peekTwo | return none
  if t.isOperator "," then
    skip
    some <$> parseDeclarator inner
  else return none

/-- Declarations, from the word `var` on. -/
def parseVar (inner : Level m) : m Node := do
  let place ← here
  skip
  let first ← parseDeclarator inner
  let others ← many (furtherDeclarator inner)
  let _ ← takeSeparator ';'
  return .var (first :: others) place

/-- The statement of an arm. -/
def parseBody (inner : Level m) (word : BranchWord) : m Node := do
  match ← inner.statement with
  | some n => return n
  | none => refuseNext (.expected (.statement word))

/-- A condition and the statement it governs. -/
def parseArm (inner : Level m) (word : BranchWord) : m (Branch Node) := do
  let _ ← expectSeparator '(' (.conditionOpening word)
  let condition ← require "'('" (parseExpression inner)
  let _ ← expectSeparator ')' .conditionClosing
  return ⟨word, some condition, ← parseBody inner word⟩

/-- Another arm with a condition. -/
def furtherArm (inner : Level m) : m (Option (Branch Node)) := do
  let (some t, after) ← peekTwo | return none
  if t.isSymbol "elseif" then
    skip
    some <$> parseArm inner .elseif
  else if t.isSymbol "elsif" then
    skip
    some <$> parseArm inner .elsif
  else if t.isSymbol "else" && after.any (·.isSymbol "if") then
    skip
    skip
    some <$> parseArm inner .elseIf
  else return none

/-- The last arm, without a condition. -/
def lastArm (inner : Level m) : m (List (Branch Node)) := do
  let some _ ← takeSymbol "else" | return []
  return [⟨.else_, none, ← parseBody inner .else_⟩]

/-- A chain of arms, from the word `if` on. -/
def parseIf (inner : Level m) : m Node := do
  let place ← here
  skip
  let first ← parseArm inner .if_
  let others ← many (furtherArm inner)
  let last ← lastArm inner
  return .chain (first :: others ++ last) place

/-- An expression and the semicolon that may end it. No operator can follow, nor a
    character that has no place in the language. -/
def parseExpressionStatement (inner : Level m) : m Node := do
  let place ← here
  let some expr ← parseExpression inner | refuseNext .unexpected
  if (← peek).any fun t => t.kind = .operator || t.kind = .other then refuseNext .unexpected
  let _ ← takeSeparator ';'
  return .expression expr place

/-- A statement. There is none at the end of the text or before a closing brace. -/
def parseStatement (inner : Level m) : m (Option Node) := do
  let some t ← peek | return none
  if t.isSeparator '\x7d' then return none
  else if t.isSeparator ';' then
    skip
    return some (.empty t.location)
  else if t.isSeparator '\x7b' then some <$> parseBlock inner
  else if t.isSymbol "var" then some <$> parseVar inner
  else if t.isSymbol "if" then some <$> parseIf inner
  else some <$> parseExpressionStatement inner

/-- The level around `inner`. -/
def around (inner : Level m) : Level m where
  statement := parseStatement inner
  assignment := parseAssignment inner
  conditional := parseConditional inner
  operand := parseOperand inner
  access := parseAccess inner

/-- The level inside which `levels` further levels are open to nesting. -/
def within : Nat → Grammar
  | 0 => exhausted
  | levels + 1 => around (within levels)

/-- What the outermost level nests. -/
def nested : Grammar := within maxNesting

end Scriptlet.Grammar

namespace Scriptlet.Parse

/-- A statement, unless the text ends or a brace closes. -/
def statement : Parse (Option Node) :=
  Grammar.parseStatement Grammar.nested

/-- A block. -/
def block : Parse Node :=
  Grammar.parseBlock Grammar.nested

/-- Insist on the end of the text. A token found instead is taken. -/
def expectEnd : Parse Unit := do
  match ← next with
  | some t => refuse .unexpected (some t)
  | none => return ()

/-- All statements up to the end of the text. -/
def program : Parse Program := do
  let statements ← many statement
  expectEnd
  return statements

end Scriptlet.Parse

namespace Scriptlet.Tokens

/-- The tokens behind the next semicolon or closing brace. -/
def afterStatement : List Token → List Token
  | [] => []
  | t :: rest =>
      if t.isSeparator ';' || t.isSeparator '\x7d' then rest else afterStatement rest

/-- Go on behind the next semicolon or closing brace, after an error. -/
def synchronize (ts : Tokens) : Tokens :=
  { ts with pending := afterStatement ts.pending }

end Scriptlet.Tokens
