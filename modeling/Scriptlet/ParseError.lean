import Scriptlet.Node.Pieces
import Scriptlet.Token

/-! # Errors of the grammar

An error has a cause, a place, and the token that gave rise to it unless the text
ended there. `ParseError.detail` holds all the wording.
-/

namespace Scriptlet

/-- How deep statements and expressions may be nested. -/
def maxNesting : Nat := 64

/-- What the grammar asks for at some point. -/
inductive Expectation where
  /-- An expression behind the words `after`. -/
  | operand (after : String)
  /-- A name behind the words `after`. -/
  | name (after : String)
  /-- The body of an arm. -/
  | statement (word : BranchWord)
  | blockOpening
  | conditionOpening (word : BranchWord)
  | conditionClosing
  | parenClosing
  | indexClosing
  /-- Another argument, or the end of the arguments. -/
  | argumentEnd
  /-- The second half of a conditional expression. -/
  | colon
  deriving Repr, DecidableEq

namespace Expectation

def text : Expectation → String
  | operand after => "expression after " ++ after
  | name after => "symbol after " ++ after
  | statement word => "statement after '" ++ word.text ++ "'"
  | blockOpening => "'\x7b' to open block"
  | conditionOpening word => "'(' after '" ++ word.text ++ "'"
  | conditionClosing => "')' after condition"
  | parenClosing => "')' to close '('"
  | indexClosing => "']' after index expression"
  | argumentEnd => "',' or ')' in argument list"
  | colon => "':' in conditional expression"

end Expectation

namespace ParseError

/-- Why a text was refused. -/
inductive Cause where
  /-- A token that nothing can begin or go on with. -/
  | unexpected
  | expected (what : Expectation)
  /-- An operator that the language does not have. -/
  | unknownOperator
  /-- A block with neither a statement nor an end. -/
  | unclosedBlock
  /-- Nesting past `maxNesting`. -/
  | tooDeep
  deriving Repr, DecidableEq

end ParseError

/-- Why and where a text was refused. -/
structure ParseError where
  cause : ParseError.Cause
  location : Location
  /-- The token at fault, unless the text ended there. -/
  token : Option Token
  deriving Repr, DecidableEq

namespace ParseError

/-- How messages name the token at fault. -/
def found (e : ParseError) : String :=
  match e.token with
  | some t => t.describe
  | none => "end of input"

/-- The message without its place. -/
def detail (e : ParseError) : String :=
  match e.cause with
  | .unexpected => "unexpected " ++ e.found
  | .expected what => "expected " ++ what.text ++ ", found " ++ e.found
  | .unknownOperator => "unknown operator '" ++ (e.token.elim "" (·.text)) ++ "'"
  | .unclosedBlock => "unexpected end of input inside block"
  | .tooDeep => "nesting deeper than " ++ toString maxNesting ++ " levels"

/-- The whole message. -/
def message (e : ParseError) : String :=
  "Parse error at " ++ e.location.phrase ++ ": " ++ e.detail

end ParseError

end Scriptlet
