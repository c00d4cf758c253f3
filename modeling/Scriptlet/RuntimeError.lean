import Scriptlet.Location
import Scriptlet.Operator
import Scriptlet.Value

/-! # Errors of evaluation

An error has a cause and the place of the node that gave rise to it.
`RuntimeError.message` holds the wording.
-/

namespace Scriptlet

/-- What can be written, but not be evaluated. -/
inductive Feature where
  | call
  | construction
  | access (op : AccessOp)
  | lambda
  deriving Repr, DecidableEq

namespace Feature

def text : Feature → String
  | call => "function call"
  | construction => "object construction"
  | access .dot => "member access"
  | access .optional => "optional member access"
  | access .index => "index access"
  | access .arrow => "arrow member access"
  | lambda => "lambda"

end Feature

namespace RuntimeError

/-- Why a node has no value. -/
inductive Cause where
  /-- A name that no scope binds. -/
  | undefinedVariable (name : String)
  /-- A name with a fixed meaning, used as a variable. -/
  | reservedAssignment (name : String)
  | unsupported (feature : Feature)
  /-- A value where only an object would do. -/
  | notAnObject (op : RelOp) (value : Value)
  /-- Something written where a variable has to stand. -/
  | invalidTarget (written : String)
  deriving Repr, DecidableEq

end RuntimeError

/-- Why and where evaluation failed. -/
structure RuntimeError where
  cause : RuntimeError.Cause
  location : Location
  deriving Repr, DecidableEq

namespace RuntimeError

/-- The name, the feature or the sentence at the heart of the message. -/
def detail (e : RuntimeError) : String :=
  match e.cause with
  | .undefinedVariable name => name
  | .reservedAssignment name => name
  | .unsupported feature => feature.text
  | .notAnObject op value =>
      "right-hand side of '" ++ op.symbol ++ "' is not an object: " ++ value.inspect
  | .invalidTarget written => "invalid assignment target '" ++ written ++ "'"

/-- The whole message. -/
def message (e : RuntimeError) : String :=
  let place := e.location.phrase
  match e.cause with
  | .undefinedVariable _ => "Symbol '" ++ e.detail ++ "' not found at " ++ place
  | .reservedAssignment _ =>
      "Cannot assign to reserved keyword '" ++ e.detail ++ "' at " ++ place
  | .unsupported _ => e.detail ++ " not supported at " ++ place
  | .notAnObject _ _ | .invalidTarget _ => "Type error at " ++ place ++ ": " ++ e.detail

end RuntimeError

end Scriptlet
