import Scriptlet.Eval
import Scriptlet.Grammar.Statement

/-! # Running texts

A text is parsed and run statement by statement, each statement before the next one is
parsed. `evaluate` stops at the first failure; `runAll` reports on every statement and
goes on behind a fault in the text.
-/

namespace Scriptlet

/-- Why a statement did not run to its end. -/
inductive EvalError where
  | parse (e : ParseError)
  | runtime (e : RuntimeError)
  deriving Repr, DecidableEq

namespace EvalError

def location : EvalError → Location
  | parse e => e.location
  | runtime e => e.location

/-- The message of the error alone. -/
def causeMessage : EvalError → String
  | parse e => e.message
  | runtime e => e.message

/-- The message, which says so if the text was parsed but failed to run. -/
def message : EvalError → String
  | parse e => e.message
  | runtime e => "Runtime error: " ++ e.message

/-- The message behind the name of the text and the place in it. A text without a name
    has the message alone. -/
def diagnostic (e : EvalError) (name : Option String) : String :=
  match name with
  | some name => name ++ ":" ++ e.location.text ++ ": " ++ e.message
  | none => e.message

end EvalError

/-- What became of one statement. -/
structure Outcome where
  /-- The statement, if it could be parsed. -/
  statement : Option Node
  result : Except EvalError Value

namespace Outcome

def isOk (o : Outcome) : Bool :=
  o.result.isOk

/-- A statement that could not be parsed. -/
def refused (e : ParseError) : Outcome :=
  ⟨none, .error (.parse e)⟩

/-- A statement that was run. -/
def ran (n : Node) (result : Except RuntimeError Value) : Outcome :=
  ⟨some n, result.mapError .runtime⟩

end Outcome

/-- Run a node: its value or error, and the variables afterwards. -/
def Node.execute (n : Node) (env : Environment) : Except RuntimeError Value × Environment :=
  match n.run env with
  | .ok v env => (.ok v, env)
  | .error e env => (.error e, env)

namespace Tokens

/-- Run up to `limit` statements and stop at the first failure. The value is that of the
    last statement, or `last` if there is none. -/
def evaluateUpTo (limit : Nat) (last : Value) (ts : Tokens) (env : Environment) :
    Except EvalError Value × Environment :=
  match limit with
  | 0 => (.ok last, env)
  | limit + 1 =>
      match Parse.statement ts with
      | .error e _ => (.error (.parse e), env)
      | .ok none rest =>
          match Parse.expectEnd rest with
          | .ok _ _ => (.ok last, env)
          | .error e _ => (.error (.parse e), env)
      | .ok (some n) rest =>
          match n.execute env with
          | (.ok v, env) => evaluateUpTo limit v rest env
          | (.error e, env) => (.error (.runtime e), env)

/-- Run all statements and stop at the first failure. Every statement takes up a token,
    so the number of tokens limits them. -/
def evaluate (ts : Tokens) (env : Environment) : Except EvalError Value × Environment :=
  ts.evaluateUpTo (ts.pending.length + 1) .undefined env

/-- Run up to `limit` statements, whether they fail or not. -/
def runUpTo (limit : Nat) (ts : Tokens) (env : Environment) :
    List Outcome × Tokens × Environment :=
  match limit with
  | 0 => ([], ts, env)
  | limit + 1 =>
      match Parse.statement ts with
      | .ok (some n) rest =>
          let (result, env) := n.execute env
          let (outcomes, last) := runUpTo limit rest env
          (.ran n result :: outcomes, last)
      | .ok none rest =>
          -- a closing brace that closes nothing is refused and left behind
          match Parse.expectEnd rest with
          | .ok _ rest => ([], rest, env)
          | .error e rest =>
              let (outcomes, last) := runUpTo limit rest env
              (.refused e :: outcomes, last)
      | .error e rest =>
          let (outcomes, last) := runUpTo limit rest.synchronize env
          (.refused e :: outcomes, last)

/-- Run all statements, whether they fail or not. Every outcome takes up a token, so the
    number of tokens limits them. -/
def runAll (ts : Tokens) (env : Environment) : List Outcome × Tokens × Environment :=
  ts.runUpTo (ts.pending.length + 1) env

end Tokens

namespace Environment

/-- Parse and run a text, up to the first failure. -/
def evaluate (env : Environment) (source : Source) : Except EvalError Value × Environment :=
  (Tokens.ofSource source).evaluate env

/-- Parse and run a text, and report on every statement. -/
def run (env : Environment) (source : Source) : List Outcome × Environment :=
  let (outcomes, _, env) := (Tokens.ofSource source).runAll env
  (outcomes, env)

end Environment

end Scriptlet
