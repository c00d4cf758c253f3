import Scriptlet.ParseError

/-! # Parsers over a row of tokens

A parser takes tokens off the front of a row. When it fails, the tokens it did not
take are still there, so that parsing can go on behind the fault.
-/

namespace Scriptlet

/-- The tokens still to be parsed. -/
structure Tokens where
  pending : List Token
  /-- Where the text ends. -/
  stop : Location
  deriving Repr, DecidableEq

/-- All tokens of a source. -/
def Tokens.ofSource (s : Source) : Tokens :=
  let (pending, last) := s.tokens
  { pending, stop := last.location }

/-- A parser of `α`. -/
abbrev Parse (α : Type) := EStateM ParseError Tokens α

namespace Parse

/-- Look at the next token. -/
def peek : Parse (Option Token) :=
  return (← get).pending.head?

/-- Look at the next two tokens. -/
def peekTwo : Parse (Option Token × Option Token) :=
  return ((← get).pending[0]?, (← get).pending[1]?)

/-- Take the next token, if there is one. -/
def next : Parse (Option Token) :=
  modifyGet fun ts =>
    match ts.pending with
    | t :: rest => (some t, { ts with pending := rest })
    | [] => (none, ts)

/-- Take a token that was looked at before. -/
def skip : Parse Unit :=
  discard next

/-- Where the next token stands, or where the text ends. -/
def here : Parse Location := do
  let ts ← get
  return (ts.pending.head?.map (·.location)).getD ts.stop

/-- Take the next token if it passes `test`. -/
def takeIf (test : Token → Bool) : Parse (Option Token) := do
  match ← peek with
  | some t => if test t then next else return none
  | none => return none

/-- Take the separator `c`, if it comes next. -/
def takeSeparator (c : Char) : Parse (Option Token) :=
  takeIf (·.isSeparator c)

/-- Take the operator `text`, if it comes next. -/
def takeOperator (text : String) : Parse (Option Token) :=
  takeIf (·.isOperator text)

/-- Take the symbol `text`, if it comes next. -/
def takeSymbol (text : String) : Parse (Option Token) :=
  takeIf (·.isSymbol text)

/-- Is this a name, and no keyword? -/
def isName (t : Token) : Bool :=
  t.kind = .symbol && !isKeyword t.text

/-- An operator that the language does not have is the fault itself, whatever was
    asked for in its place. -/
def isUnknownOperator (t : Token) : Bool :=
  t.kind = .operator && !isKnownOperator t.text

/-- Fail at a token, or at the end of the text. -/
def failAt {α : Type} (cause : ParseError.Cause) (found : Option Token) : Parse α := do
  match found with
  | some t => throw ⟨cause, t.location, some t⟩
  | none => throw ⟨cause, ← here, none⟩

/-- Fail because of a token, or of the end of the text. -/
def refuse {α : Type} (cause : ParseError.Cause) (found : Option Token) : Parse α :=
  failAt (if found.any isUnknownOperator then .unknownOperator else cause) found

/-- Fail because of the next token, which stays. -/
def refuseNext {α : Type} (cause : ParseError.Cause) : Parse α := do
  refuse cause (← peek)

/-- Fail because the nesting is too deep. -/
def tooDeep {α : Type} : Parse α :=
  failAt .tooDeep none

/-- Take the separator `c`, or fail because it is missing. -/
def expectSeparator (c : Char) (what : Expectation) : Parse Token := do
  match ← takeSeparator c with
  | some t => return t
  | none => refuseNext (.expected what)

/-- One of the operators `ops`, if it comes next, and where it stands. Operators may
    be spelled with letters. -/
def takeOneOf {α : Type} (symbol : α → String) (ops : List α) : Parse (Option (α × Location)) := do
  match ← peek with
  | some t =>
      if t.kind = .operator || t.kind = .symbol then
        match ops.find? (symbol · == t.text) with
        | some op => do
            skip
            return some (op, t.location)
        | none => return none
      else return none
  | none => return none

/-! ## Parsers of other parsers

These run in any monad that parsers can be run in.
-/

section

variable {m : Type → Type} [Monad m] [MonadLiftT Parse m]

/-- Insist on an expression behind the words `after`. -/
def require (after : String) (p : m (Option Node)) : m Node := do
  match ← p with
  | some n => return n
  | none => refuseNext (.expected (.operand after))

/-- Collect what `step` finds, until it finds nothing, `limit` times at most. -/
def manyUpTo {α : Type} (step : m (Option α)) : Nat → m (List α)
  | 0 => return []
  | limit + 1 => do
      match ← step with
      | some a => return a :: (← manyUpTo step limit)
      | none => return []

/-- Collect what `step` finds, until it finds nothing. Whatever it finds takes up a
    token, so the number of tokens limits the rounds; they are counted only once
    something was found. -/
def many {α : Type} (step : m (Option α)) : m (List α) := do
  match ← step with
  | some a => return a :: (← manyUpTo step ((← (get : Parse Tokens)).pending.length + 1))
  | none => return []

end

end Parse

end Scriptlet
