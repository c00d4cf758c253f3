import Scriptlet.Grammar.Statement

/-! # Parsing with a counter

Levels limit how deep parsers are nested in one another. Here the parsers call each other
directly, and a counter beside the tokens says how deep the parser is nested. Where nesting
begins it goes up by one, and behind that it goes down again. The productions are the same.
-/

namespace Scriptlet

/-- The tokens still to be parsed, and how deep the parser is nested. -/
structure Counter where
  tokens : Tokens
  depth : Nat
  deriving Repr, DecidableEq

/-- A parser of `α` with a counter. -/
abbrev Counted (α : Type) := EStateM ParseError Counter α

namespace Counted

variable {α : Type}

/-- A parser that has nothing to do with the counter. -/
def lift (p : Parse α) : Counted α := fun s =>
  match p s.tokens with
  | .ok a ts => .ok a { s with tokens := ts }
  | .error e ts => .error e { s with tokens := ts }

instance : MonadLift Parse Counted := ⟨lift⟩

/-- Run a parser one level deeper, unless that is too deep. -/
def nested (p : Counted α) : Counted α := fun s =>
  if s.depth ≥ maxNesting then lift Parse.tooDeep s
  else
    match p { s with depth := s.depth + 1 } with
    | .ok a s' => .ok a { s' with depth := s'.depth - 1 }
    | .error e s' => .error e { s' with depth := s'.depth - 1 }

/-- The parsers, one level deeper, when they call `inner`. -/
def around (inner : Level Counted) : Level Counted where
  statement := nested (Grammar.parseStatement inner)
  assignment := nested (Grammar.parseAssignment inner)
  conditional := nested (Grammar.parseConditional inner)
  operand := nested (Grammar.parseOperand inner)
  access := nested (Grammar.parseAccess inner)

/-- So many calls inside one another, and nothing inside them. -/
def rounds : Nat → Level Counted
  | 0 => Grammar.exhausted
  | calls + 1 => around (rounds calls)

/-- The parsers as they call each other. The counter stops them before the rounds run out. -/
def inner : Level Counted := rounds maxNesting

end Counted

end Scriptlet
