import Scriptlet.Parse

/-! # Levels of nesting

A grammar is the set of parsers at one level of nesting. Each level is built from
the one inside it, and the innermost refuses everything, so that nesting is limited
and parsing ends.

A parser that finds nothing it could begin with takes no token and answers `none`;
once it has begun, it either completes or fails.
-/

namespace Scriptlet

/-- The parsers of one level that an outer level calls. They may run in any monad that
    parsers can be run in. -/
@[ext]
structure Level (m : Type → Type) where
  /-- A statement. -/
  statement : m (Option Node)
  /-- An expression without commas. -/
  assignment : m (Option Node)
  /-- An expression without assignments. -/
  conditional : m (Option Node)
  /-- An operand of a binary operator. -/
  operand : m (Option Node)
  /-- An operand of `new`. -/
  access : m (Option Node)

/-- The parsers of one level, and nothing besides. -/
abbrev Grammar := Level Parse

/-- The level at which everything is nested too deep. -/
def Grammar.exhausted {m : Type → Type} [MonadLiftT Parse m] : Level m where
  statement := Parse.tooDeep
  assignment := Parse.tooDeep
  conditional := Parse.tooDeep
  operand := Parse.tooDeep
  access := Parse.tooDeep

end Scriptlet
