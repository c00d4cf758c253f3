/-! # Places in a text

A location is the line and the column of one character, both counted from one.
-/

namespace Scriptlet

/-- Line and column of a character. Columns count characters, not bytes. -/
structure Location where
  line : Nat
  column : Nat
  deriving Repr, DecidableEq, Inhabited

namespace Location

/-- Where every text begins. -/
def start : Location := ⟨1, 1⟩

/-- The place of the character after `c`, when `c` stands at `place`. Only a
    newline starts a new line. -/
def next (place : Location) (c : Char) : Location :=
  if c = '\n' then ⟨place.line + 1, 1⟩ else ⟨place.line, place.column + 1⟩

/-- The short form `line:column`. -/
def text (place : Location) : String :=
  toString place.line ++ ":" ++ toString place.column

/-- The long form used inside sentences. -/
def phrase (place : Location) : String :=
  "line " ++ toString place.line ++ ", column " ++ toString place.column

end Location

end Scriptlet
