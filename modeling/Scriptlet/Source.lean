import Scriptlet.Location

/-! # Characters to be read

A source hands out the characters of a text one by one and takes any text back.
Text given back that equals what was just read moves the cursor back, so that the
location stays that of the next character; any other text is kept aside and read
first, and the location does not move. `remaining` is the view that the rest of
the library uses: the characters still to be read, in order.
-/

namespace Scriptlet

/-- A text with a cursor in it, and characters that were given back. -/
structure Source where
  /-- What the text is called in messages, usually a file name. -/
  name : Option String := none
  /-- Characters in front of the cursor, the last one first. -/
  passed : List Char := []
  /-- Characters behind the cursor. -/
  coming : List Char
  /-- Characters given back that are not part of the text, the next one first. -/
  returned : List Char := []
  /-- Place of the character behind the cursor. -/
  location : Location := .start
  deriving Repr, DecidableEq

namespace Source

/-- A source at the start of `text`. -/
def ofString (text : String) (name : Option String := none) : Source :=
  { name, coming := text.toList }

/-- The characters still to be read. -/
def remaining (s : Source) : List Char :=
  s.returned ++ s.coming

/-- Is there nothing left to read? -/
def isAtEnd (s : Source) : Bool :=
  s.returned.isEmpty && s.coming.isEmpty

/-- Read one character. Those given back come first and leave the location
    as it is. -/
def read (s : Source) : Option Char × Source :=
  match s.returned, s.coming with
  | c :: rest, _ => (some c, { s with returned := rest })
  | [], c :: rest =>
      (some c, { s with
        passed := c :: s.passed
        coming := rest
        location := s.location.next c })
  | [], [] => (none, s)

/-- The place of `c`, when `c` is about to be passed again: `passed` holds the
    characters in front of it, and `here` is the place behind it. -/
def placeBefore (here : Location) (c : Char) (passed : List Char) : Location :=
  if c = '\n' then
    ⟨here.line - 1, (passed.takeWhile (· ≠ '\n')).length + 1⟩
  else
    ⟨here.line, here.column - 1⟩

/-- Give one character back. The cursor moves back over it if it is the last one
    passed and nothing else waits to be read again. -/
def unreadChar (s : Source) (c : Char) : Source :=
  match s.returned, s.passed with
  | [], p :: passed =>
      if p = c then
        { s with
          passed := passed
          coming := c :: s.coming
          location := placeBefore s.location c passed }
      else
        { s with returned := [c] }
  | returned, _ => { s with returned := c :: returned }

/-- Give `text` back, so that the following reads return it in order. -/
def unread (s : Source) (text : List Char) : Source :=
  text.foldr (fun c s => s.unreadChar c) s

/-- Read `n` characters, or as many as there are. -/
def advance (s : Source) : Nat → Source
  | 0 => s
  | n + 1 => s.read.2.advance n

/-- Read everything. -/
def toEnd (s : Source) : Source :=
  s.advance s.remaining.length

/-- A read takes the first remaining character. -/
@[simp] theorem fst_read (s : Source) : s.read.1 = s.remaining.head? := by
  unfold read remaining
  split <;> simp_all

/-- A read leaves the others. -/
@[simp] theorem remaining_read (s : Source) : s.read.2.remaining = s.remaining.tail := by
  unfold read remaining
  split <;> simp_all

/-- Text given back is read before everything else. -/
@[simp] theorem remaining_unreadChar (s : Source) (c : Char) :
    (s.unreadChar c).remaining = c :: s.remaining := by
  unfold unreadChar remaining
  split
  · split <;> simp_all
  · simp

@[simp] theorem remaining_unread (s : Source) (text : List Char) :
    (s.unread text).remaining = text ++ s.remaining := by
  induction text with
  | nil => rfl
  | cons c text ih => simp [unread] at ih ⊢; exact ih

@[simp] theorem remaining_advance (s : Source) (n : Nat) :
    (s.advance n).remaining = s.remaining.drop n := by
  induction n generalizing s with
  | zero => rfl
  | succ n ih => simp [advance, ih]

@[simp] theorem remaining_toEnd (s : Source) : s.toEnd.remaining = [] := by
  simp [toEnd]

end Source

end Scriptlet
