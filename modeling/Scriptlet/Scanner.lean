import Scriptlet.Token

/-! # Scanning character by character

How a token is taken when characters can only be read one at a time and given back. Every
scanner begins behind the character that chose it, goes on as long as the next one fits, and
gives back what did not. Numerals are the hard case: a candidate grows until nothing behind it
could make a numeral of it, and what was read since the last complete one is given back.
-/

namespace Scriptlet

open CharClass

namespace Numeral

/-- How far a candidate has come. -/
inductive Fit where
  /-- It is no numeral, and cannot be carried on to one. -/
  | hopeless
  /-- It is no numeral yet, like `0x`, `1e` and a point. -/
  | unfinished
  | complete
  deriving Repr, DecidableEq

/-- How many digits a text begins with, and what stands behind them. -/
def countDigits (cs : List Char) : Nat × List Char :=
  ((cs.takeWhile Char.isDigit).length, cs.dropWhile Char.isDigit)

/-- Is the first character in `p`? Then it is passed. -/
def passIf (p : Char → Bool) : List Char → Bool × List Char
  | c :: rest => if p c then (true, rest) else (false, c :: rest)
  | [] => (false, [])

/-- Is there a point in front, how many digits stand behind it, and what behind these? -/
def passFraction (cs : List Char) : Bool × Nat × List Char :=
  let (hasPoint, rest) := passIf (· == '.') cs
  (hasPoint, if hasPoint then countDigits rest else (0, rest))

/-- Is there an exponent in front, how many digits does it have, and what stands behind it? -/
def passExponent (cs : List Char) : Bool × Nat × List Char :=
  let (hasMark, rest) := passIf marksExponent cs
  (hasMark, if hasMark then countDigits (passIf isSign rest).2 else (0, rest))

/-- How far a candidate without the letter of a base has come. -/
def fitDecimal (cs : List Char) : Fit :=
  let (whole, rest) := countDigits cs
  let (hasPoint, fraction, rest) := passFraction rest
  if whole = 0 ∧ !hasPoint then .hopeless
  else
    let (hasMark, exponent, rest) := passExponent rest
    if !rest.isEmpty then .hopeless
    else if (whole > 0 ∨ fraction > 0) ∧ (hasMark → exponent > 0) then .complete
    else .unfinished

/-- How far a candidate has come. -/
def fit : List Char → Fit
  | '0' :: letter :: digits =>
      match radix? letter with
      | some radix =>
          if !digits.all (isDigitIn radix) then .hopeless
          else if digits.isEmpty then .unfinished
          else .complete
      | none => fitDecimal ('0' :: letter :: digits)
  | cs => fitDecimal cs

end Numeral

/-- A numeral being scanned. -/
structure NumeralScan where
  /-- All that was read. -/
  text : List Char
  /-- The last candidate that was complete, if there was one. -/
  longest : List Char := []
  /-- What was read since. -/
  ahead : List Char := []
  deriving Repr, DecidableEq

namespace NumeralScan

/-- Remember the candidate if it is complete. -/
def note (n : NumeralScan) : NumeralScan :=
  if Numeral.fit n.text = .complete then { n with longest := n.text, ahead := [] } else n

def push (n : NumeralScan) (c : Char) : NumeralScan :=
  { n with text := n.text ++ [c], ahead := n.ahead ++ [c] }

end NumeralScan

namespace Source

variable {s s' : Source} {c : Char}

/-- What is read comes before what is left. -/
theorem remaining_of_read (h : s.read = (some c, s')) : s.remaining = c :: s'.remaining := by
  have first := s.fst_read
  have others := s.remaining_read
  rw [h] at first others
  obtain ⟨rest, same⟩ := List.head?_eq_some_iff.mp first.symm
  rw [others, same, List.tail_cons]

theorem remaining_of_read_none (h : s.read = (none, s')) :
    s.remaining = [] ∧ s'.remaining = [] := by
  have first := s.fst_read
  have others := s.remaining_read
  rw [h] at first others
  have nothing := List.head?_eq_none_iff.mp first.symm
  exact ⟨nothing, by rw [others, nothing, List.tail_nil]⟩

theorem length_remaining_of_read (h : s.read = (some c, s')) :
    s'.remaining.length < s.remaining.length := by
  simp [remaining_of_read h]

/-- Look at the next character. -/
def peek (s : Source) : Option Char × Source :=
  match s.read with
  | (some c, s') => (some c, s'.unread [c])
  | (none, s') => (none, s')

@[simp] theorem remaining_peek (s : Source) : s.peek.2.remaining = s.remaining := by
  unfold peek
  split
  · next h => simp [remaining_of_read h]
  · next h =>
      obtain ⟨nothing, nothing'⟩ := remaining_of_read_none h
      rw [nothing, nothing']

/-! ## Blanks and comments -/

/-- Pass the blanks, and look at the character behind them. -/
def scanBlanks (s : Source) : Option Char × Source :=
  match _h : s.read with
  | (none, s') => (none, s')
  | (some c, s') => if isBlank c then s'.scanBlanks else (some c, s'.unread [c])
termination_by s.remaining.length
decreasing_by exact length_remaining_of_read _h

/-- Carry `text` on with characters that are in `p`. -/
def scanWhile (p : Char → Bool) (text : List Char) (s : Source) : List Char × Source :=
  match _h : s.read with
  | (none, s') => (text, s')
  | (some c, s') => if p c then s'.scanWhile p (text ++ [c]) else (text, s'.unread [c])
termination_by s.remaining.length
decreasing_by exact length_remaining_of_read _h

/-- Carry `text` on through the mark that closes a bracketed comment. The star that opens the
    comment does not close it as well: the two marks together have four bytes. -/
def scanBlock (text : List Char) (s : Source) : Option (List Char) × Source :=
  match _h : s.read with
  | (none, s') => (none, s')
  | (some c, s') =>
      let text := text ++ [c]
      if (String.ofList text).utf8ByteSize ≥ 4 ∧ ['*', '/'] <:+ text then (some text, s')
      else s'.scanBlock text
termination_by s.remaining.length
decreasing_by exact length_remaining_of_read _h

/-- Take the comment that begins `here` with a slash, behind the slash. There is no outer
    answer if the comment is never closed, and no inner one if the slash begins none. -/
def scanComment (here : Location) (s : Source) : Option (Option Comment) × Source :=
  match s.read with
  | (some '/', s') =>
      let (text, s') := s'.scanWhile (· ≠ '\n') ['/', '/']
      (some (some ⟨String.ofList text, here⟩), s')
  | (some '*', s') =>
      match s'.scanBlock ['/', '*'] with
      | (some text, s') => (some (some ⟨String.ofList text, here⟩), s')
      | (none, s') => (none, s')
  | (some c, s') => (some none, s'.unread [c])
  | (none, s') => (some none, s')

/-- Take the comment that begins with `first`, behind that character. Only a slash begins
    one. -/
def scanCommentFrom (first : Char) (here : Location) (s : Source) :
    Option (Option Comment) × Source :=
  if first = '/' then s.scanComment here else (some none, s)

/-! ## Tokens -/

/-- What stands behind a slash. Behind another character nothing is looked at. -/
def behindSlash (c : Char) (s : Source) : Option Char × Source :=
  if c = '/' then s.peek else (none, s)

@[simp] theorem remaining_behindSlash (c : Char) (s : Source) :
    (s.behindSlash c).2.remaining = s.remaining := by
  unfold behindSlash
  split <;> simp

/-- Carry an operator on, up to where a comment opens. -/
def scanOperator (text : List Char) (s : Source) : List Char × Source :=
  match _h : s.read with
  | (none, s') => (text, s')
  | (some c, s') =>
      if !isOperator c then (text, s'.unread [c])
      else
        let seen := s'.behindSlash c
        if seen.1 = some '/' ∨ seen.1 = some '*' then (text, seen.2.unread ['/'])
        else seen.2.scanOperator (text ++ [c])
termination_by s.remaining.length
decreasing_by
  rw [remaining_behindSlash]
  exact length_remaining_of_read _h

/-- Carry a numeral on until it is hopeless. -/
def scanNumeral (n : NumeralScan) (s : Source) : NumeralScan × Source :=
  if Numeral.fit n.text = .hopeless then (n, s)
  else
    match _h : s.read with
    | (none, s') => (n.note, s')
    | (some c, s') => s'.scanNumeral (n.note.push c)
termination_by s.remaining.length
decreasing_by exact length_remaining_of_read _h

/-- Take what begins with a digit or a point: the longest numeral. A point at its end is given
    back when another point or a name follows. A point that begins no numeral begins an
    operator. -/
def scanNumber (first : Char) (s : Source) : Lexeme × Source :=
  let (n, s') := s.scanNumeral { text := [first] }
  let s' := s'.unread n.ahead
  if n.longest.isEmpty then
    let (text, s') := s'.scanOperator [first]
    (.operator (String.ofList text), s')
  else if n.longest.length > 1 && n.longest.getLast? == some '.' &&
      n.ahead.head?.any (fun c => c == '.' || startsSymbol c) then
    (⟨.number, String.ofList n.longest.dropLast⟩, s'.unread ['.'])
  else (⟨.number, String.ofList n.longest⟩, s')

/-- Carry a string on through the quote that closes it. -/
def scanString (quote : Char) (text : List Char) (s : Source) : Option (List Char) × Source :=
  match _h : s.read with
  | (none, s') => (none, s')
  | (some c, s') =>
      let text := text ++ [c]
      if c = '\\' then
        match _h' : s'.read with
        | (none, s'') => (none, s'')
        | (some escaped, s'') => s''.scanString quote (text ++ [escaped])
      else if c = quote then (some text, s')
      else s'.scanString quote text
termination_by s.remaining.length
decreasing_by
  · exact Nat.lt_trans (length_remaining_of_read _h') (length_remaining_of_read _h)
  · exact length_remaining_of_read _h

/-- Take the lexeme that begins with `first`, behind that character. -/
def scanLexeme (first : Char) (s : Source) : Option Lexeme × Source :=
  if isSeparator first then (some (.separator first), s)
  else if startsSymbol first then
    let (text, s') := s.scanWhile continuesSymbol [first]
    (some (.symbol (String.ofList text)), s')
  else if first.isDigit || first == '.' then
    let (number, s') := s.scanNumber first
    (some number, s')
  else if isOperator first then
    let (text, s') := s.scanOperator [first]
    (some (.operator (String.ofList text)), s')
  else if isQuote first then
    let (text?, s') := s.scanString first [first]
    (text?.map (⟨.string, String.ofList ·⟩), s')
  else (some ⟨.other, first.toString⟩, s)

/-! ## The next token -/

theorem length_remaining_scanBlanks (h : s.scanBlanks = (some c, s')) :
    0 < s'.remaining.length ∧ s'.remaining.length ≤ s.remaining.length := by
  fun_induction scanBlanks s with
  | case1 => cases h
  | case2 s d s'' read _ ih =>
      have shorter := length_remaining_of_read read
      have later := ih h
      omega
  | case3 s d s'' read =>
      cases h
      simp [remaining_of_read read]

theorem length_remaining_scanWhile (p : Char → Bool) (text : List Char) (s : Source) :
    (s.scanWhile p text).2.remaining.length ≤ s.remaining.length := by
  fun_induction scanWhile p text s with
  | case1 text s s' h => simp [remaining_of_read_none h]
  | case2 text s c s' h _ ih =>
      have shorter := length_remaining_of_read h
      omega
  | case3 text s c s' h => simp [remaining_of_read h]

theorem length_remaining_scanBlock (text : List Char) (s : Source) :
    (s.scanBlock text).2.remaining.length ≤ s.remaining.length := by
  fun_induction scanBlock text s with
  | case1 text s s' h => simp [remaining_of_read_none h]
  | case2 text s c s' h => exact Nat.le_of_lt (length_remaining_of_read h)
  | case3 text s c s' h _ _ ih =>
      have shorter := length_remaining_of_read h
      omega

theorem length_remaining_scanComment (here : Location) (s : Source) :
    (s.scanComment here).2.remaining.length ≤ s.remaining.length := by
  unfold scanComment
  split
  · next s' h =>
      have shorter := length_remaining_of_read h
      have later := length_remaining_scanWhile (· ≠ '\n') ['/', '/'] s'
      exact Nat.le_trans later (Nat.le_of_lt shorter)
  · next s' h =>
      have shorter := length_remaining_of_read h
      have later := length_remaining_scanBlock ['/', '*'] s'
      split
      · next same =>
          rw [same] at later
          exact Nat.le_trans later (Nat.le_of_lt shorter)
      · next same =>
          rw [same] at later
          exact Nat.le_trans later (Nat.le_of_lt shorter)
  · next h => simp [remaining_of_read h]
  · next h => simp [remaining_of_read_none h]

/-- Behind the blanks and one character more, a comment leaves less to read. -/
theorem length_remaining_scanCommentFrom {here : Source} {answer : Option (Option Comment)}
    (blanks : s.scanBlanks = (some c, here))
    (comment : here.read.2.scanCommentFrom c here.location = (answer, s')) :
    s'.remaining.length < s.remaining.length := by
  have shorter := length_remaining_scanBlanks blanks
  have step := here.remaining_read
  unfold scanCommentFrom at comment
  split at comment
  · have later := length_remaining_scanComment here.location here.read.2
    simp only [comment, step, List.length_tail] at later
    omega
  · cases comment
    rw [step, List.length_tail]
    omega

/-- Take the next token, with the comments before it appended to `comments`. -/
def scanAfter (comments : List Comment) (s : Source) : Option Token × Source :=
  match _h : s.scanBlanks with
  | (none, s') => (none, s')
  | (some c, here) =>
      match _h' : here.read.2.scanCommentFrom c here.location with
      | (none, s') => (none, s')
      | (some (some comment), s') => s'.scanAfter (comments ++ [comment])
      | (some none, s') =>
          let (lexeme?, s') := s'.scanLexeme c
          (lexeme?.map fun lexeme => { toLexeme := lexeme, location := here.location, comments }, s')
termination_by s.remaining.length
decreasing_by exact length_remaining_scanCommentFrom _h _h'

/-- Take the next token. -/
def scan (s : Source) : Option Token × Source :=
  s.scanAfter []

end Source

end Scriptlet
