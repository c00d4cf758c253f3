import Mathlib.Data.Nat.PSub
import Scriptlet.Proofs.Source.Pushback

/-! # The cursor as a number

A source keeps what its cursor has passed and what is coming. The cursor can as well be a number
beside the whole text, and going back is then a matter of indices and differences: one less for
the cursor, one less for the line or the column, and behind a newline the column anew, by a
search for the newline before it. Here each of these steps is checked, and gives nothing where an
index is outside of the text or a difference is below zero. That never happens, since line and
column are always those of the cursor, as counted from the start of the text.
-/

namespace Scriptlet

namespace Source

/-- A text with a number for the cursor, and characters that were given back. -/
structure Indexed where
  text : List Char
  /-- How many characters are in front of the cursor. -/
  cursor : Nat
  /-- Characters given back that are not part of the text, the next one first. -/
  returned : List Char
  /-- Place of the character behind the cursor. -/
  location : Location
  deriving Repr, DecidableEq

namespace Indexed

/-- The start of `text`. -/
def ofString (text : String) : Indexed :=
  { text := text.toList, cursor := 0, returned := [], location := .start }

/-- Read one character. -/
def read (s : Indexed) : Option Char × Indexed :=
  match s.returned with
  | c :: rest => (some c, { s with returned := rest })
  | [] =>
      match s.text[s.cursor]? with
      | some c => (some c, { s with cursor := s.cursor + 1, location := s.location.next c })
      | none => (none, s)

/-- Where the line begins that this index is in: behind the last newline in front of it, or at the
    start. -/
def lineStart? (text : List Char) : Nat → Option Nat
  | 0 => some 0
  | i + 1 => do
      if (← text[i]?) = '\n' then
        return i + 1
      else
        lineStart? text i

/-- The character in front of the cursor. -/
def last? (s : Indexed) : Option Char := do
  s.text[← s.cursor.ppred]?

/-- Move the cursor back over one character. -/
def stepBack? (s : Indexed) : Option Indexed := do
  let cursor ← s.cursor.ppred
  if (← s.last?) = '\n' then
    let line ← s.location.line.ppred
    let column ← cursor.psub (← lineStart? s.text cursor)
    return { s with cursor, location := ⟨line, column + 1⟩ }
  else
    let column ← s.location.column.ppred
    return { s with cursor, location := ⟨s.location.line, column⟩ }

/-- Give one character back. -/
def unreadChar? (s : Indexed) (c : Char) : Option Indexed :=
  let aside := { s with returned := c :: s.returned }
  if s.returned = [] ∧ 0 < s.cursor then do
    if (← s.last?) = c then s.stepBack? else some aside
  else
    some aside

/-- Give `cs` back, the last character first. -/
def unread? (s : Indexed) (cs : List Char) : Option Indexed :=
  cs.foldrM (fun c s => s.unreadChar? c) s

/-- What is answered to a request, and what becomes of the text and the number. -/
def serve? : Request → Indexed → Option (Option Char × Indexed)
  | .read, s => some s.read
  | .unread cs, s => (s.unread? cs).map (none, ·)

/-- The answers to requests made one after the other, and what becomes of the text and the
    number. -/
def run? : List Request → Indexed → Option (List (Option Char) × Indexed)
  | [], s => some ([], s)
  | r :: rest, s => do
      let (answer, s') ← serve? r s
      let (answers, last) ← run? rest s'
      return (answer :: answers, last)

end Indexed

/-- The source as a text and a number. -/
def indexed (s : Source) : Indexed where
  text := s.before ++ s.coming
  cursor := s.passed.length
  returned := s.returned
  location := s.location

variable {text : List Char} {s : Source}

theorem Coherent.cursor (coherent : s.Coherent text) :
    s.passed.length ≤ text.length ∧ s.before = text.take s.passed.length ∧
      s.coming = text.drop s.passed.length := by
  have size : s.passed.length = s.before.length := List.length_reverse.symm
  rw [size, ← coherent.whole]
  simp

/-! ## One request -/

theorem indexed_read (s : Source) : s.indexed.read = (s.read.1, s.read.2.indexed) := by
  obtain ⟨name, passed, coming, returned, location⟩ := s
  cases returned with
  | nil => cases coming <;> simp [Indexed.read, Source.read, indexed, before]
  | cons c rest => rfl

/-- The characters between the start of the line and an index are those behind the last newline. -/
theorem lineStart?_eq (passed rest : List Char) :
    ∃ start, Indexed.lineStart? (passed.reverse ++ rest) passed.length = some start ∧
      (passed.takeWhile (· ≠ '\n')).length + start = passed.length := by
  induction passed generalizing rest with
  | nil => exact ⟨0, rfl, rfl⟩
  | cons c passed ih =>
      have split : (c :: passed).reverse ++ rest = passed.reverse ++ c :: rest := by simp
      have last : (passed.reverse ++ c :: rest)[passed.length]? = some c := by simp
      rw [split, List.length_cons, Indexed.lineStart?, last]
      by_cases newline : c = '\n'
      · exact ⟨passed.length + 1, by simp [newline], by simp [newline]⟩
      · obtain ⟨start, found, size⟩ := ih (c :: rest)
        refine ⟨start, by simp [newline, found], ?_⟩
        rw [List.takeWhile_cons_of_pos (by simpa using newline), List.length_cons]
        omega

/-- The character in front of the cursor is the last one passed. -/
theorem last?_indexed {p : Char} {passed : List Char} (last : s.passed = p :: passed) :
    s.indexed.last? = some p := by
  simp [Indexed.last?, indexed, before, last]

/-- Where something was passed, a step back is possible, and it leads to the place that the source
    takes without a check. -/
theorem Coherent.stepBack? {p : Char} {passed : List Char} (coherent : s.Coherent text)
    (last : s.passed = p :: passed) :
    s.indexed.stepBack? = some { s.indexed with
      cursor := passed.length
      location := placeBefore s.location p passed } := by
  have cursor : s.indexed.cursor.ppred = some passed.length := by
    rw [indexed, last]
    rfl
  rw [Indexed.stepBack?, cursor, last?_indexed last, placeBefore]
  simp only [Option.bind_eq_bind, Option.bind_some]
  -- lines and columns are counted from one
  obtain ⟨line, column, place⟩ : ∃ line column, s.location = ⟨line + 1, column + 1⟩ :=
    ⟨_, _, coherent.place⟩
  rw [show s.indexed.location = s.location from rfl, place]
  by_cases newline : p = '\n'
  · have split : s.indexed.text = passed.reverse ++ p :: s.coming := by
      simp [indexed, before, last]
    obtain ⟨start, found, size⟩ := lineStart?_eq passed (p :: s.coming)
    rw [if_pos newline, if_pos newline, split, found]
    simp only [Option.bind_some, Nat.psub_eq_some.mpr size]
    rfl
  · rw [if_neg newline, if_neg newline]
    rfl

theorem Coherent.unreadChar? (coherent : s.Coherent text) (c : Char) :
    s.indexed.unreadChar? c = some (s.unreadChar c).indexed := by
  obtain ⟨name, passed, coming, returned, location⟩ := s
  cases returned with
  | cons r rest => simp [Indexed.unreadChar?, Source.unreadChar, indexed, before]
  | nil =>
      cases passed with
      | nil => simp [Indexed.unreadChar?, Source.unreadChar, indexed, before]
      | cons p passed =>
          rw [Indexed.unreadChar?, if_pos ⟨rfl, Nat.succ_pos passed.length⟩, last?_indexed rfl]
          simp only [Option.bind_eq_bind, Option.bind_some, Source.unreadChar]
          by_cases same : p = c
          · rw [if_pos same, if_pos same, coherent.stepBack? rfl]
            simp [indexed, before, same]
          · rw [if_neg same, if_neg same]
            rfl

theorem Coherent.unread? (coherent : s.Coherent text) (cs : List Char) :
    s.indexed.unread? cs = some (s.unread cs).indexed := by
  induction cs with
  | nil => rfl
  | cons c cs ih =>
      have last : s.indexed.unread? (c :: cs) = (s.indexed.unread? cs).bind (·.unreadChar? c) :=
        List.foldrM_cons
      rw [last, ih]
      exact (coherent.unread cs).unreadChar? c

theorem Coherent.serve? (coherent : s.Coherent text) (r : Request) :
    Indexed.serve? r s.indexed = some ((r.serve s).1, (r.serve s).2.indexed) := by
  cases r with
  | read => exact congrArg some s.indexed_read
  | unread cs =>
      rw [Indexed.serve?, coherent.unread? cs]
      rfl

/-! ## Any number of requests -/

theorem Coherent.run? (coherent : s.Coherent text) (history : List Request) :
    Indexed.run? history s.indexed =
      some ((Request.run history s).1, (Request.run history s).2.indexed) := by
  induction history generalizing s with
  | nil => rfl
  | cons r rest ih =>
      rw [Indexed.run?, coherent.serve? r]
      simp only [Option.bind_eq_bind, Option.bind_some]
      rw [ih (coherent.serve r)]
      rfl

/-- Over its text, a source that takes its last character back undoes the step behind it. -/
theorem Coherent.unreadChar_passed {c : Char} (coherent : s.Coherent text)
    (idle : s.returned = []) (last : s.passed.head? = some c) :
    (s.unreadChar c).passed.length + 1 = s.passed.length ∧
      (s.unreadChar c).location.next c = s.location := by
  obtain ⟨passed, split⟩ := List.head?_eq_some_iff.mp last
  have moved : (s.unreadChar c).passed = passed := by
    simp [Source.unreadChar, idle, split]
  refine ⟨by rw [moved, split, List.length_cons], ?_⟩
  rw [(coherent.unreadChar c).place, coherent.place, before, before, moved, split, behind_passed]

/-- Whatever was read and given back before, the cursor is in the text. The line is one more than
    the newlines in front of it, the column one more than the characters behind the last of them.
    So the same requests can be served by indices and differences, with a check of each, and lead
    to the same answers and the same source: moving the cursor back takes one from it and leads
    to a place from which the next step leads to where it was. Text that is given back is read
    before what was still to be read, and a read takes the first character of that. -/
theorem cursor_exact (text : String) (name : Option String) (history : List Request) :
    let (answers, s) := Request.run history (ofString text name)
    let cursor := s.passed.length
    let front := text.toList.take cursor
    (cursor ≤ text.toList.length ∧ s.before = front ∧ s.coming = text.toList.drop cursor) ∧
    (s.location.line = 1 + front.count '\n' ∧
      s.location.column = 1 + (front.reverse.takeWhile (· ≠ '\n')).length) ∧
    Indexed.run? history (.ofString text) = some (answers, s.indexed) ∧
    (∀ c, s.returned = [] → s.passed.head? = some c →
      (s.unreadChar c).passed.length + 1 = cursor ∧
        (s.unreadChar c).location.next c = s.location) ∧
    (∀ cs, (s.unread cs).remaining = cs ++ s.remaining) ∧
    s.read.1 = s.remaining.head? ∧ s.read.2.remaining = s.remaining.tail := by
  have start := coherent_ofString text name
  have coherent := start.run history
  obtain ⟨inside, front, coming⟩ := coherent.cursor
  refine ⟨⟨inside, front, coming⟩, ⟨?_, ?_⟩, start.run? history,
    fun c idle last => coherent.unreadChar_passed idle last, remaining_unread _, fst_read _,
    remaining_read _⟩
  · rw [coherent.place, front]
    exact Nat.add_comm ..
  · rw [coherent.place, front]
    exact Nat.add_comm ..

/-- Back over a newline: the line is one less, and the column is found again. -/
theorem cursor_exact_newline :
    let s := (Request.run [.read, .read, .read] (ofString "ab\ncd")).2
    s.returned = [] ∧ s.passed.head? = some '\n' ∧ s.location = ⟨2, 1⟩ ∧
      (s.unreadChar '\n').location = ⟨1, 3⟩ ∧
      (s.unreadChar '\n').passed.length + 1 = s.passed.length ∧
      (s.unreadChar '\n').location.next '\n' = s.location := by
  intro s
  have idle : s.returned = [] := by decide +kernel
  have last : s.passed.head? = some '\n' := by decide +kernel
  obtain ⟨-, -, -, back, -⟩ := cursor_exact "ab\ncd" none [.read, .read, .read]
  exact ⟨idle, last, by decide +kernel, by decide +kernel, back '\n' idle last⟩

end Source

end Scriptlet
