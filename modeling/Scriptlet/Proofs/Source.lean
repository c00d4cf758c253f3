import Scriptlet.Token

/-! # Where a source stands in its text

The place of a source is that of the character behind its cursor, as counted from the
start of the text. This holds before and after everything that only reads.
-/

namespace Scriptlet

/-- The place of the character that this text stands in front of: the lines are counted by
    the newlines, the columns from the last newline on. -/
def Location.behind (before : List Char) : Location :=
  ⟨before.count '\n' + 1, (before.reverse.takeWhile (· ≠ '\n')).length + 1⟩

theorem Location.behind_concat (before : List Char) (c : Char) :
    behind (before ++ [c]) = (behind before).next c := by
  by_cases newline : c = '\n'
  · simp [behind, next, newline]
  · simp [behind, next, newline]

theorem Location.behind_append (before cs : List Char) :
    behind (before ++ cs) = cs.foldl next (behind before) := by
  induction cs generalizing before with
  | nil => simp
  | cons c cs ih =>
      rw [List.foldl_cons, ← behind_concat, ← ih]
      simp

/-- What a text has from this place on, when it begins at `here`. -/
def Location.seek (place here : Location) : List Char → List Char
  | [] => []
  | c :: rest => if here = place then c :: rest else place.seek (here.next c) rest

/-- The next place is in the next column, or on another line. -/
theorem Location.next_cases (here : Location) (c : Char) :
    here.line < (here.next c).line ∨
      (here.next c).line = here.line ∧ (here.next c).column = here.column + 1 := by
  unfold next
  split <;> simp

/-- Places only go forward. -/
theorem Location.foldl_next (here : Location) (cs : List Char) :
    here.line < (cs.foldl next here).line ∨
      (cs.foldl next here).line = here.line ∧
        (cs.foldl next here).column = here.column + cs.length := by
  induction cs generalizing here with
  | nil => simp
  | cons c cs ih =>
      have step := here.next_cases c
      have later := ih (here.next c)
      rw [List.foldl_cons, List.length_cons]
      omega

/-- The place behind some text leads to what follows it. -/
theorem Location.seek_foldl (here : Location) (before rest : List Char) :
    (before.foldl next here).seek here (before ++ rest) = rest := by
  induction before generalizing here with
  | nil => cases rest <;> simp [seek]
  | cons c before ih =>
      have moved : here ≠ (c :: before).foldl next here := by
        intro same
        have later := foldl_next here (c :: before)
        rw [← same, List.length_cons] at later
        omega
      rw [List.cons_append, seek, if_neg moved, List.foldl_cons, ih]

theorem Location.seek_behind (before rest : List Char) :
    (behind before).seek .start (before ++ rest) = rest := by
  have place : behind before = before.foldl next .start := behind_append [] before
  rw [place, seek_foldl]

namespace Source

/-- The characters in front of the cursor. -/
def before (s : Source) : List Char :=
  s.passed.reverse

/-- The source stands somewhere in this text, and nothing was given back to it that is not
    part of the text. -/
structure Within (text : List Char) (s : Source) : Prop where
  whole : s.before ++ s.remaining = text
  own : s.returned = []
  place : s.location = .behind s.before

variable {text : List Char} {s : Source}

theorem within_ofString (text : String) (name : Option String) :
    (ofString text name).Within text.toList :=
  ⟨rfl, rfl, rfl⟩

theorem Within.read (within : s.Within text) :
    s.read.2.Within text ∧ s.read.2.before = s.before ++ s.remaining.take 1 := by
  obtain ⟨name, passed, coming, returned, location⟩ := s
  obtain ⟨whole, rfl, place⟩ := within
  cases coming with
  | nil => exact ⟨⟨whole, rfl, place⟩, by simp [Source.read, before, remaining]⟩
  | cons c rest =>
      refine ⟨⟨?_, rfl, ?_⟩, ?_⟩
      · simpa [Source.read, before, remaining] using whole
      · have moved := Location.behind_concat passed.reverse c
        simp only [before] at place
        simp [Source.read, before, place, moved]
      · simp [Source.read, before, remaining]

/-- Reading moves characters from behind the cursor to the front of it. -/
theorem Within.advance (within : s.Within text) (n : Nat) :
    (s.advance n).Within text ∧ (s.advance n).before = s.before ++ s.remaining.take n := by
  induction n generalizing s with
  | zero => exact ⟨within, by simp [Source.advance]⟩
  | succ n ih =>
      obtain ⟨moved, passed⟩ := within.read
      obtain ⟨further, passed'⟩ := ih moved
      refine ⟨further, ?_⟩
      rw [Source.advance, passed', passed, remaining_read]
      cases s.remaining <;> simp

/-- A source that has passed some characters more. -/
theorem Within.advance_length {cs rest : List Char} (within : s.Within text)
    (ahead : s.remaining = cs ++ rest) :
    (s.advance cs.length).Within text ∧ (s.advance cs.length).before = s.before ++ cs ∧
      (s.advance cs.length).remaining = rest := by
  obtain ⟨moved, passed⟩ := within.advance cs.length
  refine ⟨moved, ?_, ?_⟩
  · rw [passed, ahead, List.take_left]
  · rw [remaining_advance, ahead, List.drop_left]

theorem Within.toEnd (within : s.Within text) : s.toEnd.Within text :=
  (within.advance _).1

end Source

end Scriptlet
