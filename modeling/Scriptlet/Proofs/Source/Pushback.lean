import Scriptlet.Proofs.Source

/-! # Giving back what was read

A source that is given a character back is not told where the character came from. If nothing
waits to be read again and the same character stands in front of the cursor, the cursor moves
back over it, and otherwise the character is put aside. A character that was put aside, read and
given back once more could so move the cursor, which it did not pass. This does not happen: after
any requests, the last of the characters put aside is not the one in front of the cursor. So
giving back what was read leads back to the same source, wherever the characters came from.
-/

namespace Scriptlet

namespace Source

/-- What can be asked of a source. -/
inductive Request where
  | read
  | unread (cs : List Char)
  deriving Repr, DecidableEq

namespace Request

/-- What a source answers, and what becomes of it. Where characters are given back, there is no
    answer. -/
def serve : Request → Source → Option Char × Source
  | read, s => s.read
  | unread cs, s => (none, s.unread cs)

/-- The answers to requests made one after the other, and what becomes of the source. -/
def run : List Request → Source → List (Option Char) × Source
  | [], s => ([], s)
  | r :: rest, s =>
      let (answer, s') := r.serve s
      let (answers, last) := run rest s'
      (answer :: answers, last)

end Request

/-- The source stands somewhere in this text. What was given back to it does not end in the
    character in front of the cursor, since that one would have moved the cursor back. -/
structure Coherent (text : List Char) (s : Source) : Prop where
  whole : s.before ++ s.coming = text
  place : s.location = .behind s.before
  foreign : ∀ c ∈ s.returned.getLast?, s.passed.head? ≠ some c

variable {text : List Char} {s : Source}

theorem coherent_ofString (text : String) (name : Option String) :
    (ofString text name).Coherent text.toList :=
  ⟨rfl, rfl, fun _ last => by cases last⟩

/-! ## One request -/

/-- A step back ends at the place from which the step forward was made. -/
theorem placeBefore_next (passed : List Char) (c : Char) :
    placeBefore ((Location.behind passed.reverse).next c) c passed = .behind passed.reverse := by
  by_cases newline : c = '\n'
  · simp [placeBefore, Location.next, Location.behind, newline]
  · simp [placeBefore, Location.next, Location.behind, newline]

/-- The place behind `c`, when `c` is the last character passed. -/
theorem behind_passed (passed : List Char) (c : Char) :
    Location.behind (c :: passed).reverse = (Location.behind passed.reverse).next c := by
  rw [List.reverse_cons, Location.behind_concat]

theorem Coherent.read (coherent : s.Coherent text) : s.read.2.Coherent text := by
  obtain ⟨name, passed, coming, returned, location⟩ := s
  obtain ⟨whole, place, foreign⟩ := coherent
  cases returned with
  | nil =>
      cases coming with
      | nil => exact ⟨whole, place, foreign⟩
      | cons c rest =>
          refine ⟨?_, ?_, fun _ last => by cases last⟩
          · simpa [Source.read, before] using whole
          · exact (congrArg (Location.next · c) place).trans (behind_passed passed c).symm
  | cons c rest =>
      refine ⟨whole, place, fun d last => foreign d ?_⟩
      -- what is left of the characters given back ends as before, if anything is left
      cases rest with
      | nil => cases last
      | cons => exact last

theorem Coherent.unreadChar (coherent : s.Coherent text) (c : Char) :
    (s.unreadChar c).Coherent text := by
  obtain ⟨name, passed, coming, returned, location⟩ := s
  obtain ⟨whole, place, foreign⟩ := coherent
  cases returned with
  | nil =>
      cases passed with
      | nil => exact ⟨whole, place, fun _ _ => nofun⟩
      | cons p passed =>
          by_cases same : p = c
          · subst same
            simp only [Source.unreadChar, ↓reduceIte]
            refine ⟨by simpa [before] using whole, ?_, fun _ last => by cases last⟩
            rw [show location = _ from place, before, behind_passed]
            exact placeBefore_next passed p
          · simp only [Source.unreadChar, if_neg same]
            refine ⟨whole, place, ?_⟩
            rintro d ⟨rfl⟩ found
            exact same (Option.some.inj found)
  | cons r rest =>
      refine ⟨whole, place, fun d last => foreign d ?_⟩
      rwa [← List.getLast?_cons_cons]

theorem Coherent.unread (coherent : s.Coherent text) (cs : List Char) :
    (s.unread cs).Coherent text := by
  induction cs with
  | nil => exact coherent
  | cons c cs ih => exact ih.unreadChar c

/-- A character that was read can be given back: nothing has changed then. -/
theorem Coherent.unreadChar_read {c : Char} (coherent : s.Coherent text)
    (answer : s.read.1 = some c) : s.read.2.unreadChar c = s := by
  obtain ⟨name, passed, coming, returned, location⟩ := s
  obtain ⟨-, place, foreign⟩ := coherent
  cases returned with
  | nil =>
      cases coming with
      | nil => cases answer
      | cons d rest =>
          cases answer
          have back := placeBefore_next passed c
          rw [show Location.behind passed.reverse = location from place.symm] at back
          simp [Source.read, Source.unreadChar, back]
  | cons d rest =>
      cases answer
      cases rest with
      | nil =>
          -- the last one put aside: it goes where it came from, since the cursor cannot take it
          cases passed with
          | nil => rfl
          | cons p passed =>
              have other : p ≠ c := fun same => foreign c rfl (congrArg some same)
              simp [Source.read, Source.unreadChar, other]
      | cons => rfl

-- where no requests lead: the letter was put aside behind the same letter, and the cursor takes it
example :
    let s : Source := { passed := ['a'], coming := [], returned := ['a'], location := ⟨1, 2⟩ }
    s.read.2.unreadChar 'a' ≠ s := by
  decide

/-! ## Any number of requests -/

theorem Coherent.serve (coherent : s.Coherent text) (r : Request) :
    (r.serve s).2.Coherent text := by
  cases r with
  | read => exact coherent.read
  | unread cs => exact coherent.unread cs

theorem Coherent.run (coherent : s.Coherent text) (history : List Request) :
    (Request.run history s).2.Coherent text := by
  induction history generalizing s with
  | nil => exact coherent
  | cons r rest ih => exact ih (coherent.serve r)

/-- Reads are answered with the next characters, as long as there are any. -/
theorem run_read_iff {cs : List Char} :
    (Request.run (List.replicate cs.length .read) s).1 = cs.map some ↔ cs <+: s.remaining := by
  induction cs generalizing s with
  | nil => exact iff_of_true rfl List.nil_prefix
  | cons c cs ih =>
      have next := ih (s := s.read.2)
      rw [remaining_read] at next
      simp only [List.length_cons, List.replicate_succ, Request.run, Request.serve, List.map_cons,
        List.cons.injEq, fst_read, next]
      cases s.remaining with
      | nil => simp
      | cons d rest => simp [List.cons_prefix_cons, eq_comm]

theorem Coherent.unread_run {cs : List Char} (coherent : s.Coherent text)
    (answers : (Request.run (List.replicate cs.length .read) s).1 = cs.map some) :
    (Request.run (List.replicate cs.length .read) s).2.unread cs = s := by
  induction cs generalizing s with
  | nil => rfl
  | cons c cs ih =>
      obtain ⟨first, others⟩ := List.cons.inj answers
      -- giving back begins with the last character: first the other reads are undone
      have undone := ih coherent.read others
      calc _ = ((Request.run (List.replicate cs.length .read) s.read.2).2.unread cs).unreadChar c :=
            rfl
        _ = s := by rw [undone, coherent.unreadChar_read first]

/-- Whatever was read and given back before, reads are answered with `cs` exactly if these are the
    next of the characters still to be read, and then giving them back undoes the reads: cursor,
    characters put aside, line and column are what they were. -/
theorem reads_undone (text : String) (name : Option String) (history : List Request)
    (cs : List Char) :
    let s := (Request.run history (ofString text name)).2
    let (answers, s') := Request.run (List.replicate cs.length .read) s
    (answers = cs.map some ↔ cs <+: s.remaining) ∧ (answers = cs.map some → s'.unread cs = s) :=
  ⟨run_read_iff, ((coherent_ofString text name).run history).unread_run⟩

/-- The newline given back moves the cursor, and the letter in front of it is put aside. Three
    reads take the letter from there, and the newline and one character more from the text. -/
theorem reads_undone_both :
    let s := (Request.run [.read, .read, .unread ['z', '\n']] (ofString "a\nb")).2
    let (answers, s') := Request.run [.read, .read, .read] s
    s.returned = ['z'] ∧ answers = ['z', '\n', 'b'].map some ∧ s'.location = ⟨2, 2⟩ ∧
      s'.unread ['z', '\n', 'b'] = s := by
  have answers : (Request.run [.read, .read, .read]
      (Request.run [.read, .read, .unread ['z', '\n']] (ofString "a\nb")).2).1 =
        ['z', '\n', 'b'].map some := by decide +kernel
  exact ⟨by decide +kernel, answers, by decide +kernel,
    (reads_undone "a\nb" none [.read, .read, .unread ['z', '\n']] ['z', '\n', 'b']).2 answers⟩

end Source

end Scriptlet
