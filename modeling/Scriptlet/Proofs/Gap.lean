import Scriptlet.Proofs.Lexeme
import Scriptlet.Proofs.Source
import Scriptlet.Proofs.Token

/-! # What stands between tokens

A gap is a row of blanks and whole comments. Taking a token passes the gap in front of it,
keeps the comments of the gap at their places, and passes the text of the token. Where no
token can be taken, nothing is left behind the gap but a comment or a string that is never
closed.
-/

namespace Scriptlet

open CharClass

/-- A whole comment in front of `rest`. -/
inductive IsComment (rest : List Char) : List Char → Prop where
  /-- Two slashes and the rest of the line. -/
  | line {body : List Char} (inside : '\n' ∉ body) (ends : ∀ c ∈ rest.head?, c = '\n') :
      IsComment rest ('/' :: '/' :: body)
  /-- All that stands between slash-star and the first star-slash behind it. -/
  | block {body : List Char} (first : ¬['*', '/'] <:+: body ++ ['*']) :
      IsComment rest ('/' :: '*' :: body ++ ['*', '/'])

/-- The inside of a string as far as the end of the text: no quote closes it. -/
inductive Unclosed (quote : Char) : List Char → Prop where
  | nil : Unclosed quote []
  | backslash : Unclosed quote ['\\']
  | escaped {c : Char} {cs : List Char} (more : Unclosed quote cs) :
      Unclosed quote ('\\' :: c :: cs)
  | plain {c : Char} {cs : List Char} (unquoted : c ≠ quote) (unescaped : c ≠ '\\')
      (more : Unclosed quote cs) : Unclosed quote (c :: cs)

/-- What can be left of a text that has no more tokens, blanks and comments aside. -/
inductive Unfinished : List Char → Prop where
  | nothing : Unfinished []
  | comment {body : List Char} (unclosed : ¬['*', '/'] <:+: body) : Unfinished ('/' :: '*' :: body)
  | string {quote : Char} {body : List Char} (quotes : isQuote quote = true)
      (unclosed : Unclosed quote body) : Unfinished (quote :: body)

/-- Blanks and comments that stand behind `before` and in front of `rest`. -/
inductive Gap (rest : List Char) : List Char → List Char → List Comment → Prop where
  | none {before} : Gap rest before [] []
  | blank {before c gap comments} (isBlank : isBlank c = true)
      (more : Gap rest (before ++ [c]) gap comments) : Gap rest before (c :: gap) comments
  | comment {before text gap comments} (whole : IsComment (gap ++ rest) text)
      (more : Gap rest (before ++ text) gap comments) :
      Gap rest before (text ++ gap) (⟨String.ofList text, .behind before⟩ :: comments)

theorem Gap.blanks {rest before blanks gap : List Char} {comments : List Comment}
    (all : ∀ c ∈ blanks, isBlank c = true) (more : Gap rest (before ++ blanks) gap comments) :
    Gap rest before (blanks ++ gap) comments := by
  induction blanks generalizing before with
  | nil => simpa using more
  | cons c blanks ih =>
      obtain ⟨isBlank, others⟩ := List.forall_mem_cons.mp all
      exact .blank isBlank (ih others (by simpa using more))

theorem Gap.of_blanks {rest before blanks : List Char} (all : ∀ c ∈ blanks, isBlank c = true) :
    Gap rest before blanks [] := by
  simpa using Gap.blanks all .none

/-! ## Comments and strings -/

namespace CommentScan

theorem blockRest?_eq_some {cs more : List Char} (h : blockRest? cs = some more) :
    ∃ body, more = body ++ ['*', '/'] ∧ ¬['*', '/'] <:+: body ++ ['*'] := by
  fun_induction blockRest? cs generalizing more with
  | case1 =>
      cases h
      exact ⟨[], rfl, by decide⟩
  | case2 c rest other ih =>
      obtain ⟨tail, found, rfl⟩ := Option.map_eq_some_iff.mp h
      obtain ⟨body, rfl, first⟩ := ih found
      refine ⟨c :: body, rfl, fun early => ?_⟩
      obtain here | later := List.infix_cons_iff.mp early
      · obtain ⟨rfl, slash⟩ := List.cons_prefix_cons.mp here
        obtain ⟨tail, same⟩ := blockRest?_isPrefix found
        cases body with
        | nil => cases (List.cons_prefix_cons.mp slash).1
        | cons d body =>
            cases (List.cons_prefix_cons.mp slash).1
            exact other _ rfl same.symm
      · exact first later
  | case3 => cases h

theorem blockRest?_eq_none {cs : List Char} (h : blockRest? cs = none) : ¬['*', '/'] <:+: cs := by
  fun_induction blockRest? cs with
  | case1 => cases h
  | case2 c rest other ih =>
      intro closed
      obtain here | later := List.infix_cons_iff.mp closed
      · obtain ⟨rfl, slash⟩ := List.cons_prefix_cons.mp here
        obtain ⟨tail, rfl⟩ := slash
        exact other tail rfl rfl
      · exact ih (Option.map_eq_none_iff.mp h) later
  | case3 => decide

theorem isComment_of_first {cs text : List Char} (h : first cs = .found text) :
    ∃ rest, cs = text ++ rest ∧ IsComment rest text := by
  unfold first at h
  split at h
  · next rest =>
      cases h
      refine ⟨rest.dropWhile (· ≠ '\n'), by simp, .line ?_ ?_⟩
      · intro mem
        have other := List.all_eq_true.mp List.all_takeWhile _ mem
        simp at other
      · intro c mem
        have stopped := List.head?_dropWhile_not (fun c : Char => decide (c ≠ '\n')) rest
        rw [Option.mem_def.mp mem] at stopped
        simpa using stopped
  · split at h
    · next rest more found =>
        cases h
        obtain ⟨body, rfl, first⟩ := blockRest?_eq_some found
        obtain ⟨behind, same⟩ := blockRest?_isPrefix found
        exact ⟨behind, by simpa using same.symm, .block first⟩
    · cases h
  · cases h

theorem unfinished_of_first {cs : List Char} (h : first cs = .unclosed) : Unfinished cs := by
  unfold first at h
  split at h
  · cases h
  · split at h
    · cases h
    · next unclosed => exact .comment (blockRest?_eq_none unclosed)
  · cases h

end CommentScan

namespace Lexeme

theorem unclosed_of_stringRest? {quote : Char} {cs : List Char} (h : stringRest? quote cs = none) :
    Unclosed quote cs := by
  fun_induction stringRest? quote cs with
  | case1 => exact .nil
  | case2 => exact .backslash
  | case3 c cs ih => exact .escaped (ih (Option.map_eq_none_iff.mp h))
  | case4 => cases h
  | case5 c cs lone escaped other ih =>
      exact .plain other (ne_backslash lone escaped) (ih (Option.map_eq_none_iff.mp h))

theorem unfinished_of_first? {cs : List Char} (h : first? cs = none) : Unfinished cs := by
  cases cs with
  | nil => exact .nothing
  | cons c cs =>
      simp only [first?] at h
      split at h
      · cases h
      split at h
      · cases h
      split at h
      · split at h <;> cases h
      split at h
      · cases h
      split at h
      · next quotes =>
          exact .string quotes (unclosed_of_stringRest? (Option.map_eq_none_iff.mp h))
      · cases h

end Lexeme

/-! ## Taking tokens -/

namespace Source

variable {text : List Char} {s s' : Source} {comments : List Comment} {t : Token}

theorem Within.skipBlanks (within : s.Within text) :
    ∃ blanks, (∀ c ∈ blanks, isBlank c = true) ∧
      s.remaining = blanks ++ s.skipBlanks.remaining ∧ s.skipBlanks.Within text ∧
      s.skipBlanks.before = s.before ++ blanks := by
  have ahead : s.remaining = s.remaining.takeWhile isBlank ++ s.remaining.dropWhile isBlank := by
    simp
  obtain ⟨moved, passed, left⟩ := within.advance_length ahead
  refine ⟨_, List.all_eq_true.mp List.all_takeWhile, ?_, moved, passed⟩
  rw [Source.skipBlanks, left]
  exact ahead

/-- A gap with these comments comes next, and then `rest`. -/
structure Passes (s : Source) (gap : List Char) (comments : List Comment) (rest : List Char) :
    Prop where
  split : s.remaining = gap ++ rest
  isGap : Gap rest s.before gap comments

/-- Behind a gap, this token comes next, at its place, and then what `s'` has yet to read. -/
structure Takes (s : Source) (gap : List Char) (comments : List Comment) (t : Token)
    (s' : Source) : Prop extends Passes s gap comments (t.text.toList ++ s'.remaining) where
  nonempty : t.text ≠ ""
  place : t.location = .behind (s.before ++ gap)

/-- Behind a gap, no token comes next. -/
structure Stalls (s : Source) (gap : List Char) (comments : List Comment) (tail : List Char) :
    Prop extends Passes s gap comments tail where
  unfinished : Unfinished tail

/-- What comes next behind blanks and a comment, seen from before them. -/
theorem Passes.behind_comment {blanks comment gap rest : List Char}
    (next : s'.Passes gap comments rest) (allBlank : ∀ c ∈ blanks, isBlank c = true)
    (whole : IsComment s'.remaining comment) (ahead : s.remaining = blanks ++ (comment ++ s'.remaining))
    (passed : s'.before = s.before ++ blanks ++ comment) :
    s.Passes (blanks ++ (comment ++ gap))
      (⟨String.ofList comment, .behind (s.before ++ blanks)⟩ :: comments) rest := by
  refine ⟨by simp [ahead, next.split], .blanks allBlank (.comment ?_ ?_)⟩
  · rw [← next.split]
    exact whole
  · rw [← passed]
    exact next.isGap

theorem Within.stalls (within : s.Within text) (unfinished : Unfinished s.skipBlanks.remaining) :
    s.skipBlanks.Within text ∧ ∃ gap, s.Stalls gap [] s.skipBlanks.remaining := by
  obtain ⟨blanks, allBlank, ahead, moved, -⟩ := within.skipBlanks
  exact ⟨moved, blanks, ⟨ahead, .of_blanks allBlank⟩, unfinished⟩

/-- What taking a token does: it passes a gap and a token, or a gap and all the rest. -/
theorem Within.tokenAfter_cases (within : s.Within text) (comments : List Comment) :
    (s.tokenAfter comments).2.Within text ∧ ∃ gap more,
      (∃ t s', s.tokenAfter comments = (some t, s') ∧ t.comments = comments ++ more ∧
        s.Takes gap more t s') ∨
      ∃ tail s', s.tokenAfter comments = (none, s') ∧ s.Stalls gap more tail ∧
        s'.remaining = [] := by
  fun_induction Source.tokenAfter comments s with
  | case1 comments s here comment found ih =>
      obtain ⟨blanks, allBlank, ahead, moved, passed⟩ := within.skipBlanks
      obtain ⟨rest, same, whole⟩ := CommentScan.isComment_of_first found
      obtain ⟨further, passed', left⟩ := moved.advance_length same
      obtain ⟨kept, gap, more, result⟩ := ih further
      have place : here.location = .behind (s.before ++ blanks) := by rw [← passed, moved.place]
      have behind {rest : List Char} (next : Passes _ gap more rest) :=
        next.behind_comment (s := s) allBlank (left ▸ whole) (by rw [left, ahead, same])
          (by rw [passed', passed])
      rw [← place] at behind
      refine ⟨kept, blanks ++ (comment ++ gap), ⟨String.ofList comment, here.location⟩ :: more, ?_⟩
      obtain ⟨t, s', taken, kept, takes⟩ | ⟨tail, s', taken, stalls, nothing⟩ := result
      · refine .inl ⟨t, s', taken, by simp [kept], behind takes.toPasses, takes.nonempty, ?_⟩
        rw [takes.place, passed', passed]
        simp
      · exact .inr ⟨tail, s', taken, ⟨behind stalls.toPasses, stalls.unfinished⟩, nothing⟩
  | case2 comments s here unclosed =>
      obtain ⟨moved, gap, stalls⟩ := within.stalls (CommentScan.unfinished_of_first unclosed)
      exact ⟨moved.toEnd, gap, [], .inr ⟨_, _, rfl, stalls, by simp⟩⟩
  | case3 comments s here absent kind text found =>
      obtain ⟨blanks, allBlank, ahead, moved, passed⟩ := within.skipBlanks
      obtain ⟨rest, same⟩ := Lexeme.isPrefix_of_first? found
      obtain ⟨further, -, left⟩ := moved.advance_length same.symm
      have nonempty := (Lexeme.length_pos_of_first? found).1
      refine ⟨further, blanks, [], .inl ⟨_, _, rfl, by simp, ⟨?_, .of_blanks allBlank⟩, ?_, ?_⟩⟩
      · rw [ahead, left, String.toList_ofList, same]
      · intro empty
        rw [String.ofList_eq_empty_iff.mp empty] at nonempty
        cases nonempty
      · rw [← passed]
        exact moved.place
  | case4 comments s here absent found =>
      obtain ⟨moved, gap, stalls⟩ := within.stalls (Lexeme.unfinished_of_first? found)
      exact ⟨moved.toEnd, gap, [], .inr ⟨_, _, rfl, stalls, by simp⟩⟩

end Source

end Scriptlet
