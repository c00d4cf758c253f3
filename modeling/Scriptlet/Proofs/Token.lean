import Scriptlet.Token

/-! # Taking tokens off a source

What `tokenAfter` does behind the blanks, one equation for each of the things that can
stand there. No token depends on the name of its source.
-/

namespace Scriptlet.Source

variable {comments : List Comment} {s : Source} {text : List Char} {kind : Kind}

theorem tokenAfter_of_found (found : CommentScan.first s.skipBlanks.remaining = .found text) :
    s.tokenAfter comments = (s.skipBlanks.advance text.length).tokenAfter
      (comments ++ [⟨String.ofList text, s.skipBlanks.location⟩]) := by
  rw [tokenAfter]
  split
  · next other =>
      cases other.symm.trans found
      rfl
  · next other => cases other.symm.trans found
  · next other => cases other.symm.trans found

theorem tokenAfter_of_unclosed (unclosed : CommentScan.first s.skipBlanks.remaining = .unclosed) :
    s.tokenAfter comments = (none, s.skipBlanks.toEnd) := by
  rw [tokenAfter]
  split
  · next other => cases other.symm.trans unclosed
  · rfl
  · next other => cases other.symm.trans unclosed

theorem tokenAfter_of_absent (absent : CommentScan.first s.skipBlanks.remaining = .absent) :
    s.tokenAfter comments =
      match Lexeme.first? s.skipBlanks.remaining with
      | some (kind, text) =>
          (some { kind, text := String.ofList text, location := s.skipBlanks.location, comments },
            s.skipBlanks.advance text.length)
      | none => (none, s.skipBlanks.toEnd) := by
  rw [tokenAfter]
  split
  · next other => cases other.symm.trans absent
  · next other => cases other.symm.trans absent
  · rfl

theorem tokenAfter_of_first? (absent : CommentScan.first s.skipBlanks.remaining = .absent)
    (found : Lexeme.first? s.skipBlanks.remaining = some (kind, text)) :
    s.tokenAfter comments =
      (some { kind, text := String.ofList text, location := s.skipBlanks.location, comments },
        s.skipBlanks.advance text.length) := by
  rw [tokenAfter_of_absent absent, found]

theorem tokenAfter_of_first?_none (absent : CommentScan.first s.skipBlanks.remaining = .absent)
    (nothing : Lexeme.first? s.skipBlanks.remaining = none) :
    s.tokenAfter comments = (none, s.skipBlanks.toEnd) := by
  rw [tokenAfter_of_absent absent, nothing]

/-- Nothing comes after the end of a text. -/
theorem token_of_remaining_nil (h : s.remaining = []) :
    s.token.1 = none ∧ s.token.2.remaining = [] := by
  have here : s.skipBlanks.remaining = [] := by simp [skipBlanks, h]
  have nothing : s.token = _ := tokenAfter_of_first?_none (by rw [here]; rfl) (by rw [here]; rfl)
  rw [nothing]
  exact ⟨rfl, by simp⟩

theorem tokens_of_token {t : Token} {s' : Source} (taken : s.token = (some t, s')) :
    s.tokens.1 = t :: s'.tokens.1 := by
  rw [tokens, taken]

theorem tokens_of_remaining_nil (h : s.remaining = []) : s.tokens.1 = [] := by
  have nothing : s.token = (none, s.token.2) := Prod.ext (token_of_remaining_nil h).1 rfl
  rw [tokens, nothing]

/-! ## Names of sources

What a source is called plays no part in its tokens.
-/

/-- The same source under another name. -/
def named (s : Source) (name : Option String) : Source :=
  { s with name }

theorem read_named (s : Source) (name : Option String) :
    (s.named name).read = (s.read.1, s.read.2.named name) := by
  obtain ⟨_, _, _ | ⟨c, cs⟩, _ | ⟨d, ds⟩, _⟩ := s <;> rfl

theorem advance_named (s : Source) (name : Option String) (n : Nat) :
    (s.named name).advance n = (s.advance n).named name := by
  induction n generalizing s with
  | zero => rfl
  | succ n ih =>
      rw [advance, advance, read_named]
      exact ih _

theorem tokenAfter_named (comments : List Comment) (s : Source) (name : Option String) :
    (s.named name).tokenAfter comments =
      ((s.tokenAfter comments).1, (s.tokenAfter comments).2.named name) := by
  have blanks (s : Source) : (s.named name).skipBlanks = s.skipBlanks.named name :=
    advance_named s name _
  fun_induction tokenAfter comments s with
  | case1 comments s here text found ih =>
      rw [tokenAfter_of_found (by rw [blanks]; exact found), blanks, advance_named]
      exact ih
  | case2 comments s here unclosed =>
      rw [tokenAfter_of_unclosed (by rw [blanks]; exact unclosed), blanks]
      exact congrArg (none, ·) (advance_named _ _ _)
  | case3 comments s here absent kind text first =>
      rw [tokenAfter_of_first? (by rw [blanks]; exact absent) (by rw [blanks]; exact first),
        blanks, advance_named]
      rfl
  | case4 comments s here absent nothing =>
      rw [tokenAfter_of_first?_none (by rw [blanks]; exact absent) (by rw [blanks]; exact nothing),
        blanks]
      exact congrArg (none, ·) (advance_named _ _ _)

theorem tokens_named (s : Source) (name : Option String) :
    (s.named name).tokens = (s.tokens.1, s.tokens.2.named name) := by
  fun_induction tokens s with
  | case1 s t rest taken more last same ih =>
      have taken' : (s.named name).token = (some t, rest.named name) := by
        rw [token, tokenAfter_named, show s.tokenAfter [] = _ from taken]
      rw [tokens, taken']
      simp only [ih, same]
  | case2 s rest nothing =>
      have nothing' : (s.named name).token = (none, rest.named name) := by
        rw [token, tokenAfter_named, show s.tokenAfter [] = _ from nothing]
      rw [tokens, nothing']

end Scriptlet.Source
