import Scriptlet.Lexeme
import Scriptlet.Source

/-! # Tokens

A token is a lexeme at its place, together with the comments in front of it.
`Source.token` takes the next token off a source.
-/

namespace Scriptlet

open CharClass

/-- A comment at its place. -/
structure Comment where
  text : String
  location : Location
  deriving Repr, DecidableEq

/-- A lexeme at its place. -/
structure Token extends Lexeme where
  location : Location
  /-- The comments between the token before and this one. -/
  comments : List Comment := []
  deriving Repr, DecidableEq

namespace Token

/-- Is this the operator `text`? -/
def isOperator (t : Token) (text : String) : Bool :=
  t.toLexeme == .operator text

/-- Is this the symbol `text`? -/
def isSymbol (t : Token) (text : String) : Bool :=
  t.toLexeme == .symbol text

/-- Is this the separator `c`? -/
def isSeparator (t : Token) (c : Char) : Bool :=
  t.toLexeme == .separator c

end Token

namespace Source

/-- Pass the blanks at the front. -/
def skipBlanks (s : Source) : Source :=
  s.advance (s.remaining.takeWhile isBlank).length

/-- Taking something behind the blanks leaves less to read. -/
theorem length_remaining_advance_lt {s : Source} {n : Nat}
    (h : 0 < n ∧ 0 < s.skipBlanks.remaining.length) :
    (s.skipBlanks.advance n).remaining.length < s.remaining.length := by
  have shorter : s.skipBlanks.remaining.length ≤ s.remaining.length := by
    simp [skipBlanks]
  rw [remaining_advance, List.length_drop]
  omega

/-- Take the next token, with the comments before it appended to `comments`. There
    is none at the end, nor before a string or a comment that is never closed: then
    everything is read. -/
def tokenAfter (comments : List Comment) (s : Source) : Option Token × Source :=
  let here := s.skipBlanks
  match h : CommentScan.first here.remaining with
  | .found text =>
      tokenAfter (comments ++ [⟨String.ofList text, here.location⟩]) (here.advance text.length)
  | .unclosed => (none, here.toEnd)
  | .absent =>
      match Lexeme.first? here.remaining with
      | some (kind, text) =>
          (some { kind, text := String.ofList text, location := here.location, comments },
            here.advance text.length)
      | none => (none, here.toEnd)
termination_by s.remaining.length
decreasing_by
  exact length_remaining_advance_lt (CommentScan.length_pos_of_first h)

/-- Taking a token leaves less to read. -/
theorem length_remaining_tokenAfter_lt {comments : List Comment} {s : Source} {t : Token}
    (h : (s.tokenAfter comments).1 = some t) :
    (s.tokenAfter comments).2.remaining.length < s.remaining.length := by
  fun_induction tokenAfter comments s with
  | case1 comments s here text found ih =>
      exact Nat.lt_trans (ih h)
        (length_remaining_advance_lt (CommentScan.length_pos_of_first found))
  | case2 => simp at h
  | case3 comments s here absent kind text first =>
      exact length_remaining_advance_lt (Lexeme.length_pos_of_first? first)
  | case4 => simp at h

/-- Take the next token. -/
def token (s : Source) : Option Token × Source :=
  s.tokenAfter []

/-- All tokens that are left, and the source at its end. -/
def tokens (s : Source) : List Token × Source :=
  match _h : s.token with
  | (some t, rest) =>
      let (more, last) := tokens rest
      (t :: more, last)
  | (none, rest) => ([], rest)
termination_by s.remaining.length
decreasing_by
  have taken : (s.tokenAfter []).1 = some t := congrArg Prod.fst _h
  have shorter := length_remaining_tokenAfter_lt taken
  rw [show s.tokenAfter [] = _ from _h] at shorter
  exact shorter

end Source

end Scriptlet
