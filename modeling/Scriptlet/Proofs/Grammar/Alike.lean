import Scriptlet.Lexer
import Scriptlet.Proofs.Grammar.Composition
import Scriptlet.Proofs.Parse
import Scriptlet.Proofs.Token

/-! # Only what is ahead counts

Tokens are made of the characters that are still to be read, wherever a source keeps them. So two
sources with the same characters ahead have the same tokens, apart from places, and what is parsed
from them is the same as well.
-/

namespace Scriptlet

/-! ## Tokens -/

namespace Source

variable {s₁ s₂ : Source}

theorem remaining_skipBlanks_congr (same : s₁.remaining = s₂.remaining) :
    s₁.skipBlanks.remaining = s₂.skipBlanks.remaining := by
  simp [skipBlanks, same]

/-- What is taken off a source, and what it leaves, is a matter of what is ahead. -/
theorem tokenAfter_alike (comments₁ : List Comment) (s₁ : Source) :
    ∀ (s₂ : Source) (comments₂ : List Comment), s₁.remaining = s₂.remaining →
      comments₁.map Comment.unplaced = comments₂.map Comment.unplaced →
      (s₁.tokenAfter comments₁).1.map Token.unplaced =
          (s₂.tokenAfter comments₂).1.map Token.unplaced ∧
        (s₁.tokenAfter comments₁).2.remaining = (s₂.tokenAfter comments₂).2.remaining := by
  fun_induction tokenAfter comments₁ s₁ with
  | case1 comments₁ s₁ here text found ih =>
      intro s₂ comments₂ same sameComments
      have ahead : here.remaining = s₂.skipBlanks.remaining := remaining_skipBlanks_congr same
      rw [tokenAfter_of_found (s := s₂) (ahead ▸ found)]
      apply ih
      · simp [ahead]
      · simp [sameComments, Comment.unplaced]
  | case2 comments₁ s₁ here unclosed =>
      intro s₂ comments₂ same sameComments
      have ahead : here.remaining = s₂.skipBlanks.remaining := remaining_skipBlanks_congr same
      rw [tokenAfter_of_unclosed (s := s₂) (ahead ▸ unclosed)]
      simp
  | case3 comments₁ s₁ here absent kind text found =>
      intro s₂ comments₂ same sameComments
      have ahead : here.remaining = s₂.skipBlanks.remaining := remaining_skipBlanks_congr same
      rw [tokenAfter_of_first? (s := s₂) (ahead ▸ absent) (ahead ▸ found)]
      simp [Token.unplaced, sameComments, ahead]
  | case4 comments₁ s₁ here absent found =>
      intro s₂ comments₂ same sameComments
      have ahead : here.remaining = s₂.skipBlanks.remaining := remaining_skipBlanks_congr same
      rw [tokenAfter_of_first?_none (s := s₂) (ahead ▸ absent) (ahead ▸ found)]
      simp

theorem token_alike (same : s₁.remaining = s₂.remaining) :
    s₁.token.1.map Token.unplaced = s₂.token.1.map Token.unplaced ∧
      s₁.token.2.remaining = s₂.token.2.remaining :=
  tokenAfter_alike [] s₁ s₂ [] same rfl

theorem tokens_alike (same : s₁.remaining = s₂.remaining) :
    s₁.tokens.1.map Token.unplaced = s₂.tokens.1.map Token.unplaced ∧
      s₁.tokens.2.remaining = s₂.tokens.2.remaining := by
  fun_induction tokens s₁ generalizing s₂ with
  | case1 s₁ t rest taken more last rest_tokens ih =>
      obtain ⟨sameToken, left⟩ := token_alike same
      rw [taken] at sameToken left
      rw [rest_tokens] at ih
      cases taken₂ : s₂.token with
      | mk found₂ rest₂ =>
          rw [taken₂] at sameToken left
          cases found₂ with
          | none => cases sameToken
          | some u =>
              obtain ⟨sameRest, leftRest⟩ := ih left
              rw [tokens, taken₂]
              exact ⟨by simpa using ⟨by simpa using sameToken, sameRest⟩, leftRest⟩
  | case2 s₁ rest nothing =>
      obtain ⟨sameToken, left⟩ := token_alike same
      rw [nothing] at sameToken left
      have nothing₂ : s₂.token = (none, s₂.token.2) :=
        Prod.ext (Option.map_eq_none_iff.mp sameToken.symm) rfl
      rw [tokens, nothing₂]
      exact ⟨rfl, left⟩

end Source

namespace Lexer

/-- Apart from places, the same tokens were given back to the lexers, and the same characters are
    ahead of their sources. -/
structure Alike (l₁ l₂ : Lexer) : Prop where
  pending : l₁.pending.map Token.unplaced = l₂.pending.map Token.unplaced
  ahead : l₁.source.remaining = l₂.source.remaining

variable {l₁ l₂ : Lexer}

theorem Alike.read (alike : Alike l₁ l₂) :
    l₁.read.1.map Token.unplaced = l₂.read.1.map Token.unplaced ∧ Alike l₁.read.2 l₂.read.2 := by
  obtain ⟨s₁, pending₁⟩ := l₁
  obtain ⟨s₂, pending₂⟩ := l₂
  obtain ⟨pending, ahead⟩ := alike
  match pending₁, pending₂, pending with
  | [], [], _ =>
      obtain ⟨same, left⟩ := Source.token_alike ahead
      exact ⟨same, rfl, left⟩
  | t :: rest₁, u :: rest₂, pending =>
      obtain ⟨same, rest⟩ := List.cons.inj pending
      exact ⟨congrArg some same, rest, ahead⟩

/-- The token that is read behind `n` others. -/
def nth (l : Lexer) : Nat → Option Token
  | 0 => l.read.1
  | n + 1 => l.read.2.nth n

theorem Alike.nth (alike : Alike l₁ l₂) (n : Nat) :
    (l₁.nth n).map Token.unplaced = (l₂.nth n).map Token.unplaced := by
  induction n generalizing l₁ l₂ with
  | zero => exact alike.read.1
  | succ n ih => exact ih alike.read.2

theorem Alike.readAll (alike : Alike l₁ l₂) :
    l₁.readAll.1.map Token.unplaced = l₂.readAll.1.map Token.unplaced := by
  simp [Lexer.readAll, alike.pending, (Source.tokens_alike alike.ahead).1]

end Lexer

/-! ## Parsing -/

/-- The same error at the start of a text. -/
def ParseError.unplaced (e : ParseError) : ParseError :=
  { e with location := .start, token := e.token.map Token.unplaced }

/-- A message does not tell where it was. -/
theorem ParseError.detail_unplaced (e : ParseError) : e.unplaced.detail = e.detail := by
  obtain ⟨cause, place, _ | t⟩ := e <;> rfl

namespace Parse

variable {α β : Type}

/-- What comes of a parser, without places. -/
def unplaced (f : α → α) : EStateM.Result ParseError Tokens α → EStateM.Result ParseError Tokens α
  | .ok a s => .ok (f a) s.unplaced
  | .error e s => .error e.unplaced s.unplaced

/-- On a row without places, the second parser does what the first does with places. -/
def Forgets (f : α → α) (p p' : Parse α) : Prop :=
  ∀ s, p' s.unplaced = unplaced f (p s)

theorem Forgets.bind {f : α → α} {g : β → β} {p p' : Parse α} {q q' : α → Parse β}
    (first : Forgets f p p') (second : ∀ a, Forgets g (q a) (q' (f a))) :
    Forgets g (p >>= q) (p' >>= q') := by
  intro s
  have forgotten := first s
  cases ran : p s with
  | ok a s₁ =>
      rw [ran] at forgotten
      rw [bind_of_ok ran, bind_of_ok forgotten]
      exact second a s₁
  | error e s₁ =>
      rw [ran] at forgotten
      rw [bind_of_error ran, bind_of_error forgotten]
      rfl

theorem Forgets.map {f : α → α} {g : β → β} {h : α → β} {p p' : Parse α} (first : Forgets f p p')
    (same : ∀ a, g (h a) = h (f a)) : Forgets g (h <$> p) (h <$> p') := by
  rw [map_eq_pure_bind, map_eq_pure_bind]
  refine first.bind fun a s => ?_
  rw [← same]
  rfl

theorem forgets_next : Forgets (Option.map Token.unplaced) next next := by
  intro s
  obtain ⟨_ | ⟨t, rest⟩, stop⟩ := s <;> rfl

theorem forgets_failAtEnd (f : α → α) (cause : ParseError.Cause) :
    Forgets f (failAt cause none) (failAt cause none) := by
  intro s
  obtain ⟨_ | ⟨t, rest⟩, stop⟩ := s <;> rfl

theorem forgets_memberName (op : AccessOp) :
    Forgets Node.unplaced (Grammar.memberName op) (Grammar.memberName op) := by
  refine forgets_next.bind fun r => ?_
  cases r with
  | none => exact forgets_failAtEnd _ _
  | some t => exact Corresponds.branch (fun _ => rfl) fun _ => rfl

/-- All parsers of the grammar work without places as they do with them. -/
theorem corresponds_forgets : Corresponds .unplaced Forgets where
  pure same s := by
    rw [← same]
    rfl
  bind := Forgets.bind
  map := Forgets.map
  get _ := rfl
  next := forgets_next
  failNext _ s := by obtain ⟨_ | ⟨t, rest⟩, stop⟩ := s <;> rfl
  refuseNext _ s := by obtain ⟨_ | ⟨t, rest⟩, stop⟩ := s <;> rfl
  failAtEnd := forgets_failAtEnd _
  memberName := forgets_memberName

theorem forgets_expectEnd : Forgets id expectEnd expectEnd := by
  refine forgets_next.bind fun r => ?_
  cases r with
  | none => exact fun _ => rfl
  | some t => exact fun _ => rfl

theorem forgets_program : Forgets (List.map Node.unplaced) program program := by
  have both := corresponds_forgets.within (maxNesting + 1)
  refine (corresponds_forgets.many both.statement).bind fun statements => ?_
  exact forgets_expectEnd.bind fun _ => corresponds_forgets.pure rfl

/-- Apart from places, the parsers found the same, or refused the text with the same message for
    the same token, and left the same rows. -/
inductive EndsAlike (f : α → α) :
    EStateM.Result ParseError Tokens α → EStateM.Result ParseError Tokens α → Prop where
  | found {a b : α} {s s' : Tokens} (same : f a = f b) (left : s.unplaced = s'.unplaced) :
      EndsAlike f (.ok a s) (.ok b s')
  | refused {e e' : ParseError} {s s' : Tokens} (cause : e.cause = e'.cause)
      (token : e.token.map Token.unplaced = e'.token.map Token.unplaced)
      (message : e.detail = e'.detail) (left : s.unplaced = s'.unplaced) :
      EndsAlike f (.error e s) (.error e' s')

theorem endsAlike_of_unplaced {f : α → α} {r r' : EStateM.Result ParseError Tokens α}
    (same : unplaced f r = unplaced f r') : EndsAlike f r r' := by
  cases r with
  | ok a s =>
      cases r' with
      | ok b s' =>
          injection same with found left
          exact .found found left
      | error => cases same
  | error e s =>
      cases r' with
      | ok => cases same
      | error e' s' =>
          injection same with refused left
          have cause := congrArg ParseError.cause refused
          have token := congrArg ParseError.token refused
          have message : e.detail = e'.detail := by
            rw [← e.detail_unplaced, refused, e'.detail_unplaced]
          exact .refused cause token message left

theorem Forgets.endsAlike {f : α → α} {p : Parse α} {ts₁ ts₂ : Tokens} (forgets : Forgets f p p)
    (alike : ts₁.unplaced = ts₂.unplaced) : EndsAlike f (p ts₁) (p ts₂) := by
  apply endsAlike_of_unplaced
  rw [← forgets ts₁, ← forgets ts₂, alike]

end Parse

namespace Tokens

theorem afterStatement_unplaced (ts : List Token) :
    afterStatement (ts.map Token.unplaced) = (afterStatement ts).map Token.unplaced := by
  induction ts with
  | nil => rfl
  | cons t rest ih =>
      rw [List.map_cons, afterStatement, afterStatement, ih, Token.isSeparator_unplaced,
        Token.isSeparator_unplaced]
      split <;> rfl

theorem synchronize_unplaced (ts : Tokens) : ts.unplaced.synchronize = ts.synchronize.unplaced := by
  simp [synchronize, unplaced, afterStatement_unplaced]

theorem ofSource_alike {s₁ s₂ : Source} (same : s₁.remaining = s₂.remaining) :
    (ofSource s₁).unplaced = (ofSource s₂).unplaced := by
  simp [unplaced, ofSource, (Source.tokens_alike same).1]

end Tokens

namespace Source

open Grammar Parse

/-- What is read and parsed depends on the characters ahead only, however a source came to them
    and wherever it keeps them. Sources with the same characters ahead give the same tokens one by
    one, and all at once; and parsers on such rows of tokens end alike, with the same tree or the
    same message, and leave such rows again. Only places differ. -/
theorem ahead_decides {s₁ s₂ : Source} (same : s₁.remaining = s₂.remaining) :
    (∀ n, (Lexer.nth { source := s₁ } n).map Token.unplaced =
      (Lexer.nth { source := s₂ } n).map Token.unplaced) ∧
    (Lexer.readAll { source := s₁ }).1.map Token.unplaced =
      (Lexer.readAll { source := s₂ }).1.map Token.unplaced ∧
    (Tokens.ofSource s₁).unplaced = (Tokens.ofSource s₂).unplaced ∧
    ∀ ts₁ ts₂ : Tokens, ts₁.unplaced = ts₂.unplaced →
      (∀ d, EndsAlike (Option.map Node.unplaced) (parseStatement (within d) ts₁)
          (parseStatement (within d) ts₂) ∧
        EndsAlike Node.unplaced (parseBlock (within d) ts₁) (parseBlock (within d) ts₂) ∧
        EndsAlike (Option.map Node.unplaced) (parseExpression (within d) ts₁)
          (parseExpression (within d) ts₂)) ∧
      EndsAlike id (expectEnd ts₁) (expectEnd ts₂) ∧
      EndsAlike (List.map Node.unplaced) (program ts₁) (program ts₂) ∧
      ts₁.synchronize.unplaced = ts₂.synchronize.unplaced := by
  have lexers : Lexer.Alike { source := s₁ } { source := s₂ } := ⟨rfl, same⟩
  refine ⟨lexers.nth, lexers.readAll, Tokens.ofSource_alike same, ?_⟩
  intro ts₁ ts₂ alike
  refine ⟨?_, forgets_expectEnd.endsAlike alike, forgets_program.endsAlike alike, ?_⟩
  · intro d
    have both := corresponds_forgets.within d
    exact ⟨(corresponds_forgets.parseStatement both).endsAlike alike,
      (corresponds_forgets.parseBlock both).endsAlike alike,
      (corresponds_forgets.parseExpression both).endsAlike alike⟩
  · rw [← Tokens.synchronize_unplaced, alike, Tokens.synchronize_unplaced]

/-- The characters that one source has still to read stand on the other one's pile. -/
theorem ahead_decides_returned :
    let s₁ := (Source.ofString "xa /* b */ +").read.2
    let s₂ := (Source.ofString " +").unread "a /* b */".toList
    s₁.remaining = s₂.remaining ∧ s₁.returned ≠ s₂.returned ∧
    (Lexer.readAll { source := s₁ }).1 ≠ (Lexer.readAll { source := s₂ }).1 ∧
    (Lexer.readAll { source := s₁ }).1.map Token.unplaced =
      (Lexer.readAll { source := s₂ }).1.map Token.unplaced ∧
    EndsAlike (Option.map Node.unplaced) (statement (.ofSource s₁)) (statement (.ofSource s₂)) := by
  intro s₁ s₂
  have same : s₁.remaining = s₂.remaining := by decide +kernel
  obtain ⟨-, tokens, rows, parsers⟩ := ahead_decides same
  refine ⟨same, by decide +kernel, by decide +kernel, tokens, ?_⟩
  exact ((parsers _ _ rows).1 maxNesting).1

end Source

end Scriptlet
