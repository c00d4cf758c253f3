import Scriptlet.Proofs.Lexer

/-! # Looking ahead

A lexer takes tokens off its source only when it is asked for them, and keeps those that are
given back. Neither shows from outside: a lexer is the row of the tokens that wait to be read
again and, behind them, of those that its source still has. Every request is answered from that
row, so a reader that looks ahead or gives back what it took meets the tokens of the text in
their order.
-/

namespace Scriptlet

namespace Source

/-- Where there is no token, everything is read. -/
theorem remaining_of_tokenAfter_none {comments : List Comment} {s : Source}
    (nothing : (s.tokenAfter comments).1 = none) : (s.tokenAfter comments).2.remaining = [] := by
  fun_induction tokenAfter comments s with
  | case1 comments s here text found ih => exact ih nothing
  | case2 | case4 => exact remaining_toEnd _
  | case3 => cases nothing

theorem tokens_of_token_none {s s' : Source} (nothing : s.token = (none, s')) :
    s.tokens.1 = [] ∧ s'.tokens.1 = [] := by
  constructor
  · rw [tokens, nothing]
  · have absent : s.token.1 = none := congrArg Prod.fst nothing
    have ended := remaining_of_tokenAfter_none absent
    rw [show (s.tokenAfter []).2 = s' from congrArg Prod.snd nothing] at ended
    exact tokens_of_remaining_nil ended

end Source

namespace Lexer

/-- The tokens to come: those that were given back, and behind them those of the source. -/
def stream (l : Lexer) : List Token :=
  l.pending ++ l.source.tokens.1

/-! ## One request -/

/-- A read takes the first token, if there is one. -/
theorem read_stream (l : Lexer) :
    l.read.1 = l.stream.head? ∧ l.read.2.stream = l.stream.tail := by
  obtain ⟨source, _ | ⟨t, rest⟩⟩ := l
  · rw [read_of_idle rfl]
    cases taken : source.token with
    | mk r source' =>
        cases r with
        | none =>
            obtain ⟨before, behind⟩ := Source.tokens_of_token_none taken
            simp [stream, before, behind]
        | some t => simp [stream, Source.tokens_of_token taken]
  · exact ⟨rfl, rfl⟩

theorem stream_unreadAll (l : Lexer) (ts : List Token) :
    (l.unreadAll ts).stream = ts ++ l.stream :=
  List.append_assoc _ _ _

theorem stream_unread (l : Lexer) (t : Token) : (l.unread t).stream = t :: l.stream :=
  l.stream_unreadAll [t]

/-- A look finds the first token and leaves it, also where it has to be taken off the
    source. -/
theorem peek_stream (l : Lexer) : l.peek.1 = l.stream.head? ∧ l.peek.2.stream = l.stream := by
  obtain ⟨answer, rest⟩ := l.read_stream
  cases ran : l.read with
  | mk r left =>
      rw [ran] at answer rest
      cases r with
      | none =>
          have ended : l.stream = [] := List.head?_eq_none_iff.mp answer.symm
          have looked : l.peek = (none, left) := by rw [peek, ran]
          rw [looked]
          exact ⟨answer, by rw [rest, ended]; rfl⟩
      | some t =>
          have looked : l.peek = (some t, left.unread t) := by rw [peek, ran]
          rw [looked]
          refine ⟨answer, ?_⟩
          obtain ⟨more, row⟩ := List.head?_eq_some_iff.mp answer.symm
          rw [stream_unread, rest, row, List.tail_cons]

/-! ## Any number of requests -/

/-- What a lexer can be asked for. -/
inductive Request where
  | read
  | peek
  | unread (t : Token)
  | unreadAll (ts : List Token)
  deriving Repr, DecidableEq

namespace Request

/-- What a lexer answers, and what becomes of it. Where tokens are given back, there is no
    answer. -/
def serve : Request → Lexer → Option Token × Lexer
  | read, l => l.read
  | peek, l => l.peek
  | unread t, l => (none, l.unread t)
  | unreadAll ts, l => (none, l.unreadAll ts)

/-- What a row of tokens answers, and what becomes of it. -/
def serveRow : Request → List Token → Option Token × List Token
  | read, row => (row.head?, row.tail)
  | peek, row => (row.head?, row)
  | unread t, row => (none, t :: row)
  | unreadAll ts, row => (none, ts ++ row)

/-- The answers to requests made one after the other, and what is left in the end. -/
def run {σ : Type} (serve : Request → σ → Option Token × σ) :
    List Request → σ → List (Option Token) × σ
  | [], s => ([], s)
  | r :: rest, s =>
      let (answer, s') := serve r s
      let (answers, last) := run serve rest s'
      (answer :: answers, last)

/-- A lexer answers like the row of its tokens, and goes on like it. -/
theorem serve_stream (r : Request) (l : Lexer) :
    ((r.serve l).1, (r.serve l).2.stream) = r.serveRow l.stream := by
  cases r with
  | read => exact Prod.ext l.read_stream.1 l.read_stream.2
  | peek => exact Prod.ext l.peek_stream.1 l.peek_stream.2
  | unread t => exact congrArg (none, ·) (l.stream_unread t)
  | unreadAll ts => exact congrArg (none, ·) (l.stream_unreadAll ts)

theorem run_stream (requests : List Request) (l : Lexer) :
    ((run serve requests l).1, (run serve requests l).2.stream) =
      run serveRow requests l.stream := by
  induction requests generalizing l with
  | nil => rfl
  | cons r rest ih => simp only [run, ← serve_stream r l, ← ih]

/-- A row that is only read hands out its tokens in their order. -/
theorem run_serveRow_read (n : Nat) (row : List Token) :
    (run serveRow (List.replicate n read) row).1 = (List.range n).map (row[·]?) := by
  induction n generalizing row with
  | zero => rfl
  | succ n ih =>
      rw [List.replicate_succ, List.range_succ_eq_map]
      simp [run, serveRow, ih, List.head?_eq_getElem?, Function.comp_def]

end Request

/-! ## Readers -/

/-- What a reader can do that gives back nothing but what it took. -/
inductive Move where
  | take
  | look
  /-- Give back the last tokens taken, so many of them or as many as there are. -/
  | giveBack (count : Nat)
  deriving Repr, DecidableEq

namespace Move

/-- The tokens that the reader has taken, and what is left of the lexer. -/
def apply : List Token × Lexer → Move → List Token × Lexer
  | (held, l), take => (held ++ l.read.1.toList, l.read.2)
  | (held, l), look => (held, l.peek.2)
  | (held, l), giveBack count =>
      let kept := held.length - count
      (held.take kept, l.unreadAll (held.drop kept))

theorem apply_stream (p : List Token × Lexer) (m : Move) :
    (apply p m).1 ++ (apply p m).2.stream = p.1 ++ p.2.stream := by
  obtain ⟨held, l⟩ := p
  cases m with
  | take =>
      obtain ⟨answer, rest⟩ := l.read_stream
      rw [apply, rest, answer, List.append_assoc]
      cases l.stream <;> rfl
  | look => rw [apply, l.peek_stream.2]
  | giveBack count => simp [apply, stream_unreadAll, ← List.append_assoc]

theorem foldl_apply_stream (moves : List Move) (p : List Token × Lexer) :
    (moves.foldl apply p).1 ++ (moves.foldl apply p).2.stream = p.1 ++ p.2.stream := by
  induction moves generalizing p with
  | nil => rfl
  | cons m moves ih => rw [List.foldl_cons, ih, apply_stream]

end Move

/-- Whatever is asked of a lexer, it answers like the row of its tokens and goes on like it. That
    row is what plain reads hand out. So a reader that looks ahead and gives back tokens that it
    took has always taken the first tokens of the row, and the token that it meets next is the
    next one of the row. -/
theorem lookahead_transparent (l : Lexer) (requests : List Request) (moves : List Move) :
    ((Request.run Request.serve requests l).1, (Request.run Request.serve requests l).2.stream) =
        Request.run Request.serveRow requests l.stream ∧
    (∀ n, (Request.run Request.serve (List.replicate n .read) l).1 =
        (List.range n).map (l.stream[·]?)) ∧
    let (held, left) := moves.foldl Move.apply ([], l)
    held ++ left.stream = l.stream ∧ left.peek.1 = l.stream[held.length]? := by
  refine ⟨Request.run_stream requests l, fun n => ?_, ?_⟩
  · rw [← Request.run_serveRow_read, ← Request.run_stream]
  · have whole : _ = l.stream := Move.foldl_apply_stream moves ([], l)
    refine ⟨whole, ?_⟩
    rw [(peek_stream _).1, ← whole, List.getElem?_append_right (Nat.le_refl _), Nat.sub_self,
      List.head?_eq_getElem?]

end Lexer

end Scriptlet
