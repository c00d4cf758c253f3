import Scriptlet.Token

/-! # A source of tokens that takes tokens back

A lexer reads tokens off a source one at a time. Tokens given back are kept and read
first.
-/

namespace Scriptlet

/-- A source, and the tokens that were given back. -/
structure Lexer where
  source : Source
  /-- Tokens to be read before the source is asked again, the next one first. -/
  pending : List Token := []
  deriving Repr, DecidableEq

namespace Lexer

/-- Read the next token, if there is one. -/
def read (l : Lexer) : Option Token × Lexer :=
  match l.pending with
  | t :: rest => (some t, { l with pending := rest })
  | [] =>
      let (token?, source) := l.source.token
      (token?, { source })

/-- Give `tokens` back, so that the following reads return them in order. -/
def unreadAll (l : Lexer) (tokens : List Token) : Lexer :=
  { l with pending := tokens ++ l.pending }

/-- Give one token back. -/
def unread (l : Lexer) (t : Token) : Lexer :=
  l.unreadAll [t]

/-- Look at the next token. It may have to be taken off the source for that. -/
def peek (l : Lexer) : Option Token × Lexer :=
  match l.read with
  | (some t, rest) => (some t, rest.unread t)
  | (none, rest) => (none, rest)

/-- Read everything. -/
def readAll (l : Lexer) : List Token × Lexer :=
  let (tokens, source) := l.source.tokens
  (l.pending ++ tokens, { source })

end Lexer

end Scriptlet
