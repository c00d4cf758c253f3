import Scriptlet.CharClass
import Scriptlet.Numeral

/-! # Lexemes

A lexeme is a piece of source text with the class it belongs to. `first?` finds the
lexeme at the front of a text: the first character decides its class, and each class
then takes as many characters as fit. Comments are found by `CommentScan.first`.
-/

namespace Scriptlet

open CharClass

/-- The classes of source text. -/
inductive Kind where
  /-- A run of operator characters, whether or not it is a known operator. -/
  | operator
  /-- A name or a keyword. -/
  | symbol
  /-- A bracket or a semicolon. -/
  | separator
  | number
  | string
  /-- A character that has no place in the language. -/
  | other
  | comment
  deriving Repr, DecidableEq

/-- A piece of source text and its class. -/
structure Lexeme where
  kind : Kind
  text : String
  deriving Repr, DecidableEq

namespace Lexeme

def operator (text : String) : Lexeme := ⟨.operator, text⟩

def symbol (text : String) : Lexeme := ⟨.symbol, text⟩

def separator (c : Char) : Lexeme := ⟨.separator, c.toString⟩

/-- How messages name a lexeme. -/
def describe (l : Lexeme) : String :=
  match l.kind with
  | .operator => "operator '" ++ l.text ++ "'"
  | .symbol => "symbol '" ++ l.text ++ "'"
  | .separator => "'" ++ l.text ++ "'"
  | .number => "number " ++ l.text
  | .string => "string " ++ l.text
  | .other => "character '" ++ l.text ++ "'"
  | .comment => "comment"

/-- The operator characters at the front of a text, up to where a comment opens. -/
def operatorRun : List Char → List Char
  | '/' :: c :: rest =>
      if c = '/' ∨ c = '*' then [] else '/' :: operatorRun (c :: rest)
  | c :: rest => if isOperator c then c :: operatorRun rest else []
  | [] => []

/-- The longest numeral at the front of a text. A point at its end is left to what
    follows when that is another point or a name. -/
def numeralRun (cs : List Char) : List Char :=
  let numeral := Numeral.longest cs
  let follower := (cs.drop numeral.length).head?
  if numeral.length > 1 && numeral.getLast? == some '.' &&
      follower.any (fun c => c == '.' || startsSymbol c) then
    numeral.dropLast
  else numeral

/-- The rest of a string, through the closing quote. A backslash keeps the next
    character from closing it; a string may also never be closed. -/
def stringRest? (quote : Char) : List Char → Option (List Char)
  | [] => none
  | '\\' :: [] => none
  | '\\' :: c :: rest => (stringRest? quote rest).map ('\\' :: c :: ·)
  | c :: rest => if c = quote then some [c] else (stringRest? quote rest).map (c :: ·)

/-- The class and the characters of the lexeme at the front of a text, which begins
    neither with a blank nor with a comment. A string that is never closed is no
    lexeme. -/
def first? : List Char → Option (Kind × List Char)
  | [] => none
  | c :: rest =>
      if isSeparator c then some (.separator, [c])
      else if startsSymbol c then some (.symbol, c :: rest.takeWhile continuesSymbol)
      else if c.isDigit || c == '.' then
        let numeral := numeralRun (c :: rest)
        -- a point that begins no numeral begins an operator
        if numeral.isEmpty then some (.operator, c :: operatorRun rest)
        else some (.number, numeral)
      else if isOperator c then some (.operator, c :: operatorRun rest)
      else if isQuote c then (stringRest? c rest).map fun more => (.string, c :: more)
      else some (.other, [c])

/-- No lexeme is empty. -/
theorem length_pos_of_first? {cs text : List Char} {kind : Kind}
    (h : first? cs = some (kind, text)) : 0 < text.length ∧ 0 < cs.length := by
  cases cs with
  | nil => simp [first?] at h
  | cons c rest =>
      refine ⟨?_, by simp⟩
      rw [List.length_pos_iff]
      intro empty
      subst empty
      simp only [first?] at h
      split at h <;> try simp at h
      split at h <;> try simp at h
      split at h
      · split at h <;> simp_all
      · split at h <;> try simp at h
        split at h <;> simp at h

end Lexeme

/-- What a text begins with, as far as comments go. -/
inductive CommentScan where
  /-- No comment. -/
  | absent
  /-- A comment between slash-star and star-slash that is never closed. -/
  | unclosed
  /-- A whole comment. -/
  | found (text : List Char)
  deriving Repr, DecidableEq

namespace CommentScan

/-- The rest of a bracketed comment, through the first closing mark. -/
def blockRest? : List Char → Option (List Char)
  | '*' :: '/' :: _ => some ['*', '/']
  | c :: rest => (blockRest? rest).map (c :: ·)
  | [] => none

/-- Look for a comment at the front of a text. One that begins with two slashes ends
    before the next newline. -/
def first : List Char → CommentScan
  | '/' :: '/' :: rest => .found ('/' :: '/' :: rest.takeWhile (· ≠ '\n'))
  | '/' :: '*' :: rest =>
      match blockRest? rest with
      | some more => .found ('/' :: '*' :: more)
      | none => .unclosed
  | _ => .absent

/-- No comment is empty. -/
theorem length_pos_of_first {cs text : List Char} (h : first cs = .found text) :
    0 < text.length ∧ 0 < cs.length := by
  unfold first at h
  split at h
  · cases h; simp
  · split at h
    · cases h; simp
    · cases h
  · cases h

end CommentScan

end Scriptlet
