import Scriptlet.CharClass

/-! # Quoted text

`decode` gives the text that a string literal stands for, and `quote` writes a text
as a literal.
-/

namespace Scriptlet.Text.Quoted

open CharClass

/-- Read hexadecimal digits as the number of a character. One plus sign may stand in
    front, as in any number. -/
def charOfHex? (hex : List Char) : Option Char :=
  let digits := if hex.head? = some '+' then hex.drop 1 else hex
  if digits.isEmpty then none
  else
    match digits.foldlM (fun n c => (digit? 16 c).map (16 * n + ·)) 0 with
    | some n => if n.isValidChar then some (Char.ofNat n) else none
    | none => none

/-- The character with the number `hex`; text that is no such number stays as it
    is, behind the letter that announced it. -/
def charOrText (letter : Char) (hex : List Char) : List Char :=
  match charOfHex? hex with
  | some c => [c]
  | none => letter :: hex

/-- What a backslash and the character `c` stand for, when `c` announces no
    number. -/
def escaped (c : Char) : List Char :=
  match c with
  | 'n' => ['\n']
  | 't' => ['\t']
  | 'r' => ['\r']
  | 'b' => ['\x08']
  | 'f' => ['\x0c']
  | 'v' => ['\x0b']
  | '0' => ['\x00']
  | '\n' => []
  | c => [c]

/-- Replace the escapes in the text between two quotes. A backslash at the very end
    stands for nothing. -/
def decodeBody (cs : List Char) : List Char :=
  match cs with
  | [] => []
  | ['\\'] => []
  | '\\' :: 'x' :: rest => charOrText 'x' (rest.take 2) ++ decodeBody (rest.drop 2)
  | '\\' :: 'u' :: '\x7b' :: rest =>
      charOrText 'u' (rest.takeWhile (· ≠ '\x7d')) ++
        decodeBody ((rest.dropWhile (· ≠ '\x7d')).drop 1)
  | '\\' :: 'u' :: rest => charOrText 'u' (rest.take 4) ++ decodeBody (rest.drop 4)
  | '\\' :: c :: rest => escaped c ++ decodeBody rest
  | c :: rest => c :: decodeBody rest
termination_by cs.length
decreasing_by
  all_goals simp
  all_goals try omega
  have := (List.dropWhile_sublist (l := rest) (· ≠ '\x7d')).length_le
  simp at this
  omega

/-- The text between the quotes. The first character is the opening quote, and the
    last one is left out only if it is the same. -/
def body : List Char → List Char
  | [] => []
  | quote :: rest => if rest.getLast? = some quote then rest.dropLast else rest

/-- The text that a string literal stands for. -/
def decode (literal : String) : String :=
  String.ofList (decodeBody (body literal.toList))

/-- Put a backslash before the characters that would end a literal early. -/
def protect (c : Char) : List Char :=
  if c = '\\' ∨ c = '\'' then ['\\', c] else [c]

/-- Write a text as a literal in single quotes. -/
def quote (text : String) : String :=
  String.ofList ('\'' :: text.toList.flatMap protect ++ ['\''])

end Scriptlet.Text.Quoted
