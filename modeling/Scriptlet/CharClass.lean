/-! # Classes of characters

Which characters may stand where in a token. Names and digits are plain ASCII;
blanks are all characters with the Unicode property `White_Space`.
-/

namespace Scriptlet.CharClass

/-- Characters with the Unicode property `White_Space`. -/
def isBlank (c : Char) : Bool :=
  let n := c.toNat
  (0x09 ≤ n && n ≤ 0x0D) || n == 0x20 || n == 0x85 || n == 0xA0 || n == 0x1680 ||
    (0x2000 ≤ n && n ≤ 0x200A) || n == 0x2028 || n == 0x2029 || n == 0x202F ||
    n == 0x205F || n == 0x3000

/-- Characters that are a token of their own. -/
def isSeparator (c : Char) : Bool :=
  c ∈ ['(', ')', '\x7b', '\x7d', '[', ']', ';']

/-- Characters that operators are made of. -/
def isOperator (c : Char) : Bool :=
  c ∈ ['+', '-', '*', '/', '%', '<', '=', '>', '?', ':', '!', '&', '|', '^', '~', ',', '.']

/-- Characters that a name may begin with. -/
def startsSymbol (c : Char) : Bool :=
  c.isAlpha || c == '_' || c == '$'

/-- Characters that a name may go on with. -/
def continuesSymbol (c : Char) : Bool :=
  c.isAlphanum || c == '_' || c == '$'

/-- Characters that open a string, and close it again. -/
def isQuote (c : Char) : Bool :=
  c == '\'' || c == '"'

/-- What a digit or a letter is worth as a digit, if it is one in base `radix`. -/
def digit? (radix : Nat) (c : Char) : Option Nat :=
  let value :=
    if c.isDigit then some (c.toNat - '0'.toNat)
    else if c.isLower then some (c.toNat - 'a'.toNat + 10)
    else if c.isUpper then some (c.toNat - 'A'.toNat + 10)
    else none
  value.filter (· < radix)

/-- Digits in base `radix`. -/
def isDigitIn (radix : Nat) (c : Char) : Bool :=
  (digit? radix c).isSome

end Scriptlet.CharClass
