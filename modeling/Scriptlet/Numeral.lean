import Scriptlet.CharClass
import Scriptlet.Decimal
import Scriptlet.Double

/-! # Numerals

Three readers of numbers: `longest` finds where a numeral in a text ends, `value`
gives what a numeral stands for, and `ofText` converts a whole string, with blanks
around it allowed. The last two answer `nan` for text that is not a numeral.
-/

namespace Scriptlet.Numeral

open CharClass

/-- The base that a letter after a leading zero announces. -/
def radix? (c : Char) : Option Nat :=
  if c = 'x' ∨ c = 'X' then some 16
  else if c = 'o' ∨ c = 'O' then some 8
  else if c = 'b' ∨ c = 'B' then some 2
  else none

/-- The letters that introduce an exponent. -/
def marksExponent (c : Char) : Bool :=
  c == 'e' || c == 'E'

def isSign (c : Char) : Bool :=
  c == '+' || c == '-'

/-! ## Where a numeral ends -/

/-- A sign at the front of a text, if there is one. -/
def leadingSign (cs : List Char) : List Char :=
  (cs.take 1).filter isSign

/-- A point and the digits behind it at the front of a text, or nothing. -/
def leadingFraction : List Char → List Char
  | '.' :: rest => '.' :: rest.takeWhile Char.isDigit
  | _ => []

/-- A whole exponent, digits included, at the front of a text, or nothing. -/
def leadingExponent : List Char → List Char
  | [] => []
  | mark :: rest =>
      let sign := leadingSign rest
      let digits := (rest.drop sign.length).takeWhile Char.isDigit
      if marksExponent mark && !digits.isEmpty then mark :: sign ++ digits else []

/-- The longest decimal numeral at the front of a text. A point alone is none. -/
def longestDecimal (cs : List Char) : List Char :=
  let whole := cs.takeWhile Char.isDigit
  let fraction := leadingFraction (cs.dropWhile Char.isDigit)
  let mantissa := whole ++ fraction
  if mantissa.any Char.isDigit then
    mantissa ++ leadingExponent (cs.drop mantissa.length)
  else []

/-- The longest numeral at the front of a text, or nothing. -/
def longest : List Char → List Char
  | '0' :: letter :: rest =>
      match radix? letter with
      | some radix =>
          let digits := rest.takeWhile (isDigitIn radix)
          if digits.isEmpty then ['0'] else '0' :: letter :: digits
      | none => longestDecimal ('0' :: letter :: rest)
  | cs => longestDecimal cs

/-! ## What a numeral is worth -/

/-- The number that a row of decimal digits stands for. -/
def natOfDigits (digits : List Char) : Nat :=
  digits.foldl (fun n c => 10 * n + (c.toNat - '0'.toNat)) 0

/-- Read a text that may begin with a sign: is it negative, and what follows? -/
def splitSign : List Char → Bool × List Char
  | '-' :: rest => (true, rest)
  | '+' :: rest => (false, rest)
  | cs => (false, cs)

/-- Read all of a text as an exponent; no text stands for zero. -/
def exponent? : List Char → Option Int
  | [] => some 0
  | mark :: rest =>
      let (negative, digits) := splitSign rest
      if marksExponent mark && !digits.isEmpty && digits.all Char.isDigit then
        some (if negative then -(natOfDigits digits : Int) else natOfDigits digits)
      else none

/-- Read all of a text as a decimal without a sign. -/
def decimal? (cs : List Char) : Option Decimal :=
  let whole := cs.takeWhile Char.isDigit
  let fraction := leadingFraction (cs.dropWhile Char.isDigit)
  let digits := whole ++ fraction.drop 1
  if digits.isEmpty then none
  else
    (exponent? (cs.drop (whole ++ fraction).length)).map fun exponent =>
      ⟨natOfDigits digits, exponent - (fraction.drop 1).length⟩

/-- Words for numbers that have no digits, in capitals or not. -/
def word? (cs : List Char) : Option (Bool → Double) :=
  let lower := cs.map Char.toLower
  if lower = "inf".toList ∨ lower = "infinity".toList then
    some fun negative => .signed negative .infinity
  else if lower = "nan".toList then some fun _ => .nan
  else none

/-- Read all of a text as a decimal, or as a word for infinity or `nan`, with or
    without a sign. -/
def signed? (cs : List Char) : Option Double :=
  let (negative, rest) := splitSign cs
  match decimal? rest with
  | some d => some (.signed negative d.magnitude)
  | none => (word? rest).map (· negative)

/-- The number that a row of digits in base `radix` stands for, rounded after every
    digit. -/
def ofRadixDigits (radix : Nat) (digits : List Char) : Double :=
  if digits.isEmpty then .nan
  else
    (digits.foldlM (fun (sum : Double) c =>
      (digit? radix c).map fun d => (sum.mul (.ofInt radix)).add (.ofInt d)) .zero).getD .nan

/-- The number after a zero and the letter of its base, if there is such a
    letter. -/
def radixValue? : List Char → Option Double
  | '0' :: letter :: digits => (radix? letter).map fun radix => ofRadixDigits radix digits
  | _ => none

/-- What a numeral stands for. -/
def value (cs : List Char) : Double :=
  match radixValue? cs with
  | some x => x
  | none => (signed? cs).getD .nan

/-! ## Numbers in strings -/

/-- Cut the blanks off both ends. -/
def trim (cs : List Char) : List Char :=
  ((cs.dropWhile isBlank).reverse.dropWhile isBlank).reverse

/-- Characters of decimal numerals. -/
def isDecimalChar (c : Char) : Bool :=
  c.isDigit || c == '.' || marksExponent c || isSign c

/-- Convert a string to a number. A blank string is zero, and infinity is spelled
    out; text that is not a complete numeral is `nan`. -/
def ofText (cs : List Char) : Double :=
  let text := trim cs
  if text.isEmpty then .zero
  else if text = "Infinity".toList ∨ text = "+Infinity".toList then .infinity
  else if text = "-Infinity".toList then .negInfinity
  else
    match radixValue? text with
    | some x => x
    | none => if text.all isDecimalChar then (signed? text).getD .nan else .nan

end Scriptlet.Numeral
