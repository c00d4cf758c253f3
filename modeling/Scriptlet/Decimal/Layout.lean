import Scriptlet.Decimal
import Scriptlet.Double

/-! # Writing numbers

A layout holds every decision about the text of a number other than its digits.
-/

namespace Scriptlet

/-- How numbers are written. -/
structure Layout where
  /-- Least exponent of the leading digit that is written positionally. -/
  least : Int
  /-- Largest exponent of the leading digit that is written positionally. -/
  most : Int
  /-- What stands between the mark `e` and an exponent that is not negative. -/
  plus : String
  /-- What follows the digits of a whole number written positionally. -/
  whole : String
  /-- Is the sign of a negative zero written? -/
  signedZero : Bool
  infinity : String
  nan : String

namespace Layout

/-- Digits with the point set before `point` of them: `point` counts the digits in
    front of it, and is zero or negative when zeros have to fill up behind it. -/
def positional (l : Layout) (digits : List Char) (point : Int) : String :=
  if point ≤ 0 then
    "0." ++ String.ofList (List.replicate (-point).toNat '0' ++ digits)
  else
    let n := point.toNat
    if n < digits.length then
      String.ofList (digits.take n) ++ "." ++ String.ofList (digits.drop n)
    else
      String.ofList (digits ++ List.replicate (n - digits.length) '0') ++ l.whole

/-- One digit in front of the point, and the exponent behind the others. -/
def scientific (l : Layout) (digits : List Char) (exponent : Int) : String :=
  let mantissa :=
    match digits with
    | first :: rest@(_ :: _) => String.ofList (first :: '.' :: rest)
    | _ => String.ofList digits
  let sign := if exponent < 0 then "-" else l.plus
  mantissa ++ "e" ++ sign ++ toString exponent.natAbs

/-- The text of a decimal. -/
def writeDecimal (l : Layout) (d : Decimal) : String :=
  let digits := digitsOf d.coefficient
  let point := digits.length + d.exponent
  if l.least < point && point ≤ l.most + 1 then l.positional digits point
  else l.scientific digits (point - 1)

/-- The text of a number. -/
def write (l : Layout) : Double → String
  | .nan => l.nan
  | .signed negative m =>
      let sign := if negative then "-" else ""
      if !m.isFinite then sign ++ l.infinity
      else if m.isZero then (if l.signedZero then sign else "") ++ "0" ++ l.whole
      else sign ++ l.writeDecimal (.shortest m)

/-- How the language itself writes numbers: positionally from a millionth up to,
    but not including, `10 ^ 21`. -/
def display : Layout where
  least := -6
  most := 20
  plus := "+"
  whole := ""
  signedZero := false
  infinity := "Infinity"
  nan := "NaN"

/-- How trees show numbers: whole ones end in `.0`, and exponents are written from
    `10 ^ 16` on and below a ten-thousandth. -/
def detailed : Layout where
  least := -4
  most := 15
  plus := ""
  whole := ".0"
  signedZero := true
  infinity := "inf"
  nan := "NaN"

end Layout

end Scriptlet
