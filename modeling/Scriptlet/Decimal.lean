import Scriptlet.Double.Magnitude

/-! # Decimals and the magnitudes they stand for

Reading rounds a decimal to the nearest magnitude. Writing selects the decimal
with the fewest digits that reads back as the same magnitude.
-/

namespace Scriptlet

/-- The number `coefficient * 10 ^ exponent`. -/
structure Decimal where
  coefficient : Nat
  exponent : Int
  deriving Repr, DecidableEq

/-- The decimal digits of a number, leading one first. -/
def digitsOf (n : Nat) : List Char :=
  Nat.toDigits 10 n

namespace Decimal

/-- The magnitude nearest to a decimal. The exponent is held within bounds behind
    which every number but zero is infinite or rounds to zero, so that no power of
    ten grows out of hand. -/
def magnitude (d : Decimal) : Magnitude :=
  let least : Int := -((digitsOf d.coefficient).length + 330 : Nat)
  let exponent := max least (min d.exponent 310)
  .nearest (d.coefficient * Nat.pow 10 exponent.toNat * Magnitude.one)
    (Nat.pow 10 (-exponent).toNat)

/-- All digits of a finite magnitude. -/
def exact (m : Magnitude) : Decimal :=
  ⟨m.units * Nat.pow 5 1074, -1074⟩

/-- The decimal of `count` digits just above another one of as many digits; after
    nines only, a single digit is left. -/
def above (below : Decimal) (count : Nat) : Decimal :=
  if below.coefficient + 1 = Nat.pow 10 count then ⟨1, below.exponent + count⟩
  else ⟨below.coefficient + 1, below.exponent⟩

/-- Among the decimals of `count` digits, the one nearest to `m` that reads back
    as `m`, where `all` is `m` exactly and has `length` digits. The two neighbours of
    `m` are tried; when both read back and are equally near, the upper one is taken. -/
def withDigits? (m : Magnitude) (all : Decimal) (length count : Nat) : Option Decimal :=
  let dropped := length - count
  let scale := Nat.pow 10 dropped
  let down : Decimal := ⟨all.coefficient / scale, all.exponent + dropped⟩
  let up := above down count
  let nearerDown := 2 * (all.coefficient % scale) < scale
  if up.magnitude = m then
    if nearerDown && down.magnitude = m then some down else some up
  else if down.magnitude = m then some down
  else none

/-- The decimal with the fewest digits that reads back as the finite magnitude
    `m`. Seventeen digits are enough; were they not, all digits would do. -/
def shortest (m : Magnitude) : Decimal :=
  let all := exact m
  let length := (digitsOf all.coefficient).length
  ((List.range 17).findSome? fun n => withDigits? m all length (n + 1)).getD all

end Decimal

end Scriptlet
