import Scriptlet.Double.Magnitude

/-! # Double precision numbers

A double is either no number at all, or a sign and a magnitude; there are two
zeros. The four operations and the remainder give the double nearest to the exact
result.
-/

namespace Scriptlet

/-- A double precision floating point number. -/
inductive Double where
  /-- The result of an operation that has none. -/
  | nan
  | signed (negative : Bool) (magnitude : Magnitude)
  deriving Repr, DecidableEq

namespace Double

def zero : Double := .signed false .zero

def infinity : Double := .signed false .infinity

def negInfinity : Double := .signed true .infinity

instance : Inhabited Double := ⟨zero⟩

def isNaN : Double → Bool
  | nan => true
  | signed _ _ => false

def isZero : Double → Bool
  | nan => false
  | signed _ m => m.isZero

/-- Turn the sign around. -/
def neg : Double → Double
  | nan => nan
  | signed s m => signed (!s) m

/-- The double nearest to `z` units. An exact zero is positive. -/
def ofUnits (z : Int) : Double :=
  signed (decide (z < 0)) (.nearest z.natAbs 1)

/-- The double nearest to a whole number. -/
def ofInt (z : Int) : Double :=
  ofUnits (z * Magnitude.one)

/-- The exact value in units, for a finite magnitude and its sign. -/
def signedUnits (negative : Bool) (m : Magnitude) : Int :=
  if negative then -(m.units : Int) else m.units

/-- A sum that is exactly zero is positive, unless both sides are negative
    zeros. -/
def add : Double → Double → Double
  | signed s a, signed t b =>
      if !a.isFinite then
        if !b.isFinite && s != t then nan else signed s a
      else if !b.isFinite then signed t b
      else
        let sum := signedUnits s a + signedUnits t b
        if sum = 0 then signed (s && t) .zero else ofUnits sum
  | _, _ => nan

def sub (x y : Double) : Double :=
  x.add y.neg

/-- Infinity times zero has no result. -/
def mul : Double → Double → Double
  | signed s a, signed t b =>
      if !a.isFinite || !b.isFinite then
        if a.isZero || b.isZero then nan else signed (s != t) .infinity
      else signed (s != t) (.nearest (a.units * b.units) Magnitude.one)
  | _, _ => nan

/-- Zero by zero and infinity by infinity have no result; anything else by zero is
    infinite. -/
def div : Double → Double → Double
  | signed s a, signed t b =>
      if !a.isFinite then
        if !b.isFinite then nan else signed (s != t) .infinity
      else if !b.isFinite then signed (s != t) .zero
      else if b.isZero then
        if a.isZero then nan else signed (s != t) .infinity
      else signed (s != t) (.nearest (a.units * Magnitude.one) b.units)
  | _, _ => nan

/-- What is left of `x` after taking away `y` as often as it fits, with the sign
    of `x`. -/
def rem : Double → Double → Double
  | signed s a, signed _ b =>
      if !a.isFinite || b.isZero then nan
      else if !b.isFinite then signed s a
      else signed s (.nearest (a.units % b.units) 1)
  | _, _ => nan

/-- Ranks with their sign, under which the two zeros meet and the order of
    numbers is that of integers. -/
def key : Double → Option Int
  | nan => none
  | signed s m => some (if s then -(m.rank : Int) else m.rank)

/-- How two numbers compare; with `nan` they do not. -/
def compare (x y : Double) : Option Ordering :=
  match x.key, y.key with
  | some a, some b => some (Ord.compare a b)
  | _, _ => none

/-- Equality of numbers: the two zeros are equal, `nan` equals nothing. -/
def equals (x y : Double) : Bool :=
  x.compare y == some .eq

/-! ## Whole numbers of 32 bits -/

def isFinite : Double → Bool
  | nan => false
  | signed _ m => m.isFinite

/-- Drop the sign. -/
def abs : Double → Double
  | nan => nan
  | signed _ m => signed false m

/-- Cut off what stands behind the point. The sign stays, even if nothing else does. -/
def truncate : Double → Double
  | nan => nan
  | signed s m =>
      if m.isFinite then signed s (.nearest (m.units / Magnitude.one * Magnitude.one) 1)
      else signed s m

/-- The remainder that is not negative: if `rem` gives a negative one, the size of `y` is
    added. -/
def remEuclid (x y : Double) : Double :=
  let r := x.rem y
  if r.compare zero = some .lt then r.add y.abs else r

/-- The whole part as 32 bits without a sign. What is out of range becomes the bound that it
    passes, and `nan` becomes zero. -/
def clamp32 : Double → BitVec 32
  | nan => 0
  | signed true _ => 0
  | signed false m =>
      if m.isFinite then .ofNat 32 (min (m.units / Magnitude.one) 0xffffffff)
      else .allOnes 32

/-- `2 ^ 32`. -/
def modulus32 : Double := .ofInt 0x100000000

/-- The whole part modulo `2 ^ 32`; zero for a number that has none. -/
def toBits32 (x : Double) : BitVec 32 :=
  if x.isFinite then (x.truncate.remEuclid modulus32).clamp32 else 0

/-! ## The standard encoding -/

/-- The bit that holds the sign in the standard encoding: `2 ^ 63`. -/
def signBit : Nat := 0x8000000000000000

/-- The 64 bits of the standard encoding, as a number; `nan` has many and is
    given none. -/
def bits? : Double → Option Nat
  | nan => none
  | signed s m => some ((if s then signBit else 0) + m.rank)

/-- Read the standard encoding. -/
def ofBits (bits : Nat) : Double :=
  let rank := bits % signBit
  if h : rank ≤ infinityRank then signed (bits / signBit % 2 == 1) ⟨rank, h⟩ else nan

end Double

end Scriptlet
