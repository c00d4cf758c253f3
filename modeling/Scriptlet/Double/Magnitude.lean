/-! # Magnitudes of doubles

The magnitudes that a double can have form an ascending list: zero, the multiples
of `2 ^ -1074` up to `2 ^ -1021`, then in every following binade `2 ^ 52` numbers
twice as far apart, and last infinity. A magnitude is its place in this list,
which is also its bit pattern. All arithmetic is done exactly on natural numbers,
counting in the smallest unit `2 ^ -1074`, and rounded once at the end.
-/

namespace Scriptlet

/-- Divide and round to the nearest natural number, a half to the even one. -/
def roundDiv (num den : Nat) : Nat :=
  let quotient := num / den
  let twice := 2 * (num % den)
  if twice < den then quotient
  else if den < twice then quotient + 1
  else quotient + quotient % 2

/-- How many magnitudes lie between a power of two and the next one: `2 ^ 52`. -/
def binade : Nat := 0x10000000000000

/-- The place of infinity, behind `2047 * 2 ^ 52` finite magnitudes. -/
def infinityRank : Nat := 0x7FF0000000000000

/-- The absolute value of a double, as its place among all of them. -/
structure Magnitude where
  rank : Nat
  rank_le : rank ≤ infinityRank
  deriving Repr, DecidableEq

namespace Magnitude

def zero : Magnitude := ⟨0, Nat.zero_le _⟩

def infinity : Magnitude := ⟨infinityRank, Nat.le_refl _⟩

/-- The magnitude at a place; places behind infinity count as infinity. -/
def ofRank (rank : Nat) : Magnitude :=
  ⟨min rank infinityRank, Nat.min_le_right _ _⟩

def isFinite (m : Magnitude) : Bool :=
  m.rank < infinityRank

def isZero (m : Magnitude) : Bool :=
  m.rank == 0

/-- How many of the smallest units make one. -/
def one : Nat := Nat.pow 2 1074

/-- A finite magnitude, counted in units of `2 ^ -1074`. -/
def units (m : Magnitude) : Nat :=
  if m.rank < binade then m.rank
  else (binade + m.rank % binade) * Nat.pow 2 (m.rank / binade - 1)

/-- The magnitude nearest to `num / den` units, a half to the even rank. The
    quotient is cut to 53 binary digits, or to a whole number of units. -/
def nearest (num den : Nat) : Magnitude :=
  let shift := (num / den).log2 - 52
  ofRank (roundDiv num (den * Nat.pow 2 shift) + shift * binade)

end Magnitude

end Scriptlet
