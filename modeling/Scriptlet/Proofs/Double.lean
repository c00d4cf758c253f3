import Mathlib.Data.Rat.Floor
import Scriptlet.Double
import Scriptlet.Proofs.Double.Magnitude

/-! # The exact value of a double

`toRat?` gives the value of a finite double as a fraction. On whole numbers of at most 53
binary digits sums and remainders are exact, and so is the way through a number with a
remainder modulo `2 ^ 32` to 32 bits.
-/

namespace Scriptlet

/-- The whole part of a fraction, taken toward zero. -/
def wholePart (q : ℚ) : ℤ :=
  if 0 ≤ q then ⌊q⌋ else ⌈q⌉

theorem wholePart_div {n : ℕ} (z : ℤ) (pos : 0 < n) : wholePart (z / n) = z.tdiv n := by
  have sign : (0 : ℚ) ≤ z / n ↔ 0 ≤ z := by
    rw [le_div_iff₀ (Nat.cast_pos.mpr pos), zero_mul, Int.cast_nonneg_iff]
  unfold wholePart
  by_cases negative : 0 ≤ z
  · rw [if_pos (sign.mpr negative), Rat.floor_intCast_div_natCast,
      Int.tdiv_eq_ediv_of_nonneg negative]
  · rw [if_neg (mt sign.mp negative), Rat.ceil_intCast_div_natCast, ← Int.neg_neg (z.tdiv n),
      ← Int.neg_tdiv, Int.tdiv_eq_ediv_of_nonneg (by omega)]

namespace Double

open Magnitude

variable {x y : Double} {q : ℚ} {a b : ℤ}

theorem signedUnits_eq (s : Bool) (m : Magnitude) :
    signedUnits s m = (if s then -1 else 1) * (m.units : ℤ) := by
  cases s <;> simp [signedUnits]

theorem natAbs_signedUnits (s : Bool) (m : Magnitude) : (signedUnits s m).natAbs = m.units := by
  cases s <;> simp [signedUnits]

/-- The value of a finite number. -/
def toRat? : Double → Option ℚ
  | nan => none
  | signed s m => if m.isFinite then some (signedUnits s m / one) else none

theorem toRat?_eq_some :
    x.toRat? = some q ↔ ∃ s m, x = signed s m ∧ m.isFinite = true ∧ signedUnits s m / one = q := by
  constructor
  · intro value
    cases x with
    | nan => cases value
    | signed s m =>
        rw [toRat?] at value
        split at value
        · next finite => exact ⟨s, m, rfl, finite, Option.some_inj.mp value⟩
        · cases value
  · rintro ⟨s, m, rfl, finite, rfl⟩
    rw [toRat?, if_pos finite]

/-- A number is whole if its units are whole ones. -/
theorem toRat?_eq_intCast :
    x.toRat? = some (a : ℚ) ↔
      ∃ s m, x = signed s m ∧ m.isFinite = true ∧ signedUnits s m = a * one := by
  have pos : (0 : ℚ) < one := Nat.cast_pos.mpr pos_one
  have same (z : ℤ) : (z : ℚ) / one = a ↔ z = a * one := by
    rw [div_eq_iff pos.ne', ← Int.cast_natCast one, ← Int.cast_mul, Int.cast_inj]
  rw [toRat?_eq_some]
  simp only [same]

theorem isFinite_iff_toRat? : x.isFinite = true ↔ x.toRat?.isSome = true := by
  cases x with
  | nan => simp [isFinite, toRat?]
  | signed s m =>
      rw [isFinite, toRat?]
      split
      · next finite => simp only [finite, Option.isSome_some]
      · next infinite => simp only [infinite, Option.isSome_none, Bool.false_eq_true]

/-! ## Arithmetic on whole numbers -/

theorem natAbs_mul_one (a : ℤ) : (a * one).natAbs = a.natAbs * one := by
  rw [Int.natAbs_mul, Int.natAbs_natCast]

/-- Whole numbers of at most 53 digits are doubles. -/
theorem toRat?_ofInt (small : a.natAbs < 2 * binade) : (ofInt a).toRat? = some (a : ℚ) := by
  obtain ⟨finite, units⟩ := units_nearest_whole small
  have pos : (0 : ℤ) < one := Int.natCast_pos.mpr pos_one
  have sign : a * one < 0 ↔ a < 0 := by
    rw [Int.mul_neg_iff]
    omega
  rw [toRat?_eq_intCast]
  refine ⟨_, _, rfl, by rwa [natAbs_mul_one], ?_⟩
  simp only [natAbs_mul_one, signedUnits_eq, units, decide_eq_true_eq, sign]
  rw [Nat.cast_mul, ← mul_assoc]
  congr 1
  split <;> omega

theorem toRat?_truncate (value : x.toRat? = some q) :
    x.truncate.toRat? = some (wholePart q : ℚ) := by
  obtain ⟨s, m, rfl, finite, rfl⟩ := toRat?_eq_some.mp value
  obtain ⟨finite', units⟩ := units_nearest_part finite
  rw [truncate, if_pos finite, toRat?_eq_intCast]
  refine ⟨s, _, rfl, finite', ?_⟩
  rw [wholePart_div _ pos_one, signedUnits_eq, signedUnits_eq, units]
  generalize one = n
  cases s with
  | false => simp [Int.tdiv_eq_ediv_of_nonneg]
  | true => simp [Int.neg_tdiv, Int.tdiv_eq_ediv_of_nonneg]

/-- The size of a whole number, and its sign unless it is zero. -/
theorem units_of_signedUnits {s : Bool} {m : Magnitude} (units : signedUnits s m = a * one) :
    m.units = a.natAbs * one ∧ a = (if s then -1 else 1) * (a.natAbs : ℤ) := by
  have size : m.units = a.natAbs * one := by
    rw [← natAbs_signedUnits s, units, natAbs_mul_one]
  have pos : (one : ℤ) ≠ 0 := Int.natCast_ne_zero.mpr pos_one.ne'
  refine ⟨size, Int.eq_of_mul_eq_mul_right pos ?_⟩
  rw [← units, signedUnits_eq, size, Nat.cast_mul, mul_assoc]

/-- The remainder has the sign of the first number, as the one of whole numbers has. -/
theorem toRat?_rem {n : ℕ} (left : x.toRat? = some (a : ℚ)) (right : y.toRat? = some ((n : ℤ) : ℚ))
    (pos : 0 < n) (small : n < 2 * binade) : (x.rem y).toRat? = some (a.tmod n : ℚ) := by
  obtain ⟨s, m, rfl, finite, units⟩ := toRat?_eq_intCast.mp left
  obtain ⟨t, k, rfl, finite', units'⟩ := toRat?_eq_intCast.mp right
  obtain ⟨size, sign⟩ := units_of_signedUnits units
  obtain ⟨size', -⟩ := units_of_signedUnits units'
  rw [Int.natAbs_natCast] at size'
  have divisor : k.isZero = false := by
    rw [isZero_eq_false_iff, size']
    exact (Nat.mul_pos pos pos_one).ne'
  obtain ⟨finite'', units''⟩ :=
    units_nearest_whole (Nat.lt_trans (Nat.mod_lt a.natAbs pos) small)
  rw [rem, finite, divisor, finite', size, size', Nat.mul_mod_mul_right, toRat?_eq_intCast]
  refine ⟨s, _, rfl, finite'', ?_⟩
  have cut : a.tmod n = (if s then -1 else 1) * ((a.natAbs % n : ℕ) : ℤ) := by
    conv_lhs => rw [sign]
    generalize a.natAbs = w
    cases s <;> simp [Int.neg_tmod, ← Int.ofNat_tmod]
  rw [signedUnits_eq, units'', cut, Nat.cast_mul, mul_assoc]

theorem toRat?_add (left : x.toRat? = some (a : ℚ)) (right : y.toRat? = some (b : ℚ))
    (small : (a + b).natAbs < 2 * binade) : (x.add y).toRat? = some ((a + b : ℤ) : ℚ) := by
  obtain ⟨s, m, rfl, finite, units⟩ := toRat?_eq_intCast.mp left
  obtain ⟨t, k, rfl, finite', units'⟩ := toRat?_eq_intCast.mp right
  simp only [add, finite, finite', units, units', ← Int.add_mul, Bool.not_true, Bool.false_eq_true,
    if_false]
  split
  · next nothing =>
      have sum : a + b = 0 := by
        have pos : (one : ℤ) ≠ 0 := Int.natCast_ne_zero.mpr pos_one.ne'
        exact (mul_eq_zero.mp nothing).resolve_right pos
      rw [toRat?_eq_intCast, sum]
      refine ⟨_, _, rfl, rfl, ?_⟩
      rw [signedUnits_eq, units_zero, Nat.cast_zero, mul_zero, zero_mul]
  · exact toRat?_ofInt small

/-- What is less than zero has a sign and is not zero. -/
theorem compare_zero_eq_lt (value : x.toRat? = some q) : x.compare zero = some .lt ↔ q < 0 := by
  obtain ⟨s, m, rfl, -, rfl⟩ := toRat?_eq_some.mp value
  have pos : (0 : ℚ) < one := Nat.cast_pos.mpr pos_one
  rw [div_lt_iff₀ pos, zero_mul, Int.cast_lt_zero]
  have rank : 0 < m.rank ↔ 0 < m.units := by
    rw [Nat.pos_iff_ne_zero, Nat.pos_iff_ne_zero, ne_eq, ne_eq, rank_eq_zero, units_eq_zero]
  cases s with
  | false =>
      simp only [Double.compare, key, zero, Magnitude.zero, signedUnits, compare_lt_iff_lt,
        Option.some_inj, Bool.false_eq_true, if_false]
      omega
  | true => simp [Double.compare, key, zero, Magnitude.zero, signedUnits, compare_lt_iff_lt, rank]

theorem toRat?_abs (value : x.toRat? = some q) : x.abs.toRat? = some |q| := by
  obtain ⟨s, m, rfl, finite, rfl⟩ := toRat?_eq_some.mp value
  refine toRat?_eq_some.mpr ⟨false, m, rfl, finite, ?_⟩
  rw [abs_div, Nat.abs_cast, ← Int.cast_abs, Int.abs_eq_natAbs, natAbs_signedUnits]
  rfl

/-- The remainder that is not negative is that of the whole numbers. -/
theorem toRat?_remEuclid {n : ℕ} (left : x.toRat? = some (a : ℚ))
    (right : y.toRat? = some ((n : ℤ) : ℚ)) (pos : 0 < n) (small : n < 2 * binade) :
    (x.remEuclid y).toRat? = some ((a % n : ℤ) : ℚ) := by
  have cut := toRat?_rem left right pos small
  have modulus : y.abs.toRat? = some ((n : ℤ) : ℚ) := by
    rw [toRat?_abs right, Int.cast_natCast, Nat.abs_cast]
  have bounds := Int.emod_lt_of_pos a (Int.natCast_pos.mpr pos)
  have least := Int.emod_nonneg a (Int.natCast_pos.mpr pos).ne'
  have same := Int.emod_eq_tmod (a := a) (b := n)
  simp only [remEuclid, compare_zero_eq_lt cut, Int.cast_lt_zero]
  split
  · next negative =>
      have raised : a.tmod n + n = a % n := by
        split at same <;> omega
      rw [toRat?_add cut modulus (by omega), raised]
  · next other =>
      have kept : a.tmod n = a % n := by
        split at same <;> omega
      rw [cut, kept]

/-! ## Numbers without a sign -/

theorem ofInt_natCast (n : ℕ) : ofInt n = signed false (nearest (n * one) 1) := by
  have least : ¬(n : ℤ) * one < 0 := not_lt.mpr (by positivity)
  rw [ofInt, ofUnits, natAbs_mul_one, Int.natAbs_natCast, decide_eq_false least]

theorem exists_add_ofInt {n : ℕ} (m : Magnitude) (small : n < 2 * binade) :
    ∃ m', (signed false m).add (ofInt n) = signed false m' := by
  obtain ⟨finite, -⟩ := units_nearest_whole small
  have least (k : Magnitude) : ¬(m.units : ℤ) + k.units < 0 := not_lt.mpr (by positivity)
  simp only [ofInt_natCast, add, finite, signedUnits, Bool.not_true, Bool.false_and,
    Bool.false_eq_true, if_false]
  split
  · exact ⟨m, rfl⟩
  · split
    · exact ⟨.zero, rfl⟩
    · exact ⟨_, by rw [ofUnits, decide_eq_false (least _)]⟩

theorem exists_mul_ofInt {n : ℕ} (m : Magnitude) (pos : 0 < n) (small : n < 2 * binade) :
    ∃ m', (signed false m).mul (ofInt n) = signed false m' := by
  obtain ⟨finite, units⟩ := units_nearest_whole small
  have some_size : (nearest (n * one) 1).isZero = false := by
    rw [isZero_eq_false_iff, units]
    exact (Nat.mul_pos pos pos_one).ne'
  simp only [ofInt_natCast, mul, finite, some_size]
  cases infinite : m.isFinite with
  | true => exact ⟨_, rfl⟩
  | false =>
      have large : m.isZero = false := by
        rw [isZero_eq_false_iff, ne_eq, units_eq_zero]
        rintro rfl
        cases infinite
      exact ⟨.infinity, by simp [large]⟩

/-! ## 32 bits -/

theorem toRat?_modulus32 : modulus32.toRat? = some (((2 ^ 32 : ℕ) : ℤ) : ℚ) :=
  toRat?_ofInt (by decide)

/-- The remainder that is cast to 32 bits is a whole number in their range. -/
theorem toRat?_remEuclid_modulus32 (value : x.toRat? = some q) :
    (x.truncate.remEuclid modulus32).toRat? = some ((wholePart q % 2 ^ 32 : ℤ) : ℚ) :=
  toRat?_remEuclid (toRat?_truncate value) toRat?_modulus32 (by decide) (by decide)

/-- Whole numbers in range are kept. -/
theorem toNat_clamp32 (value : x.toRat? = some (a : ℚ)) (least : 0 ≤ a) (small : a < 2 ^ 32) :
    (x.clamp32.toNat : ℤ) = a := by
  obtain ⟨s, m, rfl, finite, units⟩ := toRat?_eq_intCast.mp value
  obtain ⟨size, sign⟩ := units_of_signedUnits units
  cases s with
  | false =>
      have kept : min a.natAbs 0xffffffff = a.natAbs := by omega
      rw [clamp32, if_pos finite, size, Nat.mul_div_cancel _ pos_one, kept, BitVec.toNat_ofNat,
        Nat.mod_eq_of_lt (by omega)]
      omega
  | true =>
      rw [if_pos rfl] at sign
      have nothing : a = 0 := by omega
      rw [nothing]
      rfl

theorem toNat_toBits32 (value : x.toRat? = some q) :
    (x.toBits32.toNat : ℤ) = wholePart q % 2 ^ 32 := by
  have finite : x.isFinite = true := isFinite_iff_toRat?.mpr (by rw [value]; rfl)
  rw [toBits32, if_pos finite]
  exact toNat_clamp32 (toRat?_remEuclid_modulus32 value) (Int.emod_nonneg _ (by decide))
    (Int.emod_lt_of_pos _ (by decide))

theorem toBits32_of_none (noValue : x.toRat? = none) : x.toBits32 = 0 := by
  have infinite : ¬x.isFinite = true := by
    rw [isFinite_iff_toRat?, noValue]
    decide
  rw [toBits32, if_neg infinite]

theorem wholePart_intCast (a : ℤ) : wholePart (a : ℚ) = a := by
  simp [wholePart]

theorem toRat?_ofInt_toInt (bits : BitVec 32) :
    (ofInt bits.toInt).toRat? = some (bits.toInt : ℚ) := by
  have low := bits.le_toInt
  have high := bits.toInt_lt
  exact toRat?_ofInt (by rw [binade_eq]; omega)

/-- 32 bits come back out of the number that they stand for with a sign. -/
theorem toBits32_ofInt_toInt (bits : BitVec 32) : (ofInt bits.toInt).toBits32 = bits := by
  have view := toNat_toBits32 (toRat?_ofInt_toInt bits)
  have reading : bits.toInt % 2 ^ 32 = bits.toNat := by
    have small := bits.isLt
    have folded := Int.bmod_emod (x := bits.toNat) (m := 2 ^ 32)
    rw [BitVec.toInt_eq_toNat_bmod]
    omega
  rw [wholePart_intCast, reading] at view
  exact BitVec.eq_of_toNat_eq (Int.natCast_inj.mp view)

end Double

end Scriptlet
