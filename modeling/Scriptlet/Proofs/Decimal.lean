import Scriptlet.Decimal
import Scriptlet.Proofs.Double

/-! # Reading and selecting decimals

A decimal is rounded by its value alone, although its exponent is held within bounds for
that. What `shortest` selects for a magnitude is therefore read as that magnitude, in
whatever way its digits and its exponent are written.
-/

namespace Scriptlet.Decimal

open Magnitude

variable {d d' : Decimal} {m : Magnitude}

/-- The value of a decimal. -/
def toRat (d : Decimal) : ℚ :=
  d.coefficient * 10 ^ d.exponent

theorem toRat_eq_div (d : Decimal) :
    d.toRat = (d.coefficient * 10 ^ d.exponent.toNat : ℕ) / (10 ^ (-d.exponent).toNat : ℕ) := by
  have parts := zpow_sub₀ (a := (10 : ℚ)) (by decide) d.exponent.toNat (-d.exponent).toNat
  rw [Int.toNat_sub_toNat_neg, zpow_natCast, zpow_natCast] at parts
  rw [toRat, parts]
  push_cast
  rw [mul_div_assoc]

/-! ## Bounds on exponents -/

theorem ten_pow_pos (e : ℕ) : 0 < 10 ^ e :=
  Nat.pow_pos (by decide)

theorem coefficient_lt (d : Decimal) : d.coefficient < 10 ^ (digitsOf d.coefficient).length :=
  (Nat.length_toDigits_le_iff (by decide) Nat.length_toDigits_pos).mp le_rfl

/-- `10 ^ 310` is out of the range of doubles. -/
theorem exists_two_pow_le {e : ℕ} (large : 310 ≤ e) : ∃ k, 1024 ≤ k ∧ 2 ^ k ≤ 10 ^ e := by
  refine ⟨205 * (e / 62), by omega, ?_⟩
  calc
    2 ^ (205 * (e / 62)) = (2 ^ 205) ^ (e / 62) := pow_mul ..
    _ ≤ (10 ^ 62) ^ (e / 62) := Nat.pow_le_pow_left (by decide) _
    _ = 10 ^ (62 * (e / 62)) := (pow_mul ..).symm
    _ ≤ 10 ^ e := Nat.pow_le_pow_right (by decide) (by omega)

/-- `10 ^ -330` is closer to zero than to any other double. -/
theorem two_mul_one_le {e : ℕ} (large : 330 ≤ e) : 2 * one ≤ 10 ^ e := by
  obtain ⟨k, places, same⟩ := one_eq
  have cut : k + 1 ≤ 215 * (e / 65) := by omega
  calc
    2 * one = 2 ^ (k + 1) := by rw [same, Nat.pow_succ']
    _ ≤ 2 ^ (215 * (e / 65)) := Nat.pow_le_pow_right (by decide) cut
    _ = (2 ^ 215) ^ (e / 65) := pow_mul ..
    _ ≤ (10 ^ 65) ^ (e / 65) := Nat.pow_le_pow_left (by decide) _
    _ = 10 ^ (65 * (e / 65)) := (pow_mul ..).symm
    _ ≤ 10 ^ e := Nat.pow_le_pow_right (by decide) (by omega)

theorem nearest_of_large {c : ℕ} {e : ℤ} (some_digit : 0 < c) (large : 310 ≤ e) :
    nearest (c * 10 ^ e.toNat * one) (10 ^ (-e).toNat) = infinity := by
  have whole : (-e).toNat = 0 := by omega
  obtain ⟨j, le, power⟩ := exists_two_pow_le (e := e.toNat) (by omega)
  obtain ⟨k, places, same⟩ := one_eq
  rw [whole]
  refine nearest_eq_infinity (k := j + k) Nat.one_pos (by omega) ?_
  rw [Nat.pow_add, Nat.pow_zero, Nat.mul_one, ← same]
  exact Nat.mul_le_mul_right one (power.trans (Nat.le_mul_of_pos_left _ some_digit))

theorem nearest_of_small {e : ℤ} (d : Decimal)
    (small : e ≤ -((digitsOf d.coefficient).length + 330 : ℕ)) :
    nearest (d.coefficient * 10 ^ e.toNat * one) (10 ^ (-e).toNat) = zero := by
  have whole : e.toNat = 0 := by omega
  obtain ⟨k, cut⟩ := Nat.exists_eq_add_of_le (show (digitsOf d.coefficient).length ≤ (-e).toNat by omega)
  rw [whole, cut, Nat.pow_zero, Nat.mul_one]
  refine nearest_eq_zero ?_
  calc
    2 * (d.coefficient * one) = d.coefficient * (2 * one) := Nat.mul_left_comm ..
    _ ≤ d.coefficient * 10 ^ k := Nat.mul_le_mul_left _ (two_mul_one_le (by omega))
    _ < 10 ^ (digitsOf d.coefficient).length * 10 ^ k :=
        Nat.mul_lt_mul_of_pos_right d.coefficient_lt (ten_pow_pos k)
    _ = 10 ^ ((digitsOf d.coefficient).length + k) := (Nat.pow_add ..).symm

/-- The bounds on the exponent change nothing. -/
theorem magnitude_eq_nearest (d : Decimal) :
    d.magnitude = nearest (d.coefficient * 10 ^ d.exponent.toNat * one)
      (10 ^ (-d.exponent).toNat) := by
  simp only [magnitude, Nat.pow_eq]
  obtain nothing | some_digit := Nat.eq_zero_or_pos d.coefficient
  · simp only [nothing, Nat.zero_mul, nearest_zero (ten_pow_pos _)]
  by_cases large : 310 < d.exponent
  · exact (nearest_of_large some_digit (by omega)).trans
      (nearest_of_large some_digit (by omega)).symm
  by_cases small : d.exponent < -((digitsOf d.coefficient).length + 330 : ℕ)
  · exact (nearest_of_small d (by omega)).trans (nearest_of_small d (by omega)).symm
  · have held : max (-((digitsOf d.coefficient).length + 330 : ℕ) : ℤ) (min d.exponent 310) =
        d.exponent := by
      omega
    rw [held]

/-- A larger decimal is read as no smaller magnitude. -/
theorem magnitude_mono (le : d.toRat ≤ d'.toRat) : d.magnitude.rank ≤ d'.magnitude.rank := by
  have pos (e : ℕ) : (0 : ℚ) < (10 ^ e : ℕ) := Nat.cast_pos.mpr (ten_pow_pos e)
  rw [magnitude_eq_nearest, magnitude_eq_nearest]
  refine rank_nearest_mono (ten_pow_pos _) (ten_pow_pos _) ?_
  rw [toRat_eq_div, toRat_eq_div, div_le_div_iff₀ (pos _) (pos _), ← Nat.cast_mul,
    ← Nat.cast_mul, Nat.cast_le] at le
  rw [Nat.mul_right_comm, Nat.mul_right_comm _ one]
  exact Nat.mul_le_mul_right one le

/-- The value of a decimal decides what it is read as. -/
theorem magnitude_congr (same : d.toRat = d'.toRat) : d.magnitude = d'.magnitude :=
  rank_inj (Nat.le_antisymm (magnitude_mono same.le) (magnitude_mono same.ge))

/-! ## Selecting a decimal -/

theorem magnitude_of_withDigits? {all : Decimal} {length count : ℕ}
    (selected : withDigits? m all length count = some d) : d.magnitude = m := by
  simp only [withDigits?] at selected
  split at selected
  · next up =>
      split at selected
      · next down =>
          cases selected
          simp only [Bool.and_eq_true, decide_eq_true_eq] at down
          exact down.2
      · cases selected
        exact up
  · split at selected
    · next down =>
        cases selected
        exact down
    · cases selected

theorem exact_eq (m : Magnitude) : ∃ k : ℕ, one = 2 ^ k ∧ exact m = ⟨m.units * 5 ^ k, -k⟩ := by
  obtain ⟨k, places, same⟩ := one_eq
  have exponent : (-1074 : ℤ) = -k := by omega
  refine ⟨k, same, ?_⟩
  rw [exact, exponent, ← places, Nat.pow_eq]

theorem magnitude_exact (m : Magnitude) : (exact m).magnitude = m := by
  obtain ⟨k, same, digits⟩ := exact_eq m
  have whole : (-(k : ℤ)).toNat = 0 := by omega
  have places : (- -(k : ℤ)).toNat = k := by omega
  rw [digits, magnitude_eq_nearest, whole, places, Nat.pow_zero, Nat.mul_one, same, Nat.mul_assoc,
    ← Nat.mul_pow]
  exact nearest_units_mul m (ten_pow_pos k)

/-- The decimal that is selected for a magnitude is read as that magnitude. -/
theorem magnitude_shortest (m : Magnitude) : (shortest m).magnitude = m := by
  have whole := magnitude_exact m
  unfold shortest
  generalize exact m = all at whole ⊢
  cases selected : (List.range 17).findSome? fun n =>
      withDigits? m all (digitsOf all.coefficient).length (n + 1) with
  | none =>
      simp only [selected]
      exact whole
  | some d =>
      obtain ⟨n, -, found⟩ := List.exists_of_findSome?_eq_some selected
      simp only [selected]
      exact magnitude_of_withDigits? found

/-! ## Where the point stands -/

/-- How many digits stand in front of the point, or how many zeros are missing behind it. -/
def point (d : Decimal) : ℤ :=
  (digitsOf d.coefficient).length + d.exponent

theorem toRat_lt (d : Decimal) : d.toRat < 10 ^ d.point := by
  have small : (d.coefficient : ℚ) < 10 ^ (digitsOf d.coefficient).length := by
    exact_mod_cast d.coefficient_lt
  rw [point, zpow_add₀ (by decide), zpow_natCast, toRat]
  exact mul_lt_mul_of_pos_right small (zpow_pos (by decide) _)

theorem le_coefficient (some_digit : 0 < d.coefficient) :
    10 ^ ((digitsOf d.coefficient).length - 1) ≤ d.coefficient := by
  obtain one | more := Nat.eq_zero_or_pos ((digitsOf d.coefficient).length - 1)
  · rwa [one]
  · refine Nat.le_of_not_lt fun less => ?_
    have short := (Nat.length_toDigits_le_iff (by decide) more).mpr less
    rw [← digitsOf] at short
    omega

theorem le_toRat (some_digit : 0 < d.coefficient) : 10 ^ (d.point - 1) ≤ d.toRat := by
  have first := le_coefficient some_digit
  have pos : 0 < (digitsOf d.coefficient).length := Nat.length_toDigits_pos
  have places : d.point - 1 = ((digitsOf d.coefficient).length - 1 : ℕ) + d.exponent := by
    rw [point]
    omega
  rw [places, zpow_add₀ (by decide), zpow_natCast, toRat]
  exact mul_le_mul_of_nonneg_right (by exact_mod_cast first) (zpow_nonneg (by decide) _)

theorem coefficient_pos (some_size : d.magnitude ≠ zero) : 0 < d.coefficient := by
  refine Nat.pos_of_ne_zero fun nothing => some_size ?_
  rw [magnitude_eq_nearest, nothing, Nat.zero_mul, Nat.zero_mul, nearest_zero (ten_pow_pos _)]

/-- A power of ten that is selected for its own magnitude tells where the point stands. -/
theorem lt_point_iff {k : ℤ} (own : shortest (magnitude ⟨1, k⟩) = ⟨1, k⟩) (some_size : m ≠ zero) :
    k < (shortest m).point ↔ (magnitude ⟨1, k⟩).rank ≤ m.rank := by
  have back := magnitude_shortest m
  have power : toRat ⟨1, k⟩ = 10 ^ k := by simp [toRat]
  constructor
  · intro behind
    have some_digit := coefficient_pos (d := shortest m) (by rwa [back])
    have le : toRat ⟨1, k⟩ ≤ (shortest m).toRat := by
      rw [power]
      exact (zpow_le_zpow_right₀ (by decide) (by omega)).trans (le_toRat some_digit)
    have ranks := magnitude_mono le
    rwa [back] at ranks
  · intro ranks
    by_contra before
    have le : (shortest m).toRat ≤ toRat ⟨1, k⟩ := by
      rw [power]
      exact (toRat_lt _).le.trans (zpow_le_zpow_right₀ (by decide) (by omega))
    have ranks' := magnitude_mono le
    rw [back] at ranks'
    -- both are then the same magnitude, whose decimal has its point behind its only digit
    have same : m = magnitude ⟨1, k⟩ := rank_inj (Nat.le_antisymm ranks' ranks)
    have pos : 0 < (digitsOf 1).length := Nat.length_toDigits_pos
    refine before ?_
    rw [same, own]
    exact Int.lt_add_of_pos_left k (Int.natCast_pos.mpr pos)

end Scriptlet.Decimal
