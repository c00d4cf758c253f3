import Mathlib.Algebra.Order.Group.Nat
import Mathlib.Tactic.Ring
import Scriptlet.Double.Magnitude

/-! # Rounding to magnitudes

A finite magnitude is a number of at most 53 binary digits with zeros behind it. Rounding
depends only on the quotient that is rounded, leaves all these numbers as they are, and turns
what is too large into infinity and what is too small into zero.
-/

namespace Scriptlet

theorem binade_eq : binade = 2 ^ 52 := by decide

theorem infinityRank_eq : infinityRank = 2047 * binade := by decide

/-- A quotient without a remainder is not rounded. -/
theorem roundDiv_mul {den : Nat} (q : Nat) (pos : 0 < den) : roundDiv (q * den) den = q := by
  simp [roundDiv, Nat.mul_div_cancel q pos, pos]

theorem roundDiv_scale {k : Nat} (num den : Nat) (pos : 0 < k) :
    roundDiv (num * k) (den * k) = roundDiv num den := by
  have twice : 2 * (num % den * k) = 2 * (num % den) * k := (Nat.mul_assoc ..).symm
  simp only [roundDiv, Nat.mul_div_mul_right _ _ pos, Nat.mul_mod_mul_right, twice,
    Nat.mul_lt_mul_right pos]

theorem div_le_roundDiv (num den : Nat) : num / den ≤ roundDiv num den := by
  simp only [roundDiv]
  split
  · exact Nat.le_refl _
  · split
    · exact Nat.le_succ _
    · exact Nat.le_add_right _ _

theorem roundDiv_le_succ (num den : Nat) : roundDiv num den ≤ num / den + 1 := by
  simp only [roundDiv]
  split
  · exact Nat.le_succ _
  · split
    · exact Nat.le_refl _
    · exact Nat.add_le_add_left (Nat.le_of_lt_succ (Nat.mod_lt _ (by decide))) _

theorem roundDiv_mono {num num' : Nat} (den : Nat) (le : num ≤ num') :
    roundDiv num den ≤ roundDiv num' den := by
  obtain less | same := Nat.lt_or_eq_of_le (Nat.div_le_div_right (c := den) le)
  · exact (roundDiv_le_succ num den).trans (Nat.le_trans less (div_le_roundDiv num' den))
  · -- with the same whole part the rest decides
    have rest := Nat.div_add_mod num den
    have rest' := Nat.div_add_mod num' den
    rw [← same] at rest'
    simp only [roundDiv, ← same]
    split <;> split <;> (try split) <;> (try split) <;> omega

namespace Magnitude

variable {m m' : Magnitude} {f e num den num' den' : Nat}

theorem ofRank_rank (m : Magnitude) : ofRank m.rank = m := by
  simp [ofRank, Nat.min_eq_left m.rank_le]

theorem rank_inj (same : m.rank = m'.rank) : m = m' := by
  rw [← ofRank_rank m, same, ofRank_rank]

theorem isFinite_iff : m.isFinite = true ↔ m.rank < infinityRank := by
  simp [isFinite]

/-! ## What rounding depends on -/

theorem nearest_scale {k : Nat} (num den : Nat) (pos : 0 < k) :
    nearest (num * k) (den * k) = nearest num den := by
  have moved (p : Nat) : den * k * p = den * p * k := Nat.mul_right_comm ..
  simp only [nearest, Nat.mul_div_mul_right _ _ pos, moved, roundDiv_scale _ _ pos]

theorem log2_mono {q q' : Nat} (le : q ≤ q') : q.log2 ≤ q'.log2 := by
  by_cases nothing : q = 0
  · simp [nothing]
  · have some_digit : q' ≠ 0 := by omega
    exact (Nat.le_log2 some_digit).mpr ((Nat.log2_self_le nothing).trans le)

/-- More digits than a significand has are cut off. -/
theorem div_two_pow_bounds {q shift : Nat} (same : q.log2 - 52 = shift) :
    q / 2 ^ shift < 2 * binade ∧ (shift ≠ 0 → binade ≤ q / 2 ^ shift) := by
  have total : 2 * binade = 2 ^ 53 := by decide
  constructor
  · rw [Nat.div_lt_iff_lt_mul (Nat.two_pow_pos shift), total, ← Nat.pow_add]
    exact Nat.lt_of_lt_of_le Nat.lt_log2_self (Nat.pow_le_pow_right (by decide) (by omega))
  · intro cut
    have some_digit : q ≠ 0 := by
      rintro rfl
      simp at same
      omega
    rw [Nat.le_div_iff_mul_le (Nat.two_pow_pos shift), binade_eq, ← Nat.pow_add]
    exact (Nat.le_log2 some_digit).mp (by omega)

/-- Rounding keeps the order. -/
theorem rank_nearest_mono (pos : 0 < den) (pos' : 0 < den') (le : num * den' ≤ num' * den) :
    (nearest num den).rank ≤ (nearest num' den').rank := by
  rw [← nearest_scale num den pos', ← nearest_scale num' den' pos, Nat.mul_comm den']
  generalize num * den' = n at le ⊢
  generalize num' * den = n' at le ⊢
  generalize den * den' = d
  generalize same : (n / d).log2 - 52 = shift
  generalize same' : (n' / d).log2 - 52 = shift'
  have shifts : shift ≤ shift' := by
    have logs := log2_mono (Nat.div_le_div_right (c := d) le)
    omega
  simp only [nearest, same, same', ofRank, Nat.pow_eq]
  refine min_le_min_right infinityRank ?_
  obtain less | rfl := Nat.lt_or_eq_of_le shifts
  · obtain ⟨few, -⟩ := div_two_pow_bounds same
    obtain ⟨-, full⟩ := div_two_pow_bounds same'
    rw [Nat.div_div_eq_div_mul] at few full
    have upper := (roundDiv_le_succ n (d * 2 ^ shift)).trans few
    have lower := (full (by omega)).trans (div_le_roundDiv n' (d * 2 ^ shift'))
    have binades : shift.succ * binade ≤ shift' * binade := Nat.mul_le_mul_right _ less
    rw [Nat.succ_mul] at binades
    omega
  · exact Nat.add_le_add_right (roundDiv_mono _ le) _

/-! ## Numbers that are not rounded -/

/-- A significand and an exponent as a magnitude has them: of 53 digits, or else with the least
    exponent. -/
structure Normal (f e : Nat) : Prop where
  lt : f < 2 * binade
  full : binade ≤ f ∨ e = 0

theorem exists_normal (m : Magnitude) : ∃ f e, Normal f e ∧ m.rank = f + e * binade := by
  have pos : 0 < binade := by decide
  by_cases least : m.rank < binade
  · exact ⟨m.rank, 0, ⟨by omega, .inr rfl⟩, by omega⟩
  · have digits := Nat.mod_lt m.rank pos
    have parts := Nat.div_add_mod' m.rank binade
    have above : 0 < m.rank / binade := Nat.div_pos (Nat.le_of_not_lt least) pos
    refine ⟨binade + m.rank % binade, m.rank / binade - 1, ⟨by omega, .inl (by omega)⟩, ?_⟩
    have binades : m.rank / binade * binade = binade + (m.rank / binade - 1) * binade := by
      rw [Nat.add_comm, ← Nat.succ_mul, Nat.succ_eq_add_one, Nat.sub_add_cancel above]
    omega

theorem units_of_rank (normal : Normal f e) (rank : m.rank = f + e * binade) :
    m.units = f * 2 ^ e := by
  obtain ⟨lt, full⟩ := normal
  unfold units
  split
  · next least =>
      obtain rfl : e = 0 := by
        obtain full | rfl := full
        · omega
        · rfl
      simpa using rank
  · next above =>
      have pos : 0 < binade := by decide
      -- an exponent of zero leaves the rank itself, which has 53 digits here
      have full : binade ≤ f := by
        obtain full | rfl := full
        · exact full
        · omega
      obtain ⟨digits, rfl⟩ := Nat.exists_eq_add_of_le full
      have split : m.rank = digits + (e + 1) * binade := by rw [rank]; ring
      have small : digits < binade := by omega
      rw [split, Nat.add_mul_mod_self_right, Nat.mod_eq_of_lt small, Nat.add_mul_div_right _ _ pos,
        Nat.div_eq_of_lt small, Nat.zero_add, Nat.add_sub_cancel]
      rfl

theorem nearest_of_normal (normal : Normal f e) :
    nearest (f * 2 ^ e) 1 = ofRank (f + e * binade) := by
  obtain ⟨lt, full⟩ := normal
  have shift : (f * 2 ^ e).log2 - 52 = e := by
    obtain full | rfl := full
    · rw [binade_eq] at lt full
      have low : 2 ^ 52 * 2 ^ e ≤ f * 2 ^ e := Nat.mul_le_mul_right _ full
      have high : f * 2 ^ e < 2 ^ 53 * 2 ^ e := Nat.mul_lt_mul_of_pos_right lt (Nat.two_pow_pos e)
      rw [← Nat.pow_add] at low high
      have log : (f * 2 ^ e).log2 = 52 + e := by
        refine (Nat.log2_eq_iff ?_).mpr ⟨low, by rwa [Nat.add_right_comm]⟩
        exact Nat.pos_iff_ne_zero.mp (Nat.lt_of_lt_of_le (Nat.two_pow_pos _) low)
      omega
    · rw [Nat.pow_zero, Nat.mul_one]
      by_cases nothing : f = 0
      · simp [nothing]
      · have log : f.log2 < 53 := (Nat.log2_lt nothing).mpr (by rw [binade_eq] at lt; omega)
        omega
  have exact : roundDiv (f * 2 ^ e) (1 * 2 ^ e) = f := by
    rw [Nat.one_mul]
    exact roundDiv_mul f (Nat.two_pow_pos e)
  simp only [nearest, Nat.div_one, shift, Nat.pow_eq, exact]

/-- A magnitude is the one nearest to its own units. -/
theorem nearest_units (m : Magnitude) : nearest m.units 1 = m := by
  obtain ⟨f, e, normal, rank⟩ := exists_normal m
  rw [units_of_rank normal rank, nearest_of_normal normal, ← rank, ofRank_rank]

theorem nearest_units_mul (m : Magnitude) (pos : 0 < den) : nearest (m.units * den) den = m := by
  have scaled := nearest_scale m.units 1 pos
  rwa [Nat.one_mul, nearest_units] at scaled

theorem units_inj (same : m.units = m'.units) : m = m' := by
  rw [← nearest_units m, same, nearest_units]

@[simp] theorem units_zero : zero.units = 0 := by decide

theorem units_eq_zero : m.units = 0 ↔ m = zero :=
  ⟨fun nothing => units_inj (nothing.trans units_zero.symm), fun h => h ▸ units_zero⟩

theorem rank_eq_zero : m.rank = 0 ↔ m = zero :=
  ⟨fun nothing => rank_inj nothing, fun h => h ▸ rfl⟩

theorem isZero_iff : m.isZero = true ↔ m = zero := by
  rw [isZero, beq_iff_eq, rank_eq_zero]

theorem isZero_eq_false_iff : m.isZero = false ↔ m.units ≠ 0 := by
  rw [Bool.eq_false_iff, ne_eq, ne_eq, isZero_iff, units_eq_zero]

theorem eq_infinity (infinite : m.isFinite = false) : m = infinity := by
  have largest : infinityRank ≤ m.rank := by simpa [isFinite] using infinite
  exact rank_inj (Nat.le_antisymm m.rank_le largest)

/-- Digits can be moved to the front as long as zeros stand behind them. -/
theorem exists_normal_of_lt (lt : f < 2 * binade) :
    ∃ g d, Normal g d ∧ g * 2 ^ d = f * 2 ^ e ∧ d ≤ e := by
  induction e generalizing f with
  | zero => exact ⟨f, 0, ⟨lt, .inr rfl⟩, rfl, Nat.le_refl 0⟩
  | succ e ih =>
      by_cases full : binade ≤ f
      · exact ⟨f, e + 1, ⟨lt, .inl full⟩, rfl, Nat.le_refl _⟩
      · obtain ⟨g, d, normal, same, le⟩ := ih (f := 2 * f) (by omega)
        exact ⟨g, d, normal, by rw [same, Nat.pow_succ]; ring, by omega⟩

/-- Numbers of at most 53 digits with zeros behind them are not rounded. -/
theorem units_nearest (lt : f < 2 * binade) (le : e ≤ 2045) :
    (nearest (f * 2 ^ e) 1).isFinite = true ∧ (nearest (f * 2 ^ e) 1).units = f * 2 ^ e := by
  obtain ⟨g, d, normal, same, le'⟩ := exists_normal_of_lt (e := e) lt
  have below : g + d * binade < infinityRank := by
    have binades : d * binade ≤ 2045 * binade := Nat.mul_le_mul_right _ (by omega)
    have := normal.lt
    rw [infinityRank_eq]
    omega
  have rank : (ofRank (g + d * binade)).rank = g + d * binade :=
    Nat.min_eq_left (Nat.le_of_lt below)
  rw [← same, nearest_of_normal normal]
  refine ⟨isFinite_iff.mpr ?_, units_of_rank normal rank⟩
  rwa [rank]

/-- Every finite magnitude is such a number. -/
theorem exists_significand (finite : m.isFinite = true) :
    ∃ f e, m.units = f * 2 ^ e ∧ f < 2 * binade ∧ e ≤ 2045 := by
  obtain ⟨f, e, normal, rank⟩ := exists_normal m
  refine ⟨f, e, units_of_rank normal rank, normal.lt, ?_⟩
  rw [isFinite_iff, rank, infinityRank_eq] at finite
  obtain full | rfl := normal.full
  · have binades : (e + 1) * binade < 2047 * binade := by
      rw [Nat.succ_mul]
      omega
    have := Nat.lt_of_mul_lt_mul_right binades
    omega
  · exact Nat.zero_le _

theorem one_eq : ∃ k, k = 1074 ∧ one = 2 ^ k := by
  unfold one
  -- the exponent is hidden so that the power stays one
  generalize 1074 = k
  exact ⟨k, rfl, Nat.pow_eq⟩

theorem pos_one : 0 < one := by
  obtain ⟨k, -, same⟩ := one_eq
  rw [same]
  exact Nat.two_pow_pos k

/-- Whole numbers of at most 53 digits are not rounded. -/
theorem units_nearest_whole {n : Nat} (small : n < 2 * binade) :
    (nearest (n * one) 1).isFinite = true ∧ (nearest (n * one) 1).units = n * one := by
  obtain ⟨k, places, same⟩ := one_eq
  rw [same]
  exact units_nearest small (by omega)

/-- Nor are the whole parts of other numbers, which have no more digits than these. -/
theorem units_nearest_part (finite : m.isFinite = true) :
    (nearest (m.units / one * one) 1).isFinite = true ∧
      (nearest (m.units / one * one) 1).units = m.units / one * one := by
  obtain ⟨f, e, units, few, -⟩ := exists_significand finite
  obtain ⟨k, -, same⟩ := one_eq
  by_cases whole : k ≤ e
  · -- all digits stand before the point
    obtain ⟨d, rfl⟩ := Nat.exists_eq_add_of_le' whole
    have kept : m.units / one * one = m.units := by
      rw [units, Nat.pow_add, ← Nat.mul_assoc, ← same, Nat.mul_div_cancel _ pos_one]
    rw [kept, nearest_units]
    exact ⟨finite, rfl⟩
  · obtain ⟨d, rfl⟩ := Nat.exists_eq_add_of_le (Nat.le_of_not_le whole)
    have cut : m.units / one = f / 2 ^ d := by
      rw [units, same, Nat.pow_add, Nat.mul_comm f, Nat.mul_div_mul_left _ _ (Nat.two_pow_pos e)]
    rw [cut]
    exact units_nearest_whole (Nat.lt_of_le_of_lt (Nat.div_le_self f _) few)

/-! ## Numbers out of range -/

/-- Less than half a unit is rounded to zero. -/
theorem nearest_eq_zero (small : 2 * num < den) : nearest num den = zero := by
  have less : num < den := by omega
  simp [nearest, roundDiv, Nat.div_eq_of_lt less, Nat.mod_eq_of_lt less, small, ofRank, zero]

theorem nearest_zero (pos : 0 < den) : nearest 0 den = zero :=
  nearest_eq_zero pos

/-- From `2 ^ 1024` on, which is `2 ^ 2098` units, everything is rounded to infinity. -/
theorem nearest_eq_infinity {k : Nat} (pos : 0 < den) (le : 2098 ≤ k) (large : 2 ^ k * den ≤ num) :
    nearest num den = infinity := by
  have whole : 2 ^ k ≤ num / den := (Nat.le_div_iff_mul_le pos).mpr large
  have some_unit : num / den ≠ 0 :=
    Nat.pos_iff_ne_zero.mp (Nat.lt_of_lt_of_le (Nat.two_pow_pos k) whole)
  have log : k ≤ (num / den).log2 := (Nat.le_log2 some_unit).mpr whole
  obtain ⟨shift, same⟩ := Nat.exists_eq_add_of_le' (Nat.le_trans (by omega) log : 52 ≤ _)
  have digits : binade ≤ num / (den * 2 ^ shift) := by
    have low := (Nat.le_log2 some_unit).mp (Nat.le_of_eq same.symm)
    rw [← Nat.div_div_eq_div_mul, Nat.le_div_iff_mul_le (Nat.two_pow_pos shift), binade_eq,
      ← Nat.pow_add, Nat.add_comm]
    exact low
  have rank : infinityRank ≤ roundDiv num (den * 2 ^ shift) + shift * binade := by
    have binades : 2046 * binade ≤ shift * binade := Nat.mul_le_mul_right _ (by omega)
    have := Nat.le_trans digits (div_le_roundDiv num (den * 2 ^ shift))
    rw [infinityRank_eq]
    omega
  simp only [nearest, same, Nat.add_sub_cancel, Nat.pow_eq, ofRank, infinity,
    Nat.min_eq_right rank]

end Magnitude

end Scriptlet
