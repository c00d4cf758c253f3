import Scriptlet.Decimal.Layout
import Scriptlet.Proofs.Decimal
import Scriptlet.Proofs.Numeral.Conversion

/-! # Written decimals are read back

The text of a decimal is a decimal of the same value, with the point in front of its digits,
among them or behind zeros that fill it up, or with an exponent. Which of the two it is depends
only on the size of the number.
-/

namespace Scriptlet

open Numeral

namespace Numeral

theorem natOfDigits_digitsOf (n : ℕ) : natOfDigits (digitsOf n) = n :=
  Nat.ofDigitChars_ten_toDigits

theorem natOfDigits_zeros_append (k : ℕ) (digits : List Char) :
    natOfDigits (List.replicate k '0' ++ digits) = natOfDigits digits := by
  have zeros : Nat.ofDigitChars 10 (List.replicate k '0') 0 = 0 := Nat.ofDigitChars_replicate_zero
  change Nat.ofDigitChars 10 _ 0 = _
  rw [Nat.ofDigitChars_append, zeros]
  rfl

theorem natOfDigits_append_zeros (digits : List Char) (k : ℕ) :
    natOfDigits (digits ++ List.replicate k '0') = 10 ^ k * natOfDigits digits := by
  change Nat.ofDigitChars 10 _ 0 = _
  rw [Nat.ofDigitChars_append, Nat.ofDigitChars_replicate_zero]
  rfl

theorem digitsOf_ne_nil (n : ℕ) : digitsOf n ≠ [] :=
  Nat.toDigits_ne_nil

theorem isDigit_of_mem_digitsOf {n : ℕ} : ∀ c ∈ digitsOf n, c.isDigit = true :=
  fun _ mem => Nat.isDigit_of_mem_toDigits (by decide) (by decide) mem

theorem isDigit_of_mem_zeros {k : ℕ} : ∀ c ∈ List.replicate k '0', c.isDigit = true := by
  intro c mem
  rw [List.eq_of_mem_replicate mem]
  rfl

section Positions

variable {digits : List Char} (some_digit : digits ≠ []) (all : ∀ c ∈ digits, c.isDigit = true)

include all

theorem decimal?_point_before (k : ℕ) :
    decimal? ('0' :: '.' :: (List.replicate k '0' ++ digits)) =
      some ⟨natOfDigits digits, -(k + digits.length : ℕ)⟩ := by
  have filled : ∀ c ∈ List.replicate k '0' ++ digits, c.isDigit = true :=
    List.forall_mem_append.mpr ⟨isDigit_of_mem_zeros, all⟩
  have zero : ∀ c ∈ ['0'], c.isDigit = true := List.forall_mem_singleton.mpr rfl
  have read := decimal?_append zero (.inr ⟨_, rfl, filled⟩) rfl (.inl rfl)
  have value : natOfDigits ('0' :: (List.replicate k '0' ++ digits)) = natOfDigits digits :=
    natOfDigits_zeros_append (k + 1) digits
  simpa [exponent?, value] using read

include some_digit

theorem decimal?_point_among (n : ℕ) :
    decimal? (digits.take n ++ '.' :: digits.drop n) =
      some ⟨natOfDigits digits, -(digits.length - n : ℕ)⟩ := by
  have parts : ∀ c ∈ digits.take n ++ digits.drop n, c.isDigit = true := by
    rwa [List.take_append_drop]
  obtain ⟨isWhole, isRest⟩ := List.forall_mem_append.mp parts
  have found : (digits.take n ++ '.' :: digits.drop n).any Char.isDigit = true := by
    have kept := any_isDigit some_digit all
    rw [← List.take_append_drop n digits, List.any_append] at kept
    simpa using kept
  have read := decimal?_append isWhole (.inr ⟨_, rfl, isRest⟩) found (.inl rfl)
  simpa [exponent?] using read

theorem decimal?_point_behind (k : ℕ) :
    decimal? (digits ++ List.replicate k '0') = some ⟨10 ^ k * natOfDigits digits, 0⟩ := by
  have filled : ∀ c ∈ digits ++ List.replicate k '0', c.isDigit = true :=
    List.forall_mem_append.mpr ⟨all, isDigit_of_mem_zeros⟩
  have found : (digits ++ List.replicate k '0' ++ []).any Char.isDigit = true := by
    rw [List.append_nil, List.any_append, any_isDigit some_digit all, Bool.true_or]
  have read := decimal?_append filled (.inl rfl) found (.inl rfl)
  simpa [exponent?, natOfDigits_append_zeros] using read

end Positions

end Numeral

namespace Layout

variable {digits : List Char}

/-- The point stands in front of the digits, among them, or behind zeros that follow them. -/
theorem decimal?_positional (some_digit : digits ≠ []) (all : ∀ c ∈ digits, c.isDigit = true)
    (point : ℤ) :
    ∃ d, decimal? (display.positional digits point).toList = some d ∧
      d.toRat = Decimal.toRat ⟨natOfDigits digits, point - digits.length⟩ := by
  simp only [positional]
  split
  · next before =>
      have places : -((-point).toNat + digits.length : ℕ) = point - digits.length := by omega
      have text : ("0." ++ String.ofList (List.replicate (-point).toNat '0' ++ digits)).toList =
          '0' :: '.' :: (List.replicate (-point).toNat '0' ++ digits) := by
        simp
      rw [text, decimal?_point_before all, places]
      exact ⟨_, rfl, rfl⟩
  · next inside =>
      split
      · next among =>
          have places : -(digits.length - point.toNat : ℕ) = point - digits.length := by omega
          have text : (String.ofList (digits.take point.toNat) ++ "." ++
                String.ofList (digits.drop point.toNat)).toList =
              digits.take point.toNat ++ '.' :: digits.drop point.toNat := by
            simp
          rw [text, decimal?_point_among some_digit all, places]
          exact ⟨_, rfl, rfl⟩
      · next behind =>
          have places : ((point.toNat - digits.length : ℕ) : ℤ) = point - digits.length := by omega
          have text : (String.ofList (digits ++ List.replicate (point.toNat - digits.length) '0') ++
                display.whole).toList =
              digits ++ List.replicate (point.toNat - digits.length) '0' := by
            simp [display]
          rw [text, decimal?_point_behind some_digit all]
          refine ⟨_, rfl, ?_⟩
          rw [← places, Decimal.toRat, Decimal.toRat, zpow_zero, zpow_natCast]
          push_cast
          rw [mul_one, mul_comm]

/-- The sign that is written in front of the digits of an exponent. -/
def exponentSign (exponent : ℤ) : List Char :=
  if exponent < 0 then ['-'] else ['+']

theorem isSign_exponentSign (exponent : ℤ) : IsSign (exponentSign exponent) := by
  unfold exponentSign
  split
  · exact .inr ⟨'-', rfl, rfl⟩
  · exact .inr ⟨'+', rfl, rfl⟩

theorem isExponent_written (exponent : ℤ) :
    IsExponent ('e' :: (exponentSign exponent ++ digitsOf exponent.natAbs)) :=
  .inr ⟨'e', _, _, rfl, rfl, isSign_exponentSign exponent, digitsOf_ne_nil _,
    isDigit_of_mem_digitsOf⟩

theorem exponent?_written (exponent : ℤ) :
    exponent? ('e' :: (exponentSign exponent ++ digitsOf exponent.natAbs)) = some exponent := by
  rw [exponent?_append rfl (isSign_exponentSign exponent) (digitsOf_ne_nil _)
    isDigit_of_mem_digitsOf, natOfDigits_digitsOf, exponentSign]
  split
  · rw [if_pos (by decide), Int.ofNat_natAbs_of_nonpos (by omega), Int.neg_neg]
  · rw [if_neg (by decide), Int.natAbs_of_nonneg (by omega)]

/-- One digit stands in front of the point, which is left out if no other digit follows. -/
theorem exists_fraction {rest : List Char} (all : ∀ c ∈ rest, c.isDigit = true) (first : Char)
    (exponent : ℤ) :
    ∃ fraction, IsFraction fraction ∧ fraction.drop 1 = rest ∧
      (display.scientific (first :: rest) exponent).toList =
        [first] ++ fraction ++ 'e' :: (exponentSign exponent ++ digitsOf exponent.natAbs) := by
  have sign : (if exponent < 0 then "-" else display.plus).toList = exponentSign exponent := by
    unfold exponentSign
    split <;> simp [display]
  cases rest with
  | nil =>
      refine ⟨[], .inl rfl, rfl, ?_⟩
      simp [scientific, sign, digitsOf]
  | cons c rest =>
      refine ⟨'.' :: c :: rest, .inr ⟨_, rfl, all⟩, rfl, ?_⟩
      simp [scientific, sign, digitsOf]

theorem decimal?_scientific (some_digit : digits ≠ []) (all : ∀ c ∈ digits, c.isDigit = true)
    (exponent : ℤ) :
    decimal? (display.scientific digits exponent).toList =
      some ⟨natOfDigits digits, exponent + 1 - digits.length⟩ := by
  obtain ⟨first, rest, rfl⟩ := List.exists_cons_of_ne_nil some_digit
  obtain ⟨isFirst, isRest⟩ := List.forall_mem_cons.mp all
  obtain ⟨fraction, isFraction, rfl, text⟩ := exists_fraction isRest first exponent
  have found : ([first] ++ fraction).any Char.isDigit = true := by simp [isFirst]
  rw [text, decimal?_append (List.forall_mem_singleton.mpr isFirst) isFraction found
    (isExponent_written exponent), exponent?_written, List.length_cons, Nat.cast_succ,
    add_sub_add_right_eq_sub]
  rfl

/-- Numbers from a millionth up to, but not including, `10 ^ 21` are written without an
    exponent. -/
theorem writeDecimal_shortest {m : Magnitude} (some_size : m ≠ .zero) :
    display.writeDecimal (.shortest m) =
      let d := Decimal.shortest m
      if (Decimal.magnitude ⟨1, -6⟩).rank ≤ m.rank ∧ m.rank < (Decimal.magnitude ⟨1, 21⟩).rank then
        display.positional (digitsOf d.coefficient) d.point
      else display.scientific (digitsOf d.coefficient) (d.point - 1) := by
  have millionth : Decimal.shortest (Decimal.magnitude ⟨1, -6⟩) = ⟨1, -6⟩ := by decide +kernel
  have large : Decimal.shortest (Decimal.magnitude ⟨1, 21⟩) = ⟨1, 21⟩ := by decide +kernel
  have least := Decimal.lt_point_iff millionth some_size
  have most := Decimal.lt_point_iff large some_size
  have inside : (-6 < (Decimal.shortest m).point ∧ (Decimal.shortest m).point ≤ 20 + 1) ↔
      (Decimal.magnitude ⟨1, -6⟩).rank ≤ m.rank ∧ m.rank < (Decimal.magnitude ⟨1, 21⟩).rank := by
    rw [← least, ← Nat.not_le, ← most]
    omega
  simp only [← inside, writeDecimal, Bool.and_eq_true, decide_eq_true_eq]
  rfl

/-- The text of a decimal is a decimal of the same value. -/
theorem decimal?_writeDecimal (d : Decimal) :
    ∃ d', decimal? (display.writeDecimal d).toList = some d' ∧ d'.toRat = d.toRat := by
  have some_digit := digitsOf_ne_nil d.coefficient
  simp only [writeDecimal]
  split
  · obtain ⟨d', read, same⟩ := decimal?_positional some_digit isDigit_of_mem_digitsOf
      ((digitsOf d.coefficient).length + d.exponent)
    refine ⟨d', read, ?_⟩
    rw [same, natOfDigits_digitsOf, add_sub_cancel_left]
  · rw [decimal?_scientific some_digit isDigit_of_mem_digitsOf]
    refine ⟨_, rfl, ?_⟩
    rw [natOfDigits_digitsOf, sub_add_cancel, add_sub_cancel_left]

end Layout

end Scriptlet
