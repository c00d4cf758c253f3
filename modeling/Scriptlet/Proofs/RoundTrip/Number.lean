import Scriptlet.Proofs.Decimal.Layout
import Scriptlet.Proofs.RoundTrip.Reading
import Scriptlet.Proofs.Value.Comparison

/-! # Numbers on their way through text

The text of a number converts back to the number, and the language reads the text of a number
above zero as one numeral.
-/

namespace Scriptlet

open Numeral Layout

variable {x : Double} {m : Magnitude}

namespace Layout

/-! ## Finite numbers -/

/-- What is selected for a magnitude is written as a decimal that is read as the magnitude. -/
theorem exists_decimal (m : Magnitude) :
    ∃ d, decimal? (display.writeDecimal (.shortest m)).toList = some d ∧ d.magnitude = m := by
  obtain ⟨d, read, same⟩ := decimal?_writeDecimal (.shortest m)
  exact ⟨d, read, (Decimal.magnitude_congr same).trans (Decimal.magnitude_shortest m)⟩

theorem isDecimal_writeDecimal (m : Magnitude) :
    IsDecimal (display.writeDecimal (.shortest m)).toList := by
  obtain ⟨d, read, -⟩ := exists_decimal m
  exact isDecimal_of_decimal? read

theorem value_writeDecimal (m : Magnitude) {sign : List Char} (signs : IsSign sign) :
    value (sign ++ (display.writeDecimal (.shortest m)).toList) = .signed (sign == ['-']) m := by
  obtain ⟨d, read, rfl⟩ := exists_decimal m
  exact value_append signs read

/-- With its sign in front the decimal converts to the number. -/
theorem ofText_writeDecimal (negative : Bool) (m : Magnitude) :
    ofText ((if negative then "-" else "") ++ display.writeDecimal (.shortest m)).toList =
      .signed negative m := by
  have isDecimal := isDecimal_writeDecimal m
  generalize same : (if negative then "-" else "").toList = sign
  have signs : IsSign sign := by
    subst same
    cases negative
    · exact .inl rfl
    · exact .inr ⟨'-', rfl, rfl⟩
  have solid : ∀ c ∈ sign ++ (display.writeDecimal (.shortest m)).toList, CharClass.isBlank c = false :=
    fun c mem => isBlank_of_isDecimalChar (List.forall_mem_append.mpr
      ⟨isDecimalChar_of_isSign signs, isDecimal.isDecimalChar⟩ c mem)
  have trimmed := trim_append (u := []) (v := []) nofun solid nofun
  rw [String.toList_append, same]
  rw [List.append_nil, List.nil_append] at trimmed
  rw [ofText_decimal signs isDecimal trimmed, value_writeDecimal m signs]
  subst same
  cases negative <;> rfl

/-! ## All numbers -/

theorem write_zero (negative : Bool) : display.write (.signed negative .zero) = "0" := by
  cases negative <;> decide +kernel

theorem ofText_zero : ofText "0".toList = .zero := by
  decide +kernel

theorem ofText_infinity (negative : Bool) :
    ofText (display.write (.signed negative .infinity)).toList = .signed negative .infinity := by
  cases negative <;> decide +kernel

theorem write_of_finite {negative : Bool} (finite : m.isFinite = true) (some_size : m.isZero = false) :
    display.write (.signed negative m) =
      (if negative then "-" else "") ++ display.writeDecimal (.shortest m) := by
  simp [write, finite, some_size]

/-- The text of a number converts to the number, up to the sign of a zero. -/
theorem ofText_write (number : x ≠ .nan) : (ofText (display.write x).toList).equals x = true := by
  cases x with
  | nan => exact absurd rfl number
  | signed negative m =>
      cases finite : m.isFinite with
      | false =>
          rw [Magnitude.eq_infinity finite, ofText_infinity]
          exact Double.equals_self nofun
      | true =>
          cases nothing : m.isZero with
          | true =>
              rw [Magnitude.isZero_iff.mp nothing, write_zero, ofText_zero]
              cases negative <;> rfl
          | false =>
              rw [write_of_finite finite nothing, ofText_writeDecimal]
              exact Double.equals_self nofun

end Layout

/-! ## One numeral -/

/-- A source that has the shape of a numeral has a single token. -/
theorem Source.tokens_of_shape {text : String} (shape : Shape text.toList) :
    (ofString text).tokens.1 = [{ kind := .number, text, location := .start }] := by
  have ahead : (ofString text).remaining = text.toList := rfl
  obtain ⟨c, rest, begins, opens⟩ := shape.opens
  have visible : NoHead CharClass.isBlank text.toList :=
    noHead_of_forall_mem fun c mem => shape.solid c mem
  have here : (ofString text).skipBlanks = ofString text := by
    simp [skipBlanks, ahead, visible.takeWhile_eq, advance]
  have uncommented : CommentScan.first text.toList = .absent := by
    refine CommentScan.first_of_noHead (begins ▸ noHead_cons.mpr ?_)
    obtain digit | rfl := opens
    · cases slash : c == '/'
      · rfl
      · rw [beq_iff_eq.mp slash] at digit
        cases digit
    · rfl
  have taken : (ofString text).token = _ :=
    tokenAfter_of_first? (by rw [here, ahead, uncommented]) (by rw [here, ahead, shape.first?])
  rw [tokens_of_token taken, tokens_of_remaining_nil]
  · rw [here, String.ofList_toList]
    rfl
  · rw [here, remaining_advance, ahead, List.drop_length]

/-- A number above zero has no sign and is no zero. -/
theorem Double.exists_of_zero_lt (above : zero.compare x = some .lt) :
    ∃ m, x = .signed false m ∧ m.isZero = false := by
  cases x with
  | nan => cases above
  | signed s m =>
      have less : (0 : ℤ) < if s then -(m.rank : ℤ) else m.rank :=
        compare_lt_iff_lt.mp (Option.some_inj.mp above)
      cases s with
      | false =>
          have some_size : m.rank ≠ 0 := by
            rw [if_neg (by decide)] at less
            omega
          exact ⟨m, rfl, by simpa [Magnitude.isZero] using some_size⟩
      | true =>
          rw [if_pos rfl] at less
          omega

/-- Every number is loosely equal to its text, and the text converts to it. The text of a finite
    number above zero is also a source of a single token, a numeral that stands for the number. -/
theorem Value.display_reads_back (x : Double) (given : x ≠ .nan) :
    (ofText (number x).display.toList).equals x = true ∧
    (number x).looseEquals (.string (number x).display) = true ∧
    (x.isFinite = true → Double.zero.compare x = some .lt →
      (Source.ofString (number x).display).tokens.1 =
        [{ kind := .number, text := (number x).display, location := .start }] ∧
      value (number x).display.toList = x) := by
  have back := ofText_write given
  refine ⟨back, ?_, fun finite above => ?_⟩
  · rw [looseEquals_iff rfl rfl]
    change x.compare (ofText (Layout.display.write x).toList) = _
    rw [Double.compare_swap, Double.equals_iff.mp back]
    rfl
  · obtain ⟨m, rfl, some_size⟩ := Double.exists_of_zero_lt above
    have text : (number (.signed false m)).display = Layout.display.writeDecimal (.shortest m) :=
      (write_of_finite finite some_size).trans (String.empty_append)
    have unsigned : IsSign [] := .inl rfl
    have stands := value_writeDecimal m unsigned
    rw [List.nil_append] at stands
    rw [text]
    exact ⟨Source.tokens_of_shape (isDecimal_writeDecimal m).shape, stands⟩

/-- The smallest number above zero is written with an exponent. -/
theorem Value.display_reads_back_smallest :
    let x := Double.signed false (.ofRank 1)
    x ≠ .nan ∧ x.isFinite = true ∧ Double.zero.compare x = some .lt ∧
      (number x).display = "5e-324" ∧
      (number x).looseEquals (.string "5e-324") = true ∧ value "5e-324".toList = x := by
  intro x
  have given : x ≠ .nan := nofun
  have finite : x.isFinite = true := by decide
  have above : Double.zero.compare x = some .lt := by decide
  have text : (number x).display = "5e-324" := by decide +kernel
  obtain ⟨-, equal, single⟩ := display_reads_back x given
  have stands := (single finite above).2
  rw [text] at equal stands
  exact ⟨given, finite, above, text, equal, stands⟩

end Scriptlet
