import Scriptlet.Proofs.Double
import Scriptlet.Proofs.LongestMatch

/-! # Numerals and numbers in strings

The texts that convert to a number are described by `Numeric`. Every numeral of the language is
one of them, and converts to the number that it stands for, also with blanks around it.
-/

namespace Scriptlet.Numeral

open CharClass

variable {w r : List Char}

/-! ## Decimals -/

/-- The texts of decimals without a sign. -/
inductive IsDecimal : List Char → Prop where
  | mk {whole fraction exponent : List Char} (isWhole : ∀ c ∈ whole, c.isDigit = true)
      (isFraction : IsFraction fraction) (some_digit : (whole ++ fraction).any Char.isDigit = true)
      (isExponent : IsExponent exponent) : IsDecimal (whole ++ fraction ++ exponent)

theorem IsDecimal.shape (isDecimal : IsDecimal w) : Shape w := by
  obtain ⟨isWhole, isFraction, some_digit, isExponent⟩ := isDecimal
  exact .decimal isWhole isFraction some_digit isExponent

/-- The texts that can stand in front of a number to give it a sign. -/
def IsSign (sign : List Char) : Prop :=
  sign = [] ∨ ∃ c, isSign c = true ∧ sign = [c]

theorem splitSign_append {sign : List Char} (signs : IsSign sign) (unsigned : NoHead isSign r) :
    splitSign (sign ++ r) = (sign == ['-'], r) := by
  obtain rfl | ⟨c, isSign, rfl⟩ := signs
  · cases r with
    | nil => rfl
    | cons c r =>
        have other := noHead_cons.mp unsigned
        unfold splitSign
        split
        · next same =>
            cases same
            cases other
        · next same =>
            cases same
            cases other
        · rfl
  · obtain rfl | rfl : c = '+' ∨ c = '-' := by simpa [Numeral.isSign] using isSign
    · rfl
    · rfl

theorem exists_sign_of_splitSign (cs : List Char) :
    ∃ sign, IsSign sign ∧ cs = sign ++ (splitSign cs).2 := by
  unfold splitSign
  split
  · exact ⟨['-'], .inr ⟨'-', rfl, rfl⟩, rfl⟩
  · exact ⟨['+'], .inr ⟨'+', rfl, rfl⟩, rfl⟩
  · exact ⟨[], .inl rfl, rfl⟩

theorem noHead_isSign_of_digits {digits : List Char} (all : ∀ c ∈ digits, c.isDigit = true) :
    NoHead isSign digits :=
  noHead_of_forall_mem fun c mem => isSign_of_isDigit (all c mem)

/-- What an exponent is worth. -/
theorem exponent?_append {mark : Char} {sign digits : List Char} (marks : marksExponent mark = true)
    (signs : IsSign sign) (some_digit : digits ≠ []) (all : ∀ c ∈ digits, c.isDigit = true) :
    exponent? (mark :: (sign ++ digits)) =
      some (if sign == ['-'] then -(natOfDigits digits : Int) else natOfDigits digits) := by
  have digital : digits.all Char.isDigit = true := List.all_eq_true.mpr all
  simp only [exponent?, splitSign_append signs (noHead_isSign_of_digits all), marks, digital,
    Bool.true_and, Bool.and_true, Bool.not_eq_true', List.isEmpty_eq_false_iff, ne_eq, some_digit,
    not_false_eq_true, if_true]

theorem isSome_exponent?_iff : (exponent? r).isSome = true ↔ IsExponent r := by
  constructor
  · intro found
    cases r with
    | nil => exact .inl rfl
    | cons mark rest =>
        obtain ⟨sign, signs, same⟩ := exists_sign_of_splitSign rest
        simp only [exponent?] at found
        split at found
        · next whole =>
            simp only [Bool.and_eq_true, Bool.not_eq_true', List.isEmpty_eq_false_iff,
              List.all_eq_true] at whole
            exact .inr ⟨mark, sign, _, by rw [← same], whole.1.1, signs, whole.1.2, whole.2⟩
        · cases found
  · rintro (rfl | ⟨mark, sign, digits, rfl, marks, signs, some_digit, all⟩)
    · rfl
    · rw [exponent?_append marks signs some_digit all]
      rfl

/-- Without its point a mantissa is all digits. -/
theorem isDigit_of_mantissa {whole fraction : List Char} (isWhole : ∀ c ∈ whole, c.isDigit = true)
    (isFraction : IsFraction fraction) : ∀ c ∈ whole ++ fraction.drop 1, c.isDigit = true := by
  intro c mem
  obtain mem | mem := List.mem_append.mp mem
  · exact isWhole c mem
  · obtain rfl | ⟨digits, rfl, all⟩ := isFraction
    · cases mem
    · exact all c mem

/-- A mantissa with a digit does not consist of its point. -/
theorem some_digit_iff {whole fraction : List Char} (isWhole : ∀ c ∈ whole, c.isDigit = true)
    (isFraction : IsFraction fraction) :
    (whole ++ fraction).any Char.isDigit = true ↔ whole ++ fraction.drop 1 ≠ [] := by
  have pointless : (whole ++ fraction).any Char.isDigit = (whole ++ fraction.drop 1).any Char.isDigit := by
    obtain rfl | ⟨digits, rfl, -⟩ := isFraction
    · rfl
    · simp
  rw [pointless]
  constructor
  · intro found nothing
    rw [nothing] at found
    cases found
  · intro some_char
    exact any_isDigit some_char (isDigit_of_mantissa isWhole isFraction)

/-- What a decimal is worth: its digits without the point, and as many places less as there are
    behind it. -/
theorem decimal?_append {whole fraction exponent : List Char}
    (isWhole : ∀ c ∈ whole, c.isDigit = true) (isFraction : IsFraction fraction)
    (some_digit : (whole ++ fraction).any Char.isDigit = true) (isExponent : IsExponent exponent) :
    decimal? (whole ++ fraction ++ exponent) =
      (exponent? exponent).map fun places =>
        ⟨natOfDigits (whole ++ fraction.drop 1), places - (fraction.drop 1).length⟩ := by
  have stop : NoHead Char.isDigit exponent := isExponent.noHead (by decide)
  have behind : NoHead Char.isDigit (fraction ++ exponent) :=
    (isFraction.noHead (by decide)).append fun _ => stop
  have taken := behind.takeWhile_append isWhole
  have left := behind.dropWhile_append isWhole
  have found := leadingFraction_append isFraction stop fun _ => isExponent.noHead (by decide)
  have kept : (whole ++ (fraction ++ exponent)).drop (whole ++ fraction).length = exponent := by
    rw [← List.append_assoc, List.drop_left]
  have digits := (some_digit_iff isWhole isFraction).mp some_digit
  rw [List.append_assoc]
  simp only [decimal?, taken, left, found, kept, List.isEmpty_iff, digits, if_false]

theorem isSome_decimal?_iff : (decimal? w).isSome = true ↔ IsDecimal w := by
  constructor
  · intro found
    have isWhole : ∀ c ∈ w.takeWhile Char.isDigit, c.isDigit = true :=
      List.all_eq_true.mp List.all_takeWhile
    have isFraction := isFraction_leadingFraction (w.dropWhile Char.isDigit)
    obtain ⟨exponent, behind⟩ := leadingFraction_isPrefix (w.dropWhile Char.isDigit)
    have parts : w = w.takeWhile Char.isDigit ++ leadingFraction (w.dropWhile Char.isDigit) ++
        exponent := by
      rw [List.append_assoc, behind, List.takeWhile_append_dropWhile]
    simp only [decimal?] at found
    split at found
    · cases found
    · next some_digit =>
        rw [List.isEmpty_iff, ← ne_eq, ← some_digit_iff isWhole isFraction] at some_digit
        conv at found => enter [1, 1, 2, 1, 2]; rw [parts]
        rw [List.drop_left, Option.isSome_map, isSome_exponent?_iff] at found
        rw [parts]
        exact .mk isWhole isFraction some_digit found
  · rintro ⟨isWhole, isFraction, some_digit, isExponent⟩
    rw [decimal?_append isWhole isFraction some_digit isExponent, Option.isSome_map]
    exact isSome_exponent?_iff.mpr isExponent

theorem isDecimal_of_decimal? {d : Decimal} (decimal : decimal? w = some d) : IsDecimal w :=
  isSome_decimal?_iff.mp (Option.isSome_of_eq_some decimal)

/-! ## Characters of decimals -/

theorem isDecimalChar_of_isDigit {c : Char} (h : c.isDigit = true) : isDecimalChar c = true := by
  simp [isDecimalChar, h]

theorem isDecimalChar_of_isSign {sign : List Char} (signs : IsSign sign) :
    ∀ c ∈ sign, isDecimalChar c = true := by
  obtain rfl | ⟨c, isSign, rfl⟩ := signs
  · exact nofun
  · exact List.forall_mem_singleton.mpr (by simp [isDecimalChar, isSign])

theorem IsDecimal.isDecimalChar (isDecimal : IsDecimal w) : ∀ c ∈ w, isDecimalChar c = true := by
  obtain ⟨isWhole, isFraction, -, isExponent⟩ := isDecimal
  simp only [List.forall_mem_append]
  refine ⟨⟨fun c mem => isDecimalChar_of_isDigit (isWhole c mem), ?_⟩, ?_⟩
  · obtain rfl | ⟨digits, rfl, all⟩ := isFraction
    · exact nofun
    · exact List.forall_mem_cons.mpr ⟨by decide, fun c mem => isDecimalChar_of_isDigit (all c mem)⟩
  · obtain rfl | ⟨mark, sign, digits, rfl, marks, signs, -, all⟩ := isExponent
    · exact nofun
    · simp only [List.forall_mem_cons, List.forall_mem_append]
      exact ⟨by simp [Numeral.isDecimalChar, marks], isDecimalChar_of_isSign signs,
        fun c mem => isDecimalChar_of_isDigit (all c mem)⟩

theorem isBlank_of_isDecimalChar {c : Char} (h : isDecimalChar c = true) : isBlank c = false := by
  simp only [isDecimalChar, isSign, Bool.or_eq_true, beq_iff_eq] at h
  obtain ((digit | rfl) | mark) | rfl | rfl := h
  · exact isBlank_of_continuesSymbol (continuesSymbol_of_isDigit c digit)
  · decide
  · exact isBlank_of_continuesSymbol (continuesSymbol_of_marksExponent c mark)
  · decide
  · decide

theorem toLower_of_isDigit {c : Char} (h : c.isDigit = true) : c.toLower = c := by
  rw [isDigit_iff_toNat] at h
  refine dif_neg fun capital => ?_
  have least : 65 ≤ c.toNat := capital.1
  omega

/-- Every word has an `n`, which no decimal has. -/
theorem word?_eq_none (all : ∀ c ∈ w, isDecimalChar c = true) : word? w = none := by
  have absent : 'n' ∉ w.map Char.toLower := by
    intro mem
    obtain ⟨c, mem, lower⟩ := List.mem_map.mp mem
    have decimal := all c mem
    simp only [isDecimalChar, isSign, Bool.or_eq_true, beq_iff_eq] at decimal
    obtain ((digit | rfl) | mark) | rfl | rfl := decimal
    · rw [toLower_of_isDigit digit] at lower
      rw [lower] at digit
      cases digit
    · cases lower
    · obtain rfl | rfl := eq_of_marksExponent mark <;> cases lower
    · cases lower
    · cases lower
  simp only [word?]
  rw [if_neg, if_neg]
  · intro same
    exact absent (same ▸ by decide)
  · rintro (same | same)
    · exact absent (same ▸ by decide)
    · exact absent (same ▸ by decide)

/-! ## Numerals with a sign -/

theorem signed?_append {sign : List Char} {d : Decimal} (signs : IsSign sign)
    (decimal : decimal? w = some d) :
    signed? (sign ++ w) = some (.signed (sign == ['-']) d.magnitude) := by
  have isDecimal := isDecimal_of_decimal? decimal
  have unsigned : NoHead isSign w := by
    obtain ⟨isWhole, isFraction, -, isExponent⟩ := isDecimal
    exact ((noHead_isSign_of_digits isWhole).append fun _ => isFraction.noHead (by decide)).append
      fun _ => isExponent.noHead (by decide)
  simp only [signed?, splitSign_append signs unsigned, decimal]

/-- No decimal announces another base. -/
theorem radixValue?_append {sign : List Char} (signs : IsSign sign) (isDecimal : IsDecimal w) :
    radixValue? (sign ++ w) = none := by
  obtain rfl | ⟨c, isSign, rfl⟩ := signs
  · obtain ⟨isWhole, isFraction, some_digit, isExponent⟩ := isDecimal
    have apart := noHead_radix isWhole isFraction (ne_nil_of_any some_digit) fun _ =>
      isExponent.noHead (p := fun c => (radix? c).isSome) (by decide)
    rw [List.nil_append]
    unfold radixValue?
    split
    · next same =>
        rw [same] at apart
        simpa using apart rfl
    · rfl
  · obtain rfl | rfl : c = '+' ∨ c = '-' := by simpa [Numeral.isSign] using isSign
    · rfl
    · rfl

/-- A decimal is worth what its digits say, with its sign. -/
theorem value_append {sign : List Char} {d : Decimal} (signs : IsSign sign)
    (decimal : decimal? w = some d) :
    value (sign ++ w) = .signed (sign == ['-']) d.magnitude := by
  have isDecimal := isDecimal_of_decimal? decimal
  rw [value, radixValue?_append signs isDecimal, signed?_append signs decimal]
  rfl

/-! ## Numerals of other bases -/

theorem radix?_bounds {c : Char} {base : Nat} (announced : radix? c = some base) :
    0 < base ∧ base ≤ 16 := by
  unfold radix? at announced
  grind

theorem lt_of_digit? {base d : Nat} {c : Char} (digit : digit? base c = some d) : d < base := by
  simpa using (Option.filter_eq_some_iff.mp digit).2

/-- If every character in `p` leads from a number without a sign to another one, and no other
    character leads anywhere, then a text leads to a number if it is all in `p`. -/
theorem getD_foldlM_ne_nan_iff {f : Double → Char → Option Double} {p : Char → Bool}
    (added : ∀ m c, p c = true → ∃ m', f (.signed false m) c = some (.signed false m'))
    (refused : ∀ x c, p c = false → f x c = none) (m : Magnitude) (cs : List Char) :
    (cs.foldlM f (.signed false m)).getD .nan ≠ .nan ↔ ∀ c ∈ cs, p c = true := by
  induction cs generalizing m with
  | nil => simp
  | cons c cs ih =>
      rw [List.foldlM_cons, List.forall_mem_cons]
      cases inside : p c with
      | false => simp [refused _ c inside]
      | true =>
          obtain ⟨m', same⟩ := added m c inside
          simpa [same] using ih m'

/-- A base has a row of digits for every number, and no other text. -/
theorem ofRadixDigits_ne_nan_iff {letter : Char} {base : Nat} (announced : radix? letter = some base)
    (digits : List Char) :
    ofRadixDigits base digits ≠ .nan ↔ digits ≠ [] ∧ ∀ c ∈ digits, isDigitIn base c = true := by
  obtain ⟨pos, small⟩ := radix?_bounds announced
  have below : base < 2 * binade := Nat.lt_of_le_of_lt small (by decide)
  unfold ofRadixDigits
  split
  · next nothing => simp [List.isEmpty_iff.mp nothing]
  · next some_digit =>
      rw [List.isEmpty_iff] at some_digit
      rw [Double.zero, getD_foldlM_ne_nan_iff (p := isDigitIn base), and_iff_right some_digit]
      · intro m c isDigit
        obtain ⟨d, digit⟩ := Option.isSome_iff_exists.mp isDigit
        obtain ⟨m', scaled⟩ := Double.exists_mul_ofInt m pos below
        obtain ⟨m'', sum⟩ := Double.exists_add_ofInt m' ((lt_of_digit? digit).trans below)
        exact ⟨m'', by simp [digit, scaled, sum]⟩
      · intro x c isDigit
        have none : digit? base c = none := by simpa [isDigitIn] using isDigit
        simp [none]

/-! ## Blanks around a text -/

theorem trim_append {u v : List Char} (before : ∀ c ∈ u, isBlank c = true)
    (solid : ∀ c ∈ w, isBlank c = false) (after : ∀ c ∈ v, isBlank c = true) :
    trim (u ++ w ++ v) = w := by
  cases w with
  | nil =>
      have blank : ∀ c ∈ u ++ v, isBlank c = true := List.forall_mem_append.mpr ⟨before, after⟩
      have nothing : (u ++ v ++ []).dropWhile isBlank = [] := noHead_nil.dropWhile_append blank
      rw [List.append_nil, trim, ← List.append_nil (u ++ v), nothing]
      rfl
  | cons c w =>
      have stop : NoHead isBlank (c :: w ++ v) := noHead_cons.mpr (solid c (by simp))
      have stop' : NoHead isBlank (c :: w).reverse :=
        noHead_of_forall_mem fun d mem => solid d (List.mem_reverse.mp mem)
      have after' : ∀ d ∈ v.reverse, isBlank d = true := fun d mem => after d (List.mem_reverse.mp mem)
      rw [List.append_assoc, trim, stop.dropWhile_append before, List.reverse_append,
        stop'.dropWhile_append after', List.reverse_reverse]

/-! ## Texts that convert to a number -/

/-- The texts, without blanks around them, that convert to a number. -/
inductive Numeric : List Char → Prop where
  | blank : Numeric []
  | infinity {sign : List Char} (signs : IsSign sign) : Numeric (sign ++ "Infinity".toList)
  | radix {letter : Char} {base : Nat} {digits : List Char} (announced : radix? letter = some base)
      (some_digit : digits ≠ []) (all : ∀ c ∈ digits, isDigitIn base c = true) :
      Numeric ('0' :: letter :: digits)
  | decimal {sign rest : List Char} (signs : IsSign sign) (isDecimal : IsDecimal rest) :
      Numeric (sign ++ rest)

/-- A text of digits converts to what a numeral of that text stands for. -/
theorem ofText_eq_value {cs : List Char} (numeral : (radixValue? (trim cs)).isSome = true ∨
      trim cs ≠ [] ∧ (trim cs).all isDecimalChar = true) : ofText cs = value (trim cs) := by
  have plain : trim cs ≠ [] ∧ trim cs ≠ "Infinity".toList ∧ trim cs ≠ "+Infinity".toList ∧
      trim cs ≠ "-Infinity".toList := by
    refine ⟨?_, ?_, ?_, ?_⟩ <;> intro same <;> rw [same] at numeral <;> revert numeral <;> decide
  simp only [ofText, value, List.isEmpty_iff, plain, or_self, if_false]
  cases radix : radixValue? (trim cs) with
  | some x => rfl
  | none =>
      obtain found | ⟨-, all⟩ := numeral
      · rw [radix] at found
        cases found
      · simp only [all, if_true]

theorem ofText_decimal {cs sign : List Char} (signs : IsSign sign) (isDecimal : IsDecimal w)
    (trimmed : trim cs = sign ++ w) : ofText cs = value (sign ++ w) := by
  rw [← trimmed]
  refine ofText_eq_value (.inr ?_)
  rw [trimmed]
  refine ⟨fun nothing => ?_, List.all_eq_true.mpr (List.forall_mem_append.mpr
    ⟨isDecimalChar_of_isSign signs, isDecimal.isDecimalChar⟩)⟩
  rw [(List.append_eq_nil_iff.mp nothing).2] at isDecimal
  cases isSome_decimal?_iff.mpr isDecimal

theorem value_decimal_ne_nan {sign : List Char} (signs : IsSign sign) (isDecimal : IsDecimal w) :
    value (sign ++ w) ≠ .nan := by
  obtain ⟨d, decimal⟩ := Option.isSome_iff_exists.mp (isSome_decimal?_iff.mpr isDecimal)
  rw [value_append signs decimal]
  exact nofun

theorem radixValue?_cons {letter : Char} {base : Nat} (announced : radix? letter = some base)
    (digits : List Char) :
    radixValue? ('0' :: letter :: digits) = some (ofRadixDigits base digits) := by
  rw [radixValue?, announced]
  rfl

theorem ofText_radix {cs digits : List Char} {letter : Char} {base : Nat}
    (announced : radix? letter = some base) (trimmed : trim cs = '0' :: letter :: digits) :
    ofText cs = ofRadixDigits base digits := by
  have found := radixValue?_cons announced digits
  rw [← trimmed] at found
  rw [ofText_eq_value (.inl (by rw [found]; rfl)), value, found]

theorem numeric_of_ofText {cs : List Char} (number : ofText cs ≠ .nan) : Numeric (trim cs) := by
  unfold ofText at number
  generalize trim cs = text at number ⊢
  simp only at number
  split at number
  · next nothing => exact List.isEmpty_iff.mp nothing ▸ .blank
  split at number
  · next word =>
      obtain rfl | rfl := word
      · exact .infinity (.inl rfl)
      · exact .infinity (.inr ⟨'+', rfl, rfl⟩)
  split at number
  · next word => exact word ▸ .infinity (.inr ⟨'-', rfl, rfl⟩)
  split at number
  · next x radix =>
      unfold radixValue? at radix
      split at radix
      · next =>
          obtain ⟨base, announced, rfl⟩ := Option.map_eq_some_iff.mp radix
          obtain ⟨some_digit, all⟩ := (ofRadixDigits_ne_nan_iff announced _).mp number
          exact .radix announced some_digit all
      · cases radix
  split at number
  · next all =>
      obtain ⟨sign, signs, parts⟩ := exists_sign_of_splitSign text
      rw [parts]
      rw [signed?] at number
      cases decimal : decimal? (splitSign text).2 with
      | some d => exact .decimal signs (isDecimal_of_decimal? decimal)
      | none =>
          rw [parts, List.all_append, Bool.and_eq_true, List.all_eq_true, List.all_eq_true] at all
          simp [decimal, word?_eq_none all.2] at number
  · exact absurd rfl number

theorem ofText_ne_nan_iff (cs : List Char) : ofText cs ≠ .nan ↔ Numeric (trim cs) := by
  refine ⟨numeric_of_ofText, fun numeric => ?_⟩
  generalize trimmed : trim cs = text at numeric
  cases numeric with
  | blank =>
      rw [ofText, trimmed]
      rintro ⟨⟩
  | infinity signs =>
      rw [ofText, trimmed]
      obtain rfl | ⟨c, isSign, rfl⟩ := signs
      · rintro ⟨⟩
      · obtain rfl | rfl : c = '+' ∨ c = '-' := by simpa [Numeral.isSign] using isSign
        · rintro ⟨⟩
        · rintro ⟨⟩
  | radix announced some_digit all =>
      rw [ofText_radix announced trimmed, ofRadixDigits_ne_nan_iff announced]
      exact ⟨some_digit, all⟩
  | decimal signs isDecimal =>
      rw [ofText_decimal signs isDecimal trimmed]
      exact value_decimal_ne_nan signs isDecimal

/-! ## Numerals of the language -/

/-- Whatever a text begins with as a numeral has the shape of one. -/
theorem shape_of_first? {cs : List Char} (found : Lexeme.first? cs = some (.number, w)) :
    Shape w := by
  cases cs with
  | nil => cases found
  | cons c rest =>
      cases Lexeme.begins_of_first? found with
      | number _ _ _ some_numeral => exact shape_numeralRun some_numeral

theorem Shape.opens (shape : Shape w) : ∃ c rest, w = c :: rest ∧ (c.isDigit = true ∨ c = '.') := by
  cases shape with
  | radix => exact ⟨'0', _, rfl, .inl rfl⟩
  | @decimal whole fraction exponent isWhole isFraction some_digit =>
      cases whole with
      | cons c whole => exact ⟨c, _, rfl, .inl (isWhole c (by simp))⟩
      | nil =>
          obtain rfl | ⟨digits, rfl, -⟩ := isFraction
          · cases some_digit
          · exact ⟨'.', _, rfl, .inr rfl⟩

/-- A text that has the shape of a numeral is found as one to its end. -/
theorem Shape.first? (shape : Shape w) : Lexeme.first? w = some (.number, w) := by
  obtain ⟨c, rest, rfl, opens⟩ := shape.opens
  have found := shape.numeralRun_append noHead_nil noHead_nil
  rw [List.append_nil] at found
  rw [Lexeme.first?_numeral opens, found, if_neg shape.ne_nil]

theorem Shape.solid (shape : Shape w) : ∀ c ∈ w, isBlank c = false := by
  cases shape with
  | radix announced some_digit all =>
      have letter := (continuesSymbol_of_radix? _ (Option.isSome_of_eq_some announced)).1
      exact List.forall_mem_cons.mpr ⟨by decide, List.forall_mem_cons.mpr
        ⟨isBlank_of_continuesSymbol letter, fun c mem =>
          isBlank_of_continuesSymbol (continuesSymbol_of_isDigitIn c (all c mem))⟩⟩
  | decimal isWhole isFraction some_digit isExponent =>
      exact fun c mem => isBlank_of_isDecimalChar
        ((IsDecimal.mk isWhole isFraction some_digit isExponent).isDecimalChar c mem)

/-- A numeral stands for a number, and a string of the same text converts to it. -/
theorem Shape.ofText_eq_value (shape : Shape w) {cs : List Char} (trimmed : trim cs = w) :
    value w ≠ .nan ∧ ofText cs = value w := by
  cases shape with
  | @radix letter base digits announced some_digit all =>
      rw [ofText_radix announced trimmed, value, radixValue?_cons announced]
      exact ⟨(ofRadixDigits_ne_nan_iff announced digits).mpr ⟨some_digit, all⟩, rfl⟩
  | decimal isWhole isFraction some_digit isExponent =>
      have isDecimal := IsDecimal.mk isWhole isFraction some_digit isExponent
      have unsigned : IsSign [] := .inl rfl
      have number := value_decimal_ne_nan unsigned isDecimal
      have converted := ofText_decimal unsigned isDecimal trimmed
      exact ⟨number, converted⟩

/-- The texts that are a single numeral are those that have the shape of one. A numeral, wherever
    it is found, stands for a number, and a string of the same text converts to the same number,
    also with blanks around it. All strings that convert to a number are numerals, blank, or
    infinity, where a sign may stand before a decimal and before infinity. -/
theorem conversion_agrees :
    (∀ w, Lexeme.first? w = some (.number, w) ↔ Shape w) ∧
    (∀ w r, Lexeme.first? (w ++ r) = some (.number, w) → value w ≠ .nan ∧
      ∀ u v, (∀ c ∈ u, isBlank c = true) → (∀ c ∈ v, isBlank c = true) →
        ofText (u ++ w ++ v) = value w) ∧
    ∀ cs, ofText cs ≠ .nan ↔ Numeric (trim cs) := by
  refine ⟨fun w => ⟨shape_of_first?, Shape.first?⟩, fun w r found => ?_, ofText_ne_nan_iff⟩
  have shape := shape_of_first? found
  have trimmed {u v : List Char} (before : ∀ c ∈ u, isBlank c = true)
      (after : ∀ c ∈ v, isBlank c = true) : trim (u ++ w ++ v) = w :=
    trim_append before shape.solid after
  have unframed := shape.ofText_eq_value (trimmed (u := []) (v := []) nofun nofun)
  exact ⟨unframed.1, fun u v before after => (shape.ofText_eq_value (trimmed before after)).2⟩

/-- A numeral in base 16, in letters of both cases and with blanks around it. -/
theorem conversion_agrees_radix :
    Lexeme.first? "0XfF+1".toList = some (.number, "0XfF".toList) ∧
      value "0XfF".toList ≠ .nan ∧ ofText " \n0XfF\t".toList = value "0XfF".toList := by
  have found : Lexeme.first? ("0XfF".toList ++ "+1".toList) = some (.number, "0XfF".toList) := by
    decide
  obtain ⟨number, same⟩ := conversion_agrees.2.1 _ _ found
  exact ⟨found, number, same " \n".toList "\t".toList (List.all_eq_true.mp (by decide))
    (List.all_eq_true.mp (by decide))⟩

example : ofText "-0x1".toList = .nan := by decide

end Scriptlet.Numeral
