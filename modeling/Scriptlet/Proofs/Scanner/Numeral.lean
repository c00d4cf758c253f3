import Scriptlet.Proofs.LongestMatch
import Scriptlet.Scanner

/-! # How far a candidate for a numeral has come

A candidate is complete exactly if it has the shape of a numeral. One that is not hopeless is
`Promising`: it consists of the parts of a numeral, where the digits of a base or of an exponent
may still be missing. So is every beginning of it. Numerals are promising, hence no numeral
begins with a hopeless candidate, and a scan may stop at the first one.
-/

namespace Scriptlet

open CharClass

/-- What two texts together begin with ends in the first, or goes on in the second. -/
theorem prefix_append_cases {cs ds v : List Char} (isPrefix : v <+: cs ++ ds) :
    v <+: cs ∨ ∃ t, t <+: ds ∧ v = cs ++ t := by
  obtain ⟨rest, same⟩ := isPrefix
  obtain ⟨more, inside, -⟩ | ⟨t, beyond, behind⟩ := List.append_eq_append_iff.mp same
  · exact .inl ⟨more, inside.symm⟩
  · exact .inr ⟨t, ⟨rest, behind.symm⟩, beyond⟩

namespace Numeral

variable {cs v w whole fraction exponent : List Char}

/-- Nothing, or an exponent of which digits may be missing. -/
def IsOpenExponent (cs : List Char) : Prop :=
  cs = [] ∨ ∃ mark sign digits, cs = mark :: (sign ++ digits) ∧ marksExponent mark = true ∧
    (sign = [] ∨ ∃ c, isSign c = true ∧ sign = [c]) ∧ ∀ c ∈ digits, c.isDigit = true

theorem IsExponent.isOpen (h : IsExponent exponent) : IsOpenExponent exponent := by
  obtain rfl | ⟨mark, sign, digits, rfl, marks, signs, -, all⟩ := h
  · exact .inl rfl
  · exact .inr ⟨mark, sign, digits, rfl, marks, signs, all⟩

/-- Candidates made of the parts of a numeral. -/
inductive Promising : List Char → Prop where
  | radix {letter : Char} {base : Nat} {digits : List Char} (announced : radix? letter = some base)
      (all : ∀ c ∈ digits, isDigitIn base c = true) : Promising ('0' :: letter :: digits)
  | decimal {whole fraction exponent : List Char} (isWhole : ∀ c ∈ whole, c.isDigit = true)
      (isFraction : IsFraction fraction) (some_char : whole ++ fraction ≠ [])
      (isOpen : IsOpenExponent exponent) : Promising (whole ++ fraction ++ exponent)

theorem Shape.promising (shape : Shape w) : Promising w := by
  cases shape with
  | radix announced _ all => exact .radix announced all
  | decimal isWhole isFraction some_digit isExponent =>
      exact .decimal isWhole isFraction (ne_nil_of_any some_digit) isExponent.isOpen

/-! ## Beginnings -/

theorem all_of_isPrefix {p : Char → Bool} (isPrefix : v <+: cs) (all : ∀ c ∈ cs, p c = true) :
    ∀ c ∈ v, p c = true :=
  fun c mem => all c (isPrefix.subset mem)

theorem IsFraction.of_isPrefix (h : IsFraction fraction) (isPrefix : v <+: fraction) :
    IsFraction v := by
  obtain rfl | ⟨digits, rfl, all⟩ := h
  · exact .inl (List.prefix_nil.mp isPrefix)
  · obtain rfl | ⟨t, rfl, inside⟩ := List.prefix_cons_iff.mp isPrefix
    · exact .inl rfl
    · exact .inr ⟨t, rfl, all_of_isPrefix inside all⟩

theorem IsOpenExponent.of_isPrefix (h : IsOpenExponent exponent) (isPrefix : v <+: exponent) :
    IsOpenExponent v := by
  obtain rfl | ⟨mark, sign, digits, rfl, marks, signs, all⟩ := h
  · exact .inl (List.prefix_nil.mp isPrefix)
  · obtain rfl | ⟨t, rfl, inside⟩ := List.prefix_cons_iff.mp isPrefix
    · exact .inl rfl
    · obtain part | ⟨u, part, rfl⟩ := prefix_append_cases inside
      · -- there are no digits, and perhaps no sign
        refine .inr ⟨mark, t, [], by simp, marks, ?_, nofun⟩
        obtain rfl | ⟨c, isSign, rfl⟩ := signs
        · exact .inl (List.prefix_nil.mp part)
        · obtain rfl | ⟨u, rfl, nothing⟩ := List.prefix_cons_iff.mp part
          · exact .inl rfl
          · exact .inr ⟨c, isSign, congrArg (c :: ·) (List.prefix_nil.mp nothing)⟩
      · exact .inr ⟨mark, sign, u, rfl, marks, signs, all_of_isPrefix part all⟩

/-- A zero may always be all there is. -/
theorem Promising.zero : Promising ['0'] :=
  (Shape.digits (by simp) (List.forall_mem_singleton.mpr rfl)).promising

/-- Hopes that end were there from the first character on. -/
theorem Promising.of_isPrefix (h : Promising cs) (isPrefix : v <+: cs) (some_char : v ≠ []) :
    Promising v := by
  cases h with
  | @radix letter base digits announced all =>
      obtain rfl | ⟨t, rfl, inside⟩ := List.prefix_cons_iff.mp isPrefix
      · exact absurd rfl some_char
      · obtain rfl | ⟨u, rfl, part⟩ := List.prefix_cons_iff.mp inside
        · exact .zero
        · exact .radix announced (all_of_isPrefix part all)
  | @decimal whole fraction exponent isWhole isFraction some_part isOpen =>
      have none : IsOpenExponent [] := .inl rfl
      obtain inside | ⟨t, inside, rfl⟩ := prefix_append_cases isPrefix
      · obtain part | ⟨t, part, rfl⟩ := prefix_append_cases inside
        · simpa using Promising.decimal (all_of_isPrefix part isWhole) (.inl rfl)
            (by simpa using some_char) none
        · simpa using Promising.decimal isWhole (isFraction.of_isPrefix part) some_char none
      · exact .decimal isWhole isFraction some_part (isOpen.of_isPrefix inside)

/-! ## Counting -/

theorem countDigits_append {r : List Char} (all : ∀ c ∈ cs, c.isDigit = true)
    (stop : NoHead Char.isDigit r) : countDigits (cs ++ r) = (cs.length, r) := by
  rw [countDigits, stop.takeWhile_append all, stop.dropWhile_append all]

theorem countDigits_split (cs : List Char) :
    ∃ digits rest, cs = digits ++ rest ∧ (∀ c ∈ digits, c.isDigit = true) ∧
      countDigits cs = (digits.length, rest) :=
  ⟨_, _, List.takeWhile_append_dropWhile.symm, List.all_eq_true.mp List.all_takeWhile, rfl⟩

theorem passIf_of_noHead {p : Char → Bool} (h : NoHead p cs) : passIf p cs = (false, cs) := by
  cases cs with
  | nil => rfl
  | cons c cs => simp [passIf, noHead_cons.mp h]

theorem passIf_cases (p : Char → Bool) (cs : List Char) :
    (∃ c rest, cs = c :: rest ∧ p c = true ∧ passIf p cs = (true, rest)) ∨
      passIf p cs = (false, cs) := by
  cases cs with
  | nil => exact .inr rfl
  | cons c rest =>
      cases h : p c with
      | false => exact .inr (by simp [passIf, h])
      | true => exact .inl ⟨c, rest, rfl, h, by simp [passIf, h]⟩

theorem IsOpenExponent.noHead (h : IsOpenExponent exponent) {p : Char → Bool}
    (marks : p 'e' = false ∧ p 'E' = false) : NoHead p exponent := by
  obtain rfl | ⟨mark, sign, digits, rfl, isMark, -⟩ := h
  · exact noHead_nil
  · obtain rfl | rfl := eq_of_marksExponent isMark
    · exact noHead_cons.mpr marks.1
    · exact noHead_cons.mpr marks.2

theorem passFraction_append (isFraction : IsFraction fraction) (isOpen : IsOpenExponent exponent) :
    passFraction (fraction ++ exponent) = (!fraction.isEmpty, fraction.length - 1, exponent) := by
  obtain rfl | ⟨digits, rfl, all⟩ := isFraction
  · have absent : passIf (· == '.') exponent = _ := passIf_of_noHead (isOpen.noHead (by decide))
    simp [passFraction, absent]
  · have counted := countDigits_append all (isOpen.noHead (by decide))
    simp [passFraction, passIf, counted]

theorem passFraction_split (cs : List Char) :
    ∃ fraction rest, cs = fraction ++ rest ∧ IsFraction fraction ∧
      passFraction cs = (!fraction.isEmpty, fraction.length - 1, rest) := by
  obtain ⟨c, behind, rfl, point, passed⟩ | absent := passIf_cases (· == '.') cs
  · obtain rfl := beq_iff_eq.mp point
    obtain ⟨digits, rest, rfl, all, counted⟩ := countDigits_split behind
    exact ⟨'.' :: digits, rest, rfl, .inr ⟨digits, rfl, all⟩, by simp [passFraction, passed, counted]⟩
  · exact ⟨[], cs, rfl, .inl rfl, by simp [passFraction, absent]⟩

theorem passIf_sign {sign digits : List Char}
    (signs : sign = [] ∨ ∃ c, isSign c = true ∧ sign = [c])
    (all : ∀ c ∈ digits, c.isDigit = true) : (passIf isSign (sign ++ digits)).2 = digits := by
  obtain rfl | ⟨c, isSign, rfl⟩ := signs
  · have unsigned := noHead_of_forall_mem fun c mem => isSign_of_isDigit (all c mem)
    rw [List.nil_append, passIf_of_noHead unsigned]
  · simp [passIf, isSign]

theorem passExponent_cons {mark : Char} {sign digits : List Char}
    (marks : marksExponent mark = true) (signs : sign = [] ∨ ∃ c, isSign c = true ∧ sign = [c])
    (all : ∀ c ∈ digits, c.isDigit = true) :
    passExponent (mark :: (sign ++ digits)) = (true, digits.length, []) := by
  have passed : passIf marksExponent (mark :: (sign ++ digits)) = (true, sign ++ digits) := by
    simp [passIf, marks]
  have counted : countDigits digits = (digits.length, []) := by
    simpa using countDigits_append all noHead_nil
  simp [passExponent, passed, passIf_sign signs all, counted]

theorem passExponent_of_isOpen (isOpen : IsOpenExponent exponent) :
    ∃ count, passExponent exponent = (!exponent.isEmpty, count, []) := by
  obtain rfl | ⟨mark, sign, digits, rfl, marks, signs, all⟩ := isOpen
  · exact ⟨0, rfl⟩
  · exact ⟨digits.length, passExponent_cons marks signs all⟩

theorem passExponent_of_isExponent (isExponent : IsExponent exponent) :
    ∃ count, passExponent exponent = (!exponent.isEmpty, count, []) ∧
      ((!exponent.isEmpty) = true → count > 0) := by
  obtain rfl | ⟨mark, sign, digits, rfl, marks, signs, some_digit, all⟩ := isExponent
  · exact ⟨0, rfl, nofun⟩
  · exact ⟨digits.length, passExponent_cons marks signs all,
      fun _ => List.length_pos_iff.mpr some_digit⟩

theorem passIf_sign_split (cs : List Char) :
    ∃ sign rest, cs = sign ++ rest ∧ (sign = [] ∨ ∃ c, isSign c = true ∧ sign = [c]) ∧
      (passIf isSign cs).2 = rest := by
  obtain ⟨c, rest, rfl, isSign, passed⟩ | absent := passIf_cases isSign cs
  · exact ⟨[c], rest, rfl, .inr ⟨c, isSign, rfl⟩, by rw [passed]⟩
  · exact ⟨[], cs, rfl, .inl rfl, by rw [absent]⟩

theorem passExponent_split (cs : List Char) :
    ∃ exponent rest count, cs = exponent ++ rest ∧ IsOpenExponent exponent ∧
      passExponent cs = (!exponent.isEmpty, count, rest) ∧
      (((!exponent.isEmpty) = true → count > 0) → IsExponent exponent) := by
  obtain ⟨mark, behind, rfl, marks, passed⟩ | absent := passIf_cases marksExponent cs
  · obtain ⟨sign, after, rfl, signs, unsigned⟩ := passIf_sign_split behind
    obtain ⟨digits, rest, rfl, all, counted⟩ := countDigits_split after
    refine ⟨mark :: (sign ++ digits), rest, digits.length, by simp,
      .inr ⟨mark, sign, digits, rfl, marks, signs, all⟩, ?_, fun whole => ?_⟩
    · simp [passExponent, passed, unsigned, counted]
    · exact .inr ⟨mark, sign, digits, rfl, marks, signs,
        List.length_pos_iff.mp (whole rfl), all⟩
  · exact ⟨[], cs, 0, rfl, .inl rfl, by simp [passExponent, absent], fun _ => .inl rfl⟩

/-! ## Candidates -/

/-- The digits of a mantissa, counted. -/
theorem mantissa_any_digit (isWhole : ∀ c ∈ whole, c.isDigit = true)
    (isFraction : IsFraction fraction) :
    (whole.length > 0 ∨ fraction.length - 1 > 0) ↔
      (whole ++ fraction).any Char.isDigit = true := by
  have digits {ds : List Char} (all : ∀ c ∈ ds, c.isDigit = true) :
      ds.length > 0 ↔ ds.any Char.isDigit = true := by
    cases ds with
    | nil => simp
    | cons d ds => simp [all d]
  rw [List.any_append, Bool.or_eq_true, digits isWhole]
  obtain rfl | ⟨ds, rfl, all⟩ := isFraction
  · simp
  · have point : ('.' :: ds).any Char.isDigit = ds.any Char.isDigit := rfl
    rw [point, ← digits all]
    rfl

theorem fitDecimal_append {count : Nat} (isWhole : ∀ c ∈ whole, c.isDigit = true)
    (isFraction : IsFraction fraction) (some_char : whole ++ fraction ≠ [])
    (isOpen : IsOpenExponent exponent)
    (passed : passExponent exponent = (!exponent.isEmpty, count, [])) :
    fitDecimal (whole ++ fraction ++ exponent) =
      if (whole ++ fraction).any Char.isDigit = true ∧ ((!exponent.isEmpty) = true → count > 0)
      then .complete else .unfinished := by
  have stop : NoHead Char.isDigit (fraction ++ exponent) :=
    (isFraction.noHead (by decide)).append fun _ => isOpen.noHead (by decide)
  have mantissa : ¬(whole.length = 0 ∧ (!!fraction.isEmpty) = true) := by
    simpa using some_char
  simp only [fitDecimal, List.append_assoc, countDigits_append isWhole stop,
    passFraction_append isFraction isOpen, passed, if_neg mantissa, mantissa_any_digit isWhole isFraction]
  rfl

/-- A candidate that is not hopeless consists of the parts of a numeral. If it is complete, no
    digits are missing. -/
theorem fitDecimal_split (hope : fitDecimal cs ≠ .hopeless) :
    ∃ whole fraction exponent, cs = whole ++ fraction ++ exponent ∧
      (∀ c ∈ whole, c.isDigit = true) ∧ IsFraction fraction ∧ whole ++ fraction ≠ [] ∧
      IsOpenExponent exponent ∧
      (fitDecimal cs = .complete →
        (whole ++ fraction).any Char.isDigit = true ∧ IsExponent exponent) := by
  obtain ⟨whole, behind, rfl, isWhole, counted⟩ := countDigits_split cs
  obtain ⟨fraction, behind, rfl, isFraction, passed⟩ := passFraction_split behind
  obtain ⟨exponent, rest, count, rfl, isOpen, passed', closed⟩ := passExponent_split behind
  simp only [fitDecimal, counted, passed, passed'] at hope ⊢
  by_cases nothing : whole.length = 0 ∧ (!!fraction.isEmpty) = true
  · exact absurd (if_pos nothing) hope
  rw [if_neg nothing] at hope ⊢
  by_cases more : (!rest.isEmpty) = true
  · exact absurd (if_pos more) hope
  rw [if_neg more]
  obtain rfl : rest = [] := by simpa using more
  refine ⟨whole, fraction, exponent, by simp, isWhole, isFraction, by simpa using nothing, isOpen,
    fun complete => ?_⟩
  split at complete
  · next counts => exact ⟨(mantissa_any_digit isWhole isFraction).mp counts.1, closed counts.2⟩
  · cases complete

theorem fit_of_radix {letter : Char} {base : Nat} (announced : radix? letter = some base)
    (digits : List Char) :
    fit ('0' :: letter :: digits) =
      if !digits.all (isDigitIn base) then .hopeless
      else if digits.isEmpty then .unfinished
      else .complete := by
  simp [fit, announced]

theorem fit_cases (cs : List Char) :
    (∃ letter base digits, cs = '0' :: letter :: digits ∧ radix? letter = some base) ∨
      fit cs = fitDecimal cs := by
  unfold fit
  split
  · next letter digits =>
      cases announced : radix? letter with
      | some base => exact .inl ⟨letter, base, digits, rfl, announced⟩
      | none => exact .inr rfl
  · exact .inr rfl

theorem fit_of_noHead (decimal : cs.head? = some '0' → NoHead (fun c => (radix? c).isSome) cs.tail) :
    fit cs = fitDecimal cs := by
  obtain ⟨letter, base, digits, rfl, announced⟩ | same := fit_cases cs
  · have absent := noHead_cons.mp (decimal rfl)
    simp [announced] at absent
  · exact same

theorem fit_of_decimal {count : Nat} (isWhole : ∀ c ∈ whole, c.isDigit = true)
    (isFraction : IsFraction fraction) (some_char : whole ++ fraction ≠ [])
    (isOpen : IsOpenExponent exponent)
    (passed : passExponent exponent = (!exponent.isEmpty, count, [])) :
    fit (whole ++ fraction ++ exponent) =
      if (whole ++ fraction).any Char.isDigit = true ∧ ((!exponent.isEmpty) = true → count > 0)
      then .complete else .unfinished := by
  rw [fit_of_noHead (noHead_radix isWhole isFraction some_char fun _ => isOpen.noHead (by decide)),
    fitDecimal_append isWhole isFraction some_char isOpen passed]

/-- The candidates that are not hopeless. -/
theorem fit_ne_hopeless_iff : fit cs ≠ .hopeless ↔ Promising cs := by
  constructor
  · intro hope
    obtain ⟨letter, base, digits, rfl, announced⟩ | decimal := fit_cases cs
    · cases all : digits.all (isDigitIn base) with
      | true => exact .radix announced (List.all_eq_true.mp all)
      | false =>
          rw [fit_of_radix announced, all] at hope
          exact absurd rfl hope
    · rw [decimal] at hope
      obtain ⟨whole, fraction, exponent, rfl, isWhole, isFraction, some_char, isOpen, -⟩ :=
        fitDecimal_split hope
      exact .decimal isWhole isFraction some_char isOpen
  · intro promising
    cases promising with
    | radix announced all =>
        rw [fit_of_radix announced, List.all_eq_true.mpr all]
        simp only [Bool.not_true, Bool.false_eq_true, if_false]
        split <;> nofun
    | decimal isWhole isFraction some_char isOpen =>
        obtain ⟨count, passed⟩ := passExponent_of_isOpen isOpen
        rw [fit_of_decimal isWhole isFraction some_char isOpen passed]
        split <;> nofun

/-- The candidates that are numerals. -/
theorem fit_eq_complete_iff : fit cs = .complete ↔ Shape cs := by
  constructor
  · intro complete
    obtain ⟨letter, base, digits, rfl, announced⟩ | decimal := fit_cases cs
    · rw [fit_of_radix announced] at complete
      split at complete
      · cases complete
      next all =>
      split at complete
      · cases complete
      next some_digit =>
      exact .radix announced (by simpa using some_digit) (by simpa using all)
    · rw [decimal] at complete
      have hope : fitDecimal cs ≠ .hopeless := by
        rw [complete]
        nofun
      obtain ⟨whole, fraction, exponent, rfl, isWhole, isFraction, -, -, closed⟩ :=
        fitDecimal_split hope
      obtain ⟨some_digit, isExponent⟩ := closed complete
      exact .decimal isWhole isFraction some_digit isExponent
  · intro shape
    cases shape with
    | radix announced some_digit all =>
        rw [fit_of_radix announced, List.all_eq_true.mpr all]
        simp [some_digit]
    | decimal isWhole isFraction some_digit isExponent =>
        obtain ⟨count, passed, some_exponent⟩ := passExponent_of_isExponent isExponent
        rw [fit_of_decimal isWhole isFraction (ne_nil_of_any some_digit) isExponent.isOpen passed]
        exact if_pos ⟨some_digit, some_exponent⟩

/-- No numeral begins with a hopeless candidate. -/
theorem not_shape_of_hopeless (hopeless : fit v = .hopeless) (some_char : v ≠ [])
    (isPrefix : v <+: w) : ¬Shape w :=
  fun shape => fit_ne_hopeless_iff.mpr (shape.promising.of_isPrefix isPrefix some_char) hopeless

-- not hopeless, although nothing makes a numeral of it: more is read then than is needed
example : fit ".e5".toList = .unfinished := by decide

end Numeral

end Scriptlet
