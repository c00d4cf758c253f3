import Scriptlet.Proofs.Lexeme

/-! # Numerals with text behind them

What `numeralRun` finds has one of the shapes of numerals. A numeral of such a shape is
found again in front of any text that does not carry it on. A point with a name behind it
carries on a row of digits only if the name makes an exponent.
-/

namespace Scriptlet

open CharClass

/-- The text does not begin with a character of the class `p`. -/
def NoHead (p : Char → Bool) (cs : List Char) : Prop :=
  ∀ c ∈ cs.head?, p c = false

section NoHead

variable {p q : Char → Bool} {c : Char} {cs ds : List Char}

@[simp] theorem noHead_nil : NoHead p [] := nofun

@[simp] theorem noHead_cons : NoHead p (c :: cs) ↔ p c = false := by
  simp [NoHead]

theorem NoHead.append (first : NoHead p cs) (second : cs = [] → NoHead p ds) :
    NoHead p (cs ++ ds) := by
  cases cs with
  | nil => exact second rfl
  | cons c cs => exact noHead_cons.mpr (noHead_cons.mp first)

theorem NoHead.mono (h : NoHead q cs) (narrower : ∀ c, p c = true → q c = true) :
    NoHead p cs := by
  intro c mem
  have free := h c mem
  cases inside : p c
  · rfl
  · rw [narrower c inside] at free
    cases free

theorem NoHead.takeWhile_eq (h : NoHead p cs) : cs.takeWhile p = [] := by
  cases cs with
  | nil => rfl
  | cons c cs => simp [noHead_cons.mp h]

theorem NoHead.takeWhile_append (stop : NoHead p ds) (all : ∀ c ∈ cs, p c = true) :
    (cs ++ ds).takeWhile p = cs := by
  rw [List.takeWhile_append_of_pos all, stop.takeWhile_eq, List.append_nil]

theorem NoHead.dropWhile_append (stop : NoHead p ds) (all : ∀ c ∈ cs, p c = true) :
    (cs ++ ds).dropWhile p = ds := by
  rw [List.dropWhile_append_of_pos all]
  cases ds with
  | nil => rfl
  | cons d ds => simp [noHead_cons.mp stop]

theorem noHead_iff_any : NoHead p cs ↔ cs.head?.any p = false := by
  cases cs <;> simp

theorem noHead_of_forall_mem (none_inside : ∀ c ∈ cs, p c = false) : NoHead p cs :=
  fun c mem => none_inside c (List.mem_of_mem_head? mem)

end NoHead

namespace Numeral

variable {w r : List Char}

/-! ## Shapes -/

/-- Nothing, or a point with digits behind it. -/
def IsFraction (cs : List Char) : Prop :=
  cs = [] ∨ ∃ digits, cs = '.' :: digits ∧ ∀ c ∈ digits, c.isDigit = true

/-- Nothing, or a whole exponent. -/
def IsExponent (cs : List Char) : Prop :=
  cs = [] ∨ ∃ mark sign digits, cs = mark :: (sign ++ digits) ∧ marksExponent mark = true ∧
    (sign = [] ∨ ∃ c, isSign c = true ∧ sign = [c]) ∧ digits ≠ [] ∧ ∀ c ∈ digits, c.isDigit = true

/-- The shapes of numerals. -/
inductive Shape : List Char → Prop where
  | radix {letter : Char} {base : Nat} {digits : List Char} (announced : radix? letter = some base)
      (some_digit : digits ≠ []) (all : ∀ c ∈ digits, isDigitIn base c = true) :
      Shape ('0' :: letter :: digits)
  | decimal {whole fraction exponent : List Char} (isWhole : ∀ c ∈ whole, c.isDigit = true)
      (isFraction : IsFraction fraction) (some_digit : (whole ++ fraction).any Char.isDigit = true)
      (isExponent : IsExponent exponent) : Shape (whole ++ fraction ++ exponent)

theorem ne_nil_of_any {p : Char → Bool} (some_char : w.any p = true) : w ≠ [] := by
  rintro rfl
  cases some_char

theorem Shape.ne_nil (shape : Shape w) : w ≠ [] := by
  cases shape with
  | radix => simp
  | decimal _ _ some_digit _ => exact List.append_ne_nil_of_left_ne_nil (ne_nil_of_any some_digit) _

theorem isFraction_leadingFraction (cs : List Char) : IsFraction (leadingFraction cs) := by
  unfold leadingFraction
  split
  · exact .inr ⟨_, rfl, List.all_eq_true.mp List.all_takeWhile⟩
  · exact .inl rfl

theorem leadingSign_cases (cs : List Char) :
    leadingSign cs = [] ∨ ∃ c, isSign c = true ∧ leadingSign cs = [c] := by
  cases cs with
  | nil => exact .inl rfl
  | cons c cs =>
      cases sign : isSign c
      · exact .inl (by simp [leadingSign, sign])
      · exact .inr ⟨c, sign, by simp [leadingSign, sign]⟩

theorem isExponent_leadingExponent (cs : List Char) : IsExponent (leadingExponent cs) := by
  unfold leadingExponent
  split
  · exact .inl rfl
  · next mark rest =>
      simp only
      split
      · next whole =>
          simp only [Bool.and_eq_true, Bool.not_eq_true', List.isEmpty_eq_false_iff] at whole
          exact .inr ⟨mark, _, _, rfl, whole.1, leadingSign_cases rest, whole.2,
            List.all_eq_true.mp List.all_takeWhile⟩
      · exact .inl rfl

theorem shape_longestDecimal {cs : List Char} (found : longestDecimal cs ≠ []) :
    Shape (longestDecimal cs) := by
  simp only [longestDecimal] at found ⊢
  split at found
  · next some_digit =>
      rw [if_pos some_digit]
      exact .decimal (List.all_eq_true.mp List.all_takeWhile) (isFraction_leadingFraction _)
        some_digit (isExponent_leadingExponent _)
  · exact absurd rfl found

theorem any_isDigit (some_digit : w ≠ []) (all : ∀ c ∈ w, c.isDigit = true) :
    w.any Char.isDigit = true := by
  obtain ⟨c, mem⟩ := List.exists_mem_of_ne_nil w some_digit
  exact List.any_eq_true.mpr ⟨c, mem, all c mem⟩

/-- Digits alone are a numeral. -/
theorem Shape.digits (some_digit : w ≠ []) (all : ∀ c ∈ w, c.isDigit = true) : Shape w := by
  have found : (w ++ []).any Char.isDigit = true := by
    rw [List.append_nil]
    exact any_isDigit some_digit all
  simpa using Shape.decimal all (.inl rfl) found (.inl rfl)

theorem shape_longest {cs : List Char} (found : longest cs ≠ []) : Shape (longest cs) := by
  fun_cases longest cs with
  | case1 => exact .digits (by simp) (List.forall_mem_singleton.mpr rfl)
  | case2 letter rest radix announced digits some_digit =>
      exact .radix announced (by simpa using some_digit) (List.all_eq_true.mp List.all_takeWhile)
  | case3 letter rest absent => 
      rw [longest, absent] at found
      exact shape_longestDecimal found
  | case4 cs other =>
      rw [longest] at found
      · exact shape_longestDecimal found
      · exact other

theorem mem_of_getLast?_append (cs : List Char) {ds : List Char} {c : Char} (some_char : ds ≠ [])
    (last : (cs ++ ds).getLast? = some c) : c ∈ ds := by
  rw [List.getLast?_append, List.getLast?_eq_some_getLast some_char, Option.some_or] at last
  cases last
  exact List.getLast_mem some_char

theorem IsExponent.getLast?_ne {exponent : List Char} (h : IsExponent exponent) (cs : List Char)
    (some_exponent : exponent ≠ []) : (cs ++ exponent).getLast? ≠ some '.' := by
  obtain rfl | ⟨mark, sign, digits, rfl, -, -, some_digit, all⟩ := h
  · exact absurd rfl some_exponent
  · intro last
    have mem := mem_of_getLast?_append (cs ++ mark :: sign) some_digit (by simpa using last)
    cases all '.' mem

/-- A numeral of several characters that ends in a point has digits only in front of it. -/
theorem Shape.of_last_point (shape : Shape w) (last : w.getLast? = some '.') (long : 1 < w.length) :
    Shape w.dropLast := by
  cases shape with
  | @radix letter base digits announced some_digit all =>
      have isDigit := all '.' (mem_of_getLast?_append ['0', letter] some_digit last)
      simp [isDigitIn, digit?] at isDigit
  | @decimal whole fraction exponent isWhole isFraction _ isExponent =>
      by_cases plain : exponent = []
      · subst plain
        obtain rfl | ⟨digits, rfl, all⟩ := isFraction
        · simp only [List.append_nil] at last
          cases isWhole '.' (List.mem_of_getLast? last)
        · cases digits with
          | nil =>
              rw [List.append_nil, List.dropLast_concat]
              refine .digits ?_ isWhole
              rintro rfl
              simp at long
          | cons c digits =>
              have mem := mem_of_getLast?_append (whole ++ ['.']) (List.cons_ne_nil c digits)
                (by simpa using last)
              cases all '.' mem
      · exact absurd last (isExponent.getLast?_ne _ plain)

/-- Whatever is found as a numeral has the shape of one. -/
theorem shape_numeralRun {cs : List Char} (found : Lexeme.numeralRun cs ≠ []) :
    Shape (Lexeme.numeralRun cs) := by
  simp only [Lexeme.numeralRun] at found ⊢
  split
  · next point =>
      simp only [gt_iff_lt, Bool.and_eq_true, decide_eq_true_eq, beq_iff_eq] at point
      refine Shape.of_last_point (shape_longest ?_) point.1.2 point.1.1
      intro nothing
      simp [nothing] at point
  · next other =>
      rw [if_neg other] at found
      exact shape_longest found

/-! ## Text behind a numeral -/

theorem continuesSymbol_of_radix? (c : Char) (h : (radix? c).isSome = true) :
    continuesSymbol c = true ∧ c.isDigit = false := by
  have letter : c ∈ ['x', 'X', 'o', 'O', 'b', 'B'] := by
    unfold radix? at h
    grind
  have letters : ['x', 'X', 'o', 'O', 'b', 'B'].all
      (fun c => continuesSymbol c && !c.isDigit) = true := by decide
  simpa using List.all_eq_true.mp letters c letter

theorem radix?_of_isDigit {c : Char} (h : c.isDigit = true) : (radix? c).isSome = false := by
  cases announced : (radix? c).isSome
  · rfl
  · cases h.symm.trans (continuesSymbol_of_radix? c announced).2

theorem eq_of_marksExponent {c : Char} (h : marksExponent c = true) : c = 'e' ∨ c = 'E' := by
  simpa [marksExponent] using h

theorem continuesSymbol_of_isDigitIn {base : Nat} (c : Char) (h : isDigitIn base c = true) :
    continuesSymbol c = true := by
  have letter : c.isAlpha = (c.isUpper || c.isLower) := rfl
  simp only [isDigitIn, digit?] at h
  simp only [continuesSymbol, Char.isAlphanum, letter]
  grind

/-- A text is a decimal as far as numerals go, unless a letter behind a zero says
    otherwise. -/
theorem longest_of_noHead {cs : List Char}
    (decimal : cs.head? = some '0' → NoHead (fun c => (radix? c).isSome) cs.tail) :
    longest cs = longestDecimal cs := by
  unfold longest
  split
  · next letter rest =>
      have absent := noHead_cons.mp (decimal rfl)
      split
      · next announced => simp [announced] at absent
      · rfl
  · rfl

theorem leadingExponent_of_noHead {cs : List Char} (h : NoHead marksExponent cs) :
    leadingExponent cs = [] := by
  cases cs with
  | nil => rfl
  | cons c cs => simp [leadingExponent, noHead_cons.mp h]

theorem isSign_of_isDigit {c : Char} (h : c.isDigit = true) : isSign c = false := by
  cases sign : isSign c
  · rfl
  · obtain rfl | rfl : c = '+' ∨ c = '-' := by simpa [isSign] using sign
    · cases h
    · cases h

/-- A newline belongs to no exponent. -/
theorem leadingExponent_newline (cs rest : List Char) :
    leadingExponent (cs ++ '\n' :: rest) = leadingExponent cs := by
  cases cs with
  | nil => simp [leadingExponent, marksExponent]
  | cons mark cs =>
      have sign : leadingSign (cs ++ '\n' :: rest) = leadingSign cs := by
        cases cs with
        | nil => simp [leadingSign, isSign]
        | cons c cs => simp [leadingSign]
      have digits (ds : List Char) :
          (ds ++ '\n' :: rest).takeWhile Char.isDigit = ds.takeWhile Char.isDigit := by
        induction ds with
        | nil => simp
        | cons d ds ih => simp [List.takeWhile_cons, ih]
      have short : (leadingSign cs).length ≤ cs.length := (leadingSign_isPrefix cs).length_le
      rw [List.cons_append, leadingExponent, sign, List.drop_append_of_le_length short, digits,
        leadingExponent]

theorem leadingSign_append {sign digits : List Char}
    (signs : sign = [] ∨ ∃ c, isSign c = true ∧ sign = [c]) (some_digit : digits ≠ [])
    (all : ∀ c ∈ digits, c.isDigit = true) : leadingSign (sign ++ (digits ++ r)) = sign := by
  obtain rfl | ⟨c, isSign, rfl⟩ := signs
  · obtain ⟨c, digits, rfl⟩ := List.exists_cons_of_ne_nil some_digit
    simp [leadingSign, isSign_of_isDigit (all c (by simp))]
  · simp [leadingSign, isSign]

theorem leadingExponent_append {exponent : List Char} (isExponent : IsExponent exponent)
    (stop : NoHead Char.isDigit r) (plain : exponent = [] → leadingExponent r = []) :
    leadingExponent (exponent ++ r) = exponent := by
  obtain rfl | ⟨mark, sign, digits, rfl, marks, signs, some_digit, all⟩ := isExponent
  · exact plain rfl
  · have found : leadingSign (sign ++ (digits ++ r)) = sign := leadingSign_append signs some_digit all
    simp [leadingExponent, found, stop.takeWhile_append all, marks, some_digit]

theorem leadingFraction_append {fraction : List Char} (isFraction : IsFraction fraction)
    (stop : NoHead Char.isDigit r) (point : fraction = [] → NoHead (· == '.') r) :
    leadingFraction (fraction ++ r) = fraction := by
  obtain rfl | ⟨digits, rfl, all⟩ := isFraction
  · unfold leadingFraction
    split
    · next same =>
        have absent := point rfl
        rw [List.nil_append] at same
        simp [same] at absent
    · rfl
  · simp [leadingFraction, stop.takeWhile_append all]

theorem IsFraction.noHead {fraction : List Char} (h : IsFraction fraction) {p : Char → Bool}
    (point : p '.' = false) : NoHead p fraction := by
  obtain rfl | ⟨digits, rfl, -⟩ := h
  · exact noHead_nil
  · exact noHead_cons.mpr point

theorem IsExponent.noHead {exponent : List Char} (h : IsExponent exponent) {p : Char → Bool}
    (marks : p 'e' = false ∧ p 'E' = false) : NoHead p exponent := by
  obtain rfl | ⟨mark, sign, digits, rfl, isMark, -⟩ := h
  · exact noHead_nil
  · obtain rfl | rfl := eq_of_marksExponent isMark
    · exact noHead_cons.mpr marks.1
    · exact noHead_cons.mpr marks.2

/-- The mantissa of a decimal is found in front of what does not carry it on. -/
theorem longestDecimal_append {whole fraction : List Char}
    (isWhole : ∀ c ∈ whole, c.isDigit = true) (isFraction : IsFraction fraction)
    (some_digit : (whole ++ fraction).any Char.isDigit = true) (stop : NoHead Char.isDigit r)
    (point : fraction = [] → NoHead (· == '.') r) :
    longestDecimal (whole ++ fraction ++ r) = whole ++ fraction ++ leadingExponent r := by
  have behind : NoHead Char.isDigit (fraction ++ r) :=
    (isFraction.noHead (by decide)).append fun _ => stop
  have taken := behind.takeWhile_append isWhole
  have left := behind.dropWhile_append isWhole
  have found := leadingFraction_append isFraction stop point
  have kept : (whole ++ (fraction ++ r)).drop (whole ++ fraction).length = r := by
    rw [← List.append_assoc, List.drop_left]
  rw [List.append_assoc]
  simp only [longestDecimal, taken, left, found, kept, some_digit, if_true]

theorem continuesSymbol_of_marksExponent (c : Char) (h : marksExponent c = true) :
    continuesSymbol c = true := by
  obtain rfl | rfl := eq_of_marksExponent h <;> decide

/-- No letter announces another base behind the first character of a mantissa. -/
theorem noHead_radix {whole fraction : List Char} (isWhole : ∀ c ∈ whole, c.isDigit = true)
    (isFraction : IsFraction fraction) (some_char : whole ++ fraction ≠ [])
    (stop : fraction = [] → NoHead (fun c => (radix? c).isSome) r) :
    (whole ++ fraction ++ r).head? = some '0' →
      NoHead (fun c => (radix? c).isSome) (whole ++ fraction ++ r).tail := by
  intro zero
  cases whole with
  | nil =>
      obtain rfl | ⟨digits, rfl, -⟩ := isFraction
      · exact absurd rfl some_char
      · cases zero
  | cons c whole =>
      have digits : NoHead (fun c => (radix? c).isSome) whole :=
        noHead_of_forall_mem fun d mem => radix?_of_isDigit (isWhole d (.tail c mem))
      exact (digits.append fun _ => isFraction.noHead (by decide)).append fun nothing =>
        stop (List.append_eq_nil_iff.mp nothing).2

/-- A decimal is found in front of what does not carry it on. -/
theorem longest_append_decimal {whole fraction exponent : List Char}
    (isWhole : ∀ c ∈ whole, c.isDigit = true) (isFraction : IsFraction fraction)
    (some_digit : (whole ++ fraction).any Char.isDigit = true) (isExponent : IsExponent exponent)
    (stop : NoHead continuesSymbol r)
    (point : fraction = [] → exponent = [] → NoHead (· == '.') r) :
    longest (whole ++ fraction ++ exponent ++ r) = whole ++ fraction ++ exponent := by
  have stopDigits := stop.mono continuesSymbol_of_isDigit
  have digits : NoHead Char.isDigit (exponent ++ r) :=
    (isExponent.noHead (by decide)).append fun _ => stopDigits
  have points : fraction = [] → NoHead (· == '.') (exponent ++ r) :=
    fun nothing => (isExponent.noHead (by decide)).append (point nothing)
  have letters : NoHead (fun c => (radix? c).isSome) (exponent ++ r) :=
    (isExponent.noHead (by decide)).append fun _ => stop.mono fun c h => (continuesSymbol_of_radix? c h).1
  have found : leadingExponent (exponent ++ r) = exponent :=
    leadingExponent_append isExponent stopDigits fun _ =>
      leadingExponent_of_noHead (stop.mono continuesSymbol_of_marksExponent)
  rw [List.append_assoc (whole ++ fraction),
    longest_of_noHead (noHead_radix isWhole isFraction (ne_nil_of_any some_digit) fun _ => letters),
    longestDecimal_append isWhole isFraction some_digit digits points, found]

theorem longest_append_radix {letter : Char} {base : Nat} {digits : List Char}
    (announced : radix? letter = some base) (some_digit : digits ≠ [])
    (all : ∀ c ∈ digits, isDigitIn base c = true) (stop : NoHead continuesSymbol r) :
    longest ('0' :: letter :: digits ++ r) = '0' :: letter :: digits := by
  have taken := (stop.mono continuesSymbol_of_isDigitIn).takeWhile_append all
  simp [longest, announced, taken, some_digit]

/-- A point at the end is given up only if something behind it wants it. -/
theorem numeralRun_of_longest (found : longest (w ++ r) = w)
    (keeps : w.getLast? = some '.' → NoHead (fun c => c == '.' || startsSymbol c) r) :
    Lexeme.numeralRun (w ++ r) = w := by
  simp only [Lexeme.numeralRun, found, List.drop_left]
  refine if_neg fun wanted => ?_
  simp only [Bool.and_eq_true, beq_iff_eq] at wanted
  obtain ⟨⟨-, last⟩, wanted⟩ := wanted
  rw [noHead_iff_any.mp (keeps last)] at wanted
  cases wanted

/-- A numeral is found in front of what does not carry it on. -/
theorem Shape.numeralRun_append (shape : Shape w) (stop : NoHead continuesSymbol r)
    (point : NoHead (· == '.') r) : Lexeme.numeralRun (w ++ r) = w := by
  have found : longest (w ++ r) = w := by
    cases shape with
    | radix announced some_digit all => exact longest_append_radix announced some_digit all stop
    | decimal isWhole isFraction some_digit isExponent =>
        exact longest_append_decimal isWhole isFraction some_digit isExponent stop fun _ _ => point
  refine numeralRun_of_longest found fun _ c mem => ?_
  have other := (stop.mono continuesSymbol_of_startsSymbol) c mem
  simp only [other, point c mem, Bool.or_self]

/-- So is one before a point, unless it consists of digits. -/
theorem Shape.numeralRun_append_point (shape : Shape w) (last : w.getLast? ≠ some '.')
    (other : ¬∀ c ∈ w, c.isDigit = true) : Lexeme.numeralRun (w ++ '.' :: r) = w := by
  have stop : NoHead continuesSymbol ('.' :: r) := noHead_cons.mpr (by decide)
  refine numeralRun_of_longest ?_ fun point => absurd point last
  cases shape with
  | radix announced some_digit all => exact longest_append_radix announced some_digit all stop
  | decimal isWhole isFraction some_digit isExponent =>
      refine longest_append_decimal isWhole isFraction some_digit isExponent stop ?_
      rintro rfl rfl
      simp only [List.append_nil] at other
      exact absurd isWhole other

/-- Digits with a point behind them, and a name behind that. -/
theorem numeralRun_digits_point (some_digit : w ≠ []) (all : ∀ c ∈ w, c.isDigit = true)
    (name : ∃ c ∈ r.head?, startsSymbol c = true) :
    Lexeme.numeralRun (w ++ '.' :: r) =
      if leadingExponent r = [] then w else w ++ '.' :: leadingExponent r := by
  obtain ⟨c, head, starts⟩ := name
  obtain ⟨rest, rfl⟩ := List.head?_eq_some_iff.mp head
  have stop : NoHead Char.isDigit (c :: rest) := noHead_cons.mpr (isDigit_of_startsSymbol c starts)
  have fraction : IsFraction ['.'] := .inr ⟨[], rfl, nofun⟩
  have mantissa : (w ++ ['.']).any Char.isDigit = true := by
    rw [List.any_append, any_isDigit some_digit all, Bool.true_or]
  have found : longest (w ++ '.' :: c :: rest) = w ++ '.' :: leadingExponent (c :: rest) := by
    have decimal := longestDecimal_append all fraction mantissa stop nofun
    rw [← longest_of_noHead (noHead_radix all fraction (ne_nil_of_any mantissa) nofun)] at decimal
    simpa using decimal
  split
  · next plain =>
      have long : w.length ≠ 0 := mt List.length_eq_zero_iff.mp some_digit
      simp [Lexeme.numeralRun, found, plain, starts, long]
  · next some_exponent =>
      obtain ⟨more, same⟩ := leadingExponent_isPrefix (c :: rest)
      have last := (isExponent_leadingExponent (c :: rest)).getLast?_ne (w ++ ['.']) some_exponent
      have behind : w ++ '.' :: c :: rest = w ++ '.' :: leadingExponent (c :: rest) ++ more := by
        rw [List.append_assoc, List.cons_append, same]
      rw [behind] at found ⊢
      exact numeralRun_of_longest found fun point => absurd (by simpa using point) last

end Numeral

end Scriptlet
