import Scriptlet.CharClass

/-! # Classes of characters are apart

No character of a name is a blank, and separators, operators and quotes are neither. The
classes with few characters are checked one character at a time.
-/

namespace Scriptlet.CharClass

variable {p : Char → Bool} {c : Char}

theorem of_isSeparator (all : ['(', ')', '\x7b', '\x7d', '[', ']', ';'].all p = true)
    (h : isSeparator c = true) : p c = true :=
  List.all_eq_true.mp all c (by simpa [isSeparator] using h)

theorem of_isOperator
    (all : ['+', '-', '*', '/', '%', '<', '=', '>', '?', ':', '!', '&', '|', '^', '~', ',', '.'].all
      p = true) (h : isOperator c = true) : p c = true :=
  List.all_eq_true.mp all c (by simpa [isOperator] using h)

theorem of_isQuote (all : ['\'', '"'].all p = true) (h : isQuote c = true) : p c = true :=
  List.all_eq_true.mp all c (by simpa [isQuote] using h)

theorem isAlpha_iff_toNat :
    c.isAlpha = true ↔ (65 ≤ c.toNat ∧ c.toNat ≤ 90) ∨ (97 ≤ c.toNat ∧ c.toNat ≤ 122) := by
  have unfolded : c.isAlpha = (decide (c.val ≥ 'A'.val ∧ c.val ≤ 'Z'.val) ||
      (decide (c.val ≥ 'a'.val) && decide (c.val ≤ 'z'.val))) := rfl
  rw [unfolded]
  simp [UInt32.le_iff_toNat_le]

theorem isDigit_iff_toNat : c.isDigit = true ↔ 48 ≤ c.toNat ∧ c.toNat ≤ 57 :=
  Char.isDigit_iff_toNat

theorem continuesSymbol_of_isDigit (c : Char) (h : c.isDigit = true) : continuesSymbol c = true := by
  simp [continuesSymbol, Char.isAlphanum, h]

theorem continuesSymbol_of_startsSymbol (c : Char) (h : startsSymbol c = true) :
    continuesSymbol c = true := by
  simp only [startsSymbol, Bool.or_eq_true] at h
  obtain (alpha | underscore) | dollar := h
  · simp [continuesSymbol, Char.isAlphanum, alpha]
  · simp [continuesSymbol, underscore]
  · simp [continuesSymbol, dollar]

theorem isDigit_of_startsSymbol (c : Char) (h : startsSymbol c = true) : c.isDigit = false := by
  simp only [startsSymbol, Bool.or_eq_true, beq_iff_eq] at h
  obtain (alpha | rfl) | rfl := h
  · rw [isAlpha_iff_toNat] at alpha
    rw [Bool.eq_false_iff, ne_eq, isDigit_iff_toNat]
    omega
  · decide
  · decide

/-- What cannot stand inside a name begins neither a name nor a numeral. -/
theorem unnamed_of_continuesSymbol (h : continuesSymbol c = false) :
    startsSymbol c = false ∧ c.isDigit = false := by
  constructor
  · cases starts : startsSymbol c
    · rfl
    · cases h.symm.trans (continuesSymbol_of_startsSymbol c starts)
  · cases digit : c.isDigit
    · rfl
    · cases h.symm.trans (continuesSymbol_of_isDigit c digit)

theorem isBlank_of_continuesSymbol (h : continuesSymbol c = true) : isBlank c = false := by
  simp only [continuesSymbol, Char.isAlphanum, Bool.or_eq_true, isAlpha_iff_toNat,
    isDigit_iff_toNat, beq_iff_eq] at h
  obtain (ascii | rfl) | rfl := h
  · simp only [isBlank, Bool.or_eq_false_iff, Bool.and_eq_false_iff, decide_eq_false_iff_not,
      beq_eq_false_iff_ne]
    omega
  · decide
  · decide

theorem ne_slash_of_continuesSymbol (h : continuesSymbol c = true) : c ≠ '/' := by
  rintro rfl
  cases h

theorem apart_of_isSeparator (h : isSeparator c = true) :
    continuesSymbol c = false ∧ isBlank c = false ∧ c ≠ '/' ∧ c ≠ '.' := by
  have apart := of_isSeparator
    (p := fun c => !continuesSymbol c && !isBlank c && c != '/' && c != '.') (by decide) h
  simpa [and_assoc] using apart

theorem apart_of_isOperator (h : isOperator c = true) :
    continuesSymbol c = false ∧ isBlank c = false ∧ isSeparator c = false := by
  have apart := of_isOperator
    (p := fun c => !continuesSymbol c && !isBlank c && !isSeparator c) (by decide) h
  simpa [and_assoc] using apart

theorem isOperator_of_continuesSymbol (h : continuesSymbol c = true) : isOperator c = false := by
  cases operator : isOperator c
  · rfl
  · cases h.symm.trans (apart_of_isOperator operator).1

theorem apart_of_isQuote (h : isQuote c = true) : isBlank c = false ∧ c ≠ '/' := by
  have apart := of_isQuote (p := fun c => !isBlank c && c != '/') (by decide) h
  simpa using apart

end Scriptlet.CharClass
