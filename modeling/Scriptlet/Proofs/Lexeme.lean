import Scriptlet.Lexeme
import Scriptlet.Operator
import Scriptlet.Proofs.CharClass
import Scriptlet.Token

/-! # What lexemes look like

Whatever is found at the front of a text is a beginning of the text, and its first
character tells its class. A lexeme is `Lexical` if some text begins with it, as the
tokens of every source are.
-/

namespace Scriptlet

open CharClass

namespace Numeral

theorem leadingFraction_isPrefix (cs : List Char) : leadingFraction cs <+: cs := by
  unfold leadingFraction
  split
  · exact List.prefix_cons_inj _ |>.mpr (List.takeWhile_prefix _)
  · exact List.nil_prefix

theorem leadingSign_isPrefix (cs : List Char) : leadingSign cs <+: cs := by
  unfold leadingSign
  obtain _ | ⟨c, cs⟩ := cs
  · simp
  · simp only [List.take_succ_cons, List.take_zero, List.filter_cons, List.filter_nil]
    split <;> simp

/-- What a text begins with behind one of its beginnings extends that beginning. -/
theorem isPrefix_append {cs ds es : List Char} (first : ds <+: cs)
    (second : es <+: cs.drop ds.length) : ds ++ es <+: cs := by
  obtain ⟨rest, rfl⟩ := first
  rw [List.drop_left] at second
  exact (List.prefix_append_right_inj ds).mpr second

theorem leadingExponent_isPrefix (cs : List Char) : leadingExponent cs <+: cs := by
  unfold leadingExponent
  split
  · exact List.nil_prefix
  · simp only
    split
    · exact (List.prefix_cons_inj _).mpr
        (isPrefix_append (leadingSign_isPrefix _) (List.takeWhile_prefix _))
    · exact List.nil_prefix

theorem longestDecimal_isPrefix (cs : List Char) : longestDecimal cs <+: cs := by
  have mantissa :
      cs.takeWhile Char.isDigit ++ leadingFraction (cs.dropWhile Char.isDigit) <+: cs := by
    refine isPrefix_append (List.takeWhile_prefix _) ?_
    have same : cs.drop (cs.takeWhile Char.isDigit).length = cs.dropWhile Char.isDigit := by
      conv => lhs; arg 2; rw [← List.takeWhile_append_dropWhile (p := Char.isDigit) (l := cs)]
      rw [List.drop_left]
    rw [same]
    exact leadingFraction_isPrefix _
  simp only [longestDecimal]
  split
  · exact isPrefix_append mantissa (leadingExponent_isPrefix _)
  · exact List.nil_prefix

theorem longest_isPrefix (cs : List Char) : longest cs <+: cs := by
  unfold longest
  split
  · split
    · simp only
      split
      · simp
      · simp [List.takeWhile_prefix]
    · exact longestDecimal_isPrefix _
  · exact longestDecimal_isPrefix _

end Numeral

namespace Lexeme

theorem operatorRun_isPrefix (cs : List Char) : operatorRun cs <+: cs := by
  fun_induction operatorRun cs with
  | case1 => exact List.nil_prefix
  | case2 c rest _ ih => exact (List.prefix_cons_inj _).mpr ih
  | case3 c rest _ _ ih => exact (List.prefix_cons_inj _).mpr ih
  | case4 => exact List.nil_prefix
  | case5 => exact List.nil_prefix

theorem numeralRun_isPrefix (cs : List Char) : numeralRun cs <+: cs := by
  simp only [numeralRun]
  split
  · exact (List.dropLast_prefix _).trans (Numeral.longest_isPrefix cs)
  · exact Numeral.longest_isPrefix cs

/-- A character is no backslash if it stands neither alone nor escapes another as one. -/
theorem ne_backslash {c : Char} {cs : List Char} (lone : c = '\\' → cs = [] → False)
    (escaped : ∀ d ds, c = '\\' → cs = d :: ds → False) : c ≠ '\\' := by
  rintro rfl
  cases cs with
  | nil => exact lone rfl rfl
  | cons d ds => exact escaped d ds rfl rfl

theorem stringRest?_isPrefix {quote : Char} {cs more : List Char}
    (h : stringRest? quote cs = some more) : more <+: cs := by
  fun_induction stringRest? quote cs generalizing more with
  | case1 => cases h
  | case2 => cases h
  | case3 c rest ih =>
      obtain ⟨tail, found, rfl⟩ := Option.map_eq_some_iff.mp h
      simpa using ih found
  | case4 rest _ =>
      cases h
      simp
  | case5 c rest _ _ _ ih =>
      obtain ⟨tail, found, rfl⟩ := Option.map_eq_some_iff.mp h
      simpa using ih found

/-- The lexemes that a text can begin with, by its first character. -/
inductive Begins (c : Char) (rest : List Char) : Kind → List Char → Prop where
  | separator (isSeparator : isSeparator c = true) : Begins c rest .separator [c]
  | symbol (plain : isSeparator c = false) (starts : startsSymbol c = true) :
      Begins c rest .symbol (c :: rest.takeWhile continuesSymbol)
  | number (plain : isSeparator c = false) (unnamed : startsSymbol c = false)
      (opens : (c.isDigit || c == '.') = true) (some_numeral : numeralRun (c :: rest) ≠ []) :
      Begins c rest .number (numeralRun (c :: rest))
  | point (plain : isSeparator c = false) (unnamed : startsSymbol c = false)
      (opens : (c.isDigit || c == '.') = true) (no_numeral : numeralRun (c :: rest) = []) :
      Begins c rest .operator (c :: operatorRun rest)
  | operator (plain : isSeparator c = false) (unnamed : startsSymbol c = false)
      (unnumbered : (c.isDigit || c == '.') = false) (isOperator : isOperator c = true) :
      Begins c rest .operator (c :: operatorRun rest)
  | string {more : List Char} (plain : isSeparator c = false) (unnamed : startsSymbol c = false)
      (unnumbered : (c.isDigit || c == '.') = false) (inoperative : CharClass.isOperator c = false)
      (quotes : isQuote c = true) (closed : stringRest? c rest = some more) :
      Begins c rest .string (c :: more)
  | other (plain : isSeparator c = false) (unnamed : startsSymbol c = false) :
      Begins c rest .other [c]

/-- The first character tells separators and symbols from all else. -/
theorem Begins.kind_iff {c : Char} {rest text : List Char} {kind : Kind}
    (begins : Begins c rest kind text) :
    (kind = .separator ↔ isSeparator c = true) ∧ (kind = .symbol ↔ startsSymbol c = true) := by
  cases begins with
  | separator isSeparator =>
      have unnamed := unnamed_of_continuesSymbol (apart_of_isSeparator isSeparator).1
      simp [isSeparator, unnamed.1]
  | symbol plain starts => simp [plain, starts]
  | number plain unnamed | point plain unnamed | operator plain unnamed | string plain unnamed
  | other plain unnamed => simp [plain, unnamed]

theorem Begins.head {c : Char} {rest text : List Char} {kind : Kind}
    (begins : Begins c rest kind text) : text.head? = some c := by
  cases begins with
  | number _ _ _ some_numeral =>
      obtain ⟨behind, same⟩ := numeralRun_isPrefix (c :: rest)
      obtain ⟨d, more, numeral⟩ := List.exists_cons_of_ne_nil some_numeral
      rw [numeral] at same ⊢
      cases same
      rfl
  | _ => rfl

theorem begins_of_first? {c : Char} {rest text : List Char} {kind : Kind}
    (h : first? (c :: rest) = some (kind, text)) : Begins c rest kind text := by
  simp only [first?] at h
  split at h
  · next isSeparator =>
      cases h
      exact .separator isSeparator
  next plain =>
  split at h
  · next starts =>
      cases h
      exact .symbol (by simpa using plain) starts
  next unnamed =>
  simp only [Bool.not_eq_true] at plain unnamed
  split at h
  · next opens =>
      split at h
      · next no_numeral =>
          cases h
          exact .point plain unnamed opens (List.isEmpty_iff.mp no_numeral)
      · next some_numeral =>
          cases h
          exact .number plain unnamed opens (mt List.isEmpty_iff.mpr some_numeral)
  next unnumbered =>
  simp only [Bool.not_eq_true] at unnumbered
  split at h
  · next isOperator =>
      cases h
      exact .operator plain unnamed unnumbered isOperator
  next inoperative =>
  simp only [Bool.not_eq_true] at inoperative
  split at h
  · next quotes =>
      obtain ⟨more, closed, same⟩ := Option.map_eq_some_iff.mp h
      cases same
      exact .string plain unnamed unnumbered inoperative quotes closed
  · cases h
    exact .other plain unnamed

/-- The lexeme at the front of a text is a beginning of the text. -/
theorem isPrefix_of_first? {cs text : List Char} {kind : Kind}
    (h : first? cs = some (kind, text)) : text <+: cs := by
  cases cs with
  | nil => cases h
  | cons c rest =>
      cases begins_of_first? h with
      | separator | other => simp
      | symbol => simp [List.takeWhile_prefix]
      | number => exact numeralRun_isPrefix _
      | point | operator => simp [operatorRun_isPrefix]
      | string _ _ _ _ _ closed => simpa using stringRest?_isPrefix closed

theorem eq_iff {l m : Lexeme} : l = m ↔ l.kind = m.kind ∧ l.text = m.text := by
  cases l
  cases m
  simp

/-- Some text begins with this lexeme. -/
def Lexical (l : Lexeme) : Prop :=
  ∃ cs, first? cs = some (l.kind, l.text.toList)

theorem Lexical.begins {l : Lexeme} (lexical : l.Lexical) :
    ∃ c rest, Begins c rest l.kind l.text.toList := by
  obtain ⟨_ | ⟨c, rest⟩, found⟩ := lexical
  · cases found
  · exact ⟨c, rest, begins_of_first? found⟩

theorem Lexical.head {l : Lexeme} (lexical : l.Lexical) :
    ∃ c ∈ l.text.toList.head?, (l.kind = .separator ↔ isSeparator c = true) ∧
      (l.kind = .symbol ↔ startsSymbol c = true) := by
  obtain ⟨c, rest, begins⟩ := lexical.begins
  exact ⟨c, begins.head, begins.kind_iff⟩

theorem startsSymbol_of_symbol {l : Lexeme} (lexical : l.Lexical) (kind : l.kind = .symbol) :
    ∃ c ∈ l.text.toList.head?, startsSymbol c = true := by
  obtain ⟨c, head, -, symbol⟩ := lexical.head
  exact ⟨c, head, symbol.mp kind⟩

end Lexeme

namespace CommentScan

theorem blockRest?_isPrefix {cs more : List Char} (h : blockRest? cs = some more) : more <+: cs := by
  fun_induction blockRest? cs generalizing more with
  | case1 =>
      cases h
      simp
  | case2 c rest _ ih =>
      obtain ⟨tail, found, rfl⟩ := Option.map_eq_some_iff.mp h
      simpa using ih found
  | case3 => cases h

end CommentScan

namespace Token

theorem isOperator_iff {t : Token} {text : String} :
    t.isOperator text = true ↔ t.kind = .operator ∧ t.text = text := by
  rw [isOperator, beq_iff_eq, Lexeme.eq_iff]
  rfl

theorem isSymbol_iff {t : Token} {text : String} :
    t.isSymbol text = true ↔ t.kind = .symbol ∧ t.text = text := by
  rw [isSymbol, beq_iff_eq, Lexeme.eq_iff]
  rfl

theorem isSeparator_iff {t : Token} {c : Char} :
    t.isSeparator c = true ↔ t.kind = .separator ∧ t.text = c.toString := by
  rw [isSeparator, beq_iff_eq, Lexeme.eq_iff]
  rfl

end Token

namespace Source

theorem lexical_tokenAfter {comments : List Comment} {s : Source} {t : Token}
    (h : (s.tokenAfter comments).1 = some t) : t.Lexical := by
  fun_induction tokenAfter comments s with
  | case1 comments s here text found ih => exact ih h
  | case2 => simp at h
  | case3 comments s here absent kind text first =>
      cases h
      exact ⟨here.remaining, by simpa using first⟩
  | case4 => simp at h

/-- Every token of a source is a lexeme at the front of some text. -/
theorem lexical_tokens {s : Source} : ∀ t ∈ s.tokens.1, t.Lexical := by
  fun_induction tokens s with
  | case1 s t rest taken more last remaining ih =>
      rw [remaining] at ih
      intro u mem
      obtain rfl | mem := List.mem_cons.mp mem
      · exact lexical_tokenAfter (congrArg Prod.fst taken)
      · exact ih u mem
  | case2 => simp

end Source

end Scriptlet
