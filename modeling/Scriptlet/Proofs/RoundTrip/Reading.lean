import Scriptlet.Proofs.Grammar.Written
import Scriptlet.Proofs.LongestMatch

/-! # What a text is read as

`Reads` says that a text begins with blanks and lexemes, each of which stands by itself in
front of what comes next, so that a source is read as these lexemes. A lexeme that trees
are written with stands in front of everything that does not carry it on.
-/

namespace Scriptlet

open CharClass

/-- A text that begins with this lexeme and goes on with `rest` is read as the lexeme
    first. -/
structure Lexeme.Stands (l : Lexeme) (rest : List Char) : Prop where
  visible : NoHead isBlank l.text.toList
  uncommented : CommentScan.first (l.text.toList ++ rest) = .absent
  found : first? (l.text.toList ++ rest) = some (l.kind, l.text.toList)

/-- The text is read as these lexemes, as far as the text behind them. -/
inductive Reads : List Char → List Lexeme → List Char → Prop where
  | done {cs} : Reads cs [] cs
  | blank {c cs ls rest} (isBlank : isBlank c = true) (more : Reads cs ls rest) :
      Reads (c :: cs) ls rest
  | lexeme {l cs ls rest} (stands : Lexeme.Stands l cs) (more : Reads cs ls rest) :
      Reads (l.text.toList ++ cs) (l :: ls) rest

namespace Reads

variable {cs ds es : List Char} {ls ms : List Lexeme}

theorem trans (first : Reads cs ls ds) (second : Reads ds ms es) : Reads cs (ls ++ ms) es := by
  induction first with
  | done => exact second
  | blank isBlank _ ih => exact .blank isBlank (ih second)
  | lexeme stands _ ih => exact .lexeme stands (ih second)

end Reads

namespace Source

variable {s : Source} {cs rest : List Char} {ls : List Lexeme}

/-- A blank in front of a text makes no difference to its tokens. -/
theorem token_of_blank {c : Char} (h : s.remaining = c :: cs) (blank : isBlank c = true) :
    s.token = s.read.2.token := by
  have same : s.skipBlanks = s.read.2.skipBlanks := by
    simp [skipBlanks, h, blank, advance]
  unfold token tokenAfter
  rw [same]

theorem token_of_stands {l : Lexeme} (h : s.remaining = l.text.toList ++ rest)
    (stands : l.Stands rest) :
    ∃ t s', s.token = (some t, s') ∧ t.toLexeme = l ∧ s'.remaining = rest := by
  have nonempty := (Lexeme.length_pos_of_first? stands.found).1
  have visible : NoHead isBlank (l.text.toList ++ rest) :=
    stands.visible.append fun nothing => by simp [nothing] at nonempty
  have here : s.skipBlanks = s := by simp [skipBlanks, h, visible.takeWhile_eq, advance]
  have taken : s.token = _ := tokenAfter_of_first? (by rw [here, h, stands.uncommented])
    (by rw [here, h, stands.found])
  refine ⟨_, _, taken, ?_, ?_⟩
  · exact Lexeme.eq_iff.mpr ⟨rfl, by simp⟩
  · simp [here, h]

/-- A source is read as its text is. -/
theorem tokens_of_reads (reads : Reads cs ls rest) (h : s.remaining = cs) :
    ∃ s' : Source, s'.remaining = rest ∧
      s.tokens.1.map (·.toLexeme) = ls ++ s'.tokens.1.map (·.toLexeme) := by
  induction reads generalizing s with
  | done => exact ⟨s, h, rfl⟩
  | blank isBlank _ ih =>
      obtain ⟨s', remaining, same⟩ := ih (s := s.read.2) (by simp [h])
      refine ⟨s', remaining, ?_⟩
      rw [tokens, token_of_blank h isBlank, ← tokens]
      exact same
  | lexeme stands _ ih =>
      obtain ⟨t, rest, taken, rfl, behind⟩ := token_of_stands h stands
      obtain ⟨s', remaining, same⟩ := ih behind
      refine ⟨s', remaining, ?_⟩
      rw [tokens_of_token taken, List.map_cons, same]
      rfl

theorem tokens_ofString {text : String} (reads : Reads text.toList ls []) :
    (ofString text).tokens.1.map (·.toLexeme) = ls := by
  obtain ⟨s', nothing, same⟩ := tokens_of_reads reads (show (ofString text).remaining = _ from rfl)
  rw [same, tokens_of_remaining_nil nothing, List.map_nil, List.append_nil]

end Source

/-! ## Lexemes of written trees -/

theorem CommentScan.first_of_noHead {cs : List Char} (h : NoHead (· == '/') cs) :
    first cs = .absent := by
  unfold first
  split
  · cases noHead_cons.mp h
  · cases noHead_cons.mp h
  · rfl

namespace Lexeme

variable {rest : List Char}

/-- A lexeme stands if it is found, unless a blank or a slash comes first. -/
theorem stands_of_found {l : Lexeme} {c : Char} {cs : List Char} (text : l.text.toList = c :: cs)
    (visible : isBlank c = false) (uncommented : c ≠ '/')
    (found : first? (c :: cs ++ rest) = some (l.kind, c :: cs)) : l.Stands rest := by
  refine ⟨?_, ?_, ?_⟩
  · simpa [text] using visible
  · exact CommentScan.first_of_noHead (by simpa [text] using uncommented)
  · rw [text]
    exact found

theorem stands_separator {c : Char} (h : isSeparator c = true) : (separator c).Stands rest := by
  obtain ⟨-, visible, uncommented, -⟩ := apart_of_isSeparator h
  have text : (separator c).text.toList = [c] := by simp [separator]
  exact stands_of_found text visible uncommented (by simp [first?, h, separator])

theorem stands_symbol {l : Lexeme} (lexical : l.Lexical) (kind : l.kind = .symbol)
    (stop : NoHead continuesSymbol rest) : l.Stands rest := by
  obtain ⟨c, cs, begins⟩ := lexical.begins
  rw [kind] at begins
  generalize text : l.text.toList = w at begins
  cases begins with
  | symbol plain starts =>
      have continues := continuesSymbol_of_startsSymbol c starts
      refine stands_of_found text (isBlank_of_continuesSymbol continues)
        (ne_slash_of_continuesSymbol continues) ?_
      have taken : (cs.takeWhile continuesSymbol ++ rest).takeWhile continuesSymbol = _ :=
        stop.takeWhile_append (List.all_eq_true.mp List.all_takeWhile)
      simp [first?, plain, starts, kind, taken]

theorem stringRest?_append {quote : Char} {cs more : List Char}
    (closed : stringRest? quote cs = some more) : stringRest? quote (more ++ rest) = some more := by
  fun_induction stringRest? quote cs generalizing more with
  | case1 => cases closed
  | case2 => cases closed
  | case3 c cs ih =>
      obtain ⟨tail, found, rfl⟩ := Option.map_eq_some_iff.mp closed
      simp [stringRest?, ih found]
  | case4 cs lone escaped =>
      cases closed
      simp [stringRest?_cons (ne_backslash lone escaped)]
  | case5 c cs lone escaped other ih =>
      obtain ⟨tail, found, rfl⟩ := Option.map_eq_some_iff.mp closed
      simp [stringRest?_cons (ne_backslash lone escaped), other, ih found]

theorem stands_string {l : Lexeme} (lexical : l.Lexical) (kind : l.kind = .string) :
    l.Stands rest := by
  obtain ⟨c, cs, begins⟩ := lexical.begins
  rw [kind] at begins
  generalize text : l.text.toList = w at begins
  cases begins with
  | string plain unnamed unnumbered inoperative quotes closed =>
      obtain ⟨visible, uncommented⟩ := apart_of_isQuote quotes
      refine stands_of_found text visible uncommented ?_
      simp [first?, plain, unnamed, unnumbered, inoperative, quotes, kind,
        stringRest?_append closed]

theorem shape_of_number {l : Lexeme} (lexical : l.Lexical) (kind : l.kind = .number) :
    Numeral.Shape l.text.toList := by
  obtain ⟨c, cs, begins⟩ := lexical.begins
  rw [kind] at begins
  generalize l.text.toList = w at begins
  cases begins with
  | number _ _ _ some_numeral => exact Numeral.shape_numeralRun some_numeral

/-- A numeral in a text that begins like a number stands, however long it is. -/
theorem stands_numeral {l : Lexeme} {cs w : List Char} (lexical : l.Lexical)
    (kind : l.kind = .number) (found : numeralRun (l.text.toList ++ cs) = w) (some_char : w ≠ [])
    (same : l.text.toList ++ cs = w ++ rest) :
    Lexeme.Stands ⟨.number, String.ofList w⟩ rest := by
  obtain ⟨c, _, begins⟩ := lexical.begins
  obtain ⟨ds, text⟩ := List.head?_eq_some_iff.mp begins.head
  obtain ⟨d, es, rfl⟩ := List.exists_cons_of_ne_nil some_char
  rw [kind] at begins
  rw [text] at found same
  obtain rfl : c = d := List.head_eq_of_cons_eq same
  generalize l.text.toList = v at begins
  cases begins with
  | number plain unnamed opens some_numeral =>
      have apart : isBlank c = false ∧ c ≠ '/' := by
        simp only [Bool.or_eq_true, beq_iff_eq] at opens
        obtain digit | rfl := opens
        · have continues := continuesSymbol_of_isDigit c digit
          exact ⟨isBlank_of_continuesSymbol continues, ne_slash_of_continuesSymbol continues⟩
        · decide
      refine stands_of_found String.toList_ofList apart.1 apart.2 ?_
      rw [← same, List.cons_append]
      rw [List.cons_append] at found
      simp [first?, plain, unnamed, opens, found]

theorem stands_number {l : Lexeme} (lexical : l.Lexical) (kind : l.kind = .number)
    (found : numeralRun (l.text.toList ++ rest) = l.text.toList) : l.Stands rest := by
  have stands := stands_numeral lexical kind found (shape_of_number lexical kind).ne_nil rfl
  have same : (⟨.number, String.ofList l.text.toList⟩ : Lexeme) = l :=
    eq_iff.mpr ⟨kind.symm, String.ofList_toList⟩
  rw [← same]
  exact stands

theorem operatorRun_of_noHead (stop : NoHead CharClass.isOperator rest) : operatorRun rest = [] := by
  unfold operatorRun
  split
  · cases noHead_cons.mp stop
  · exact if_neg (by simp [noHead_cons.mp stop])
  · rfl

theorem Unopened.append {c : Char} {cs : List Char} (h : Unopened c cs)
    (stop : NoHead CharClass.isOperator rest) : Unopened c (cs ++ rest) := by
  refine fun slash => (h slash).append fun _ => stop.mono fun d opens => ?_
  simp only [Bool.or_eq_true, beq_iff_eq] at opens
  obtain rfl | rfl := opens <;> decide

theorem operatorRun_eq_self {c : Char} {cs : List Char} (run : operatorRun (c :: cs) = c :: cs) :
    Unopened c cs ∧ CharClass.isOperator c = true ∧ operatorRun cs = cs := by
  have unopened : Unopened c cs := by
    rintro rfl
    cases cs with
    | nil => exact noHead_nil
    | cons d ds =>
        by_cases opens : d = '/' ∨ d = '*'
        · simp [operatorRun, opens] at run
        · simpa using opens
  rw [operatorRun_cons unopened] at run
  split at run
  · next isOperator => exact ⟨unopened, isOperator, List.tail_eq_of_cons_eq run⟩
  · cases run

theorem operatorRun_append {cs : List Char} (run : operatorRun cs = cs)
    (stop : NoHead CharClass.isOperator rest) : operatorRun (cs ++ rest) = cs := by
  induction cs with
  | nil => exact operatorRun_of_noHead stop
  | cons c cs ih =>
      obtain ⟨unopened, isOperator, more⟩ := operatorRun_eq_self run
      rw [List.cons_append, operatorRun_cons (unopened.append stop), if_pos isOperator, ih more]

/-- A point alone is no numeral. -/
theorem numeralRun_point (stop : NoHead Char.isDigit rest) : numeralRun ('.' :: rest) = [] := by
  have longest : Numeral.longest ('.' :: rest) = [] := by
    rw [Numeral.longest_of_noHead (by simp)]
    simp [Numeral.longestDecimal, Numeral.leadingFraction, stop.takeWhile_eq]
  simp [numeralRun, longest]

theorem operatorSpellings_runs : ∀ text ∈ operatorSpellings,
    text ≠ "" ∧ operatorRun text.toList = text.toList ∧
      (text.toList.head? = some '.' → text = ".") := by
  decide +kernel

theorem stands_operator {text : String} (mem : text ∈ operatorSpellings)
    (stop : NoHead CharClass.isOperator rest) (point : text = "." → NoHead Char.isDigit rest) :
    (operator text).Stands rest := by
  obtain ⟨nonempty, run, alone⟩ := operatorSpellings_runs text mem
  generalize same : text.toList = w at run alone
  cases w with
  | nil => exact absurd (String.toList_eq_nil_iff.mp same) nonempty
  | cons c cs =>
      obtain ⟨unopened, isOperator, more⟩ := operatorRun_eq_self run
      obtain ⟨other, visible, plain⟩ := apart_of_isOperator isOperator
      obtain ⟨unnamed, undigit⟩ := unnamed_of_continuesSymbol other
      have runs := operatorRun_append more stop
      refine ⟨?_, ?_, ?_⟩
      · simpa [operator, same] using visible
      · rw [operator, same]
        exact first_of_unopened (unopened.append stop)
      · rw [operator, same]
        by_cases isPoint : c = '.'
        · subst isPoint
          have lone := alone rfl
          have numeral := numeralRun_point (point lone)
          have nothing : cs = [] := by simpa [lone] using same.symm
          simp [first?, plain, unnamed, nothing, numeral, operatorRun_of_noHead stop]
        · simp [first?, plain, unnamed, undigit, isPoint, isOperator, runs]

end Lexeme

end Scriptlet
