import Scriptlet.Proofs.Numeral
import Scriptlet.Proofs.Token

/-! # Every token is the longest of its class

The first character of a text tells the class of its first token. The token is then the
longest beginning of the text that is in the class, whatever comes behind. Two classes say
more: a numeral leaves a point at its end to what follows if that wants it, and a string
goes through the first quote that closes it.
-/

namespace Scriptlet

open CharClass

/-- Of the beginnings of a text that are in a class, this is the longest. -/
structure Longest (P : List Char → Prop) (cs w : List Char) : Prop where
  isPrefix : w <+: cs
  fits : P w
  longest : ∀ v, v <+: cs → P v → v.length ≤ w.length

/-- A beginning of a text that is all in `p` is a beginning of what `takeWhile` takes. -/
theorem isPrefix_takeWhile {p : Char → Bool} {cs v : List Char} (isPrefix : v <+: cs)
    (all : ∀ c ∈ v, p c = true) : v <+: cs.takeWhile p := by
  obtain ⟨rest, rfl⟩ := isPrefix
  rw [List.takeWhile_append_of_pos all]
  exact List.prefix_append v _

/-! ## Symbols -/

/-- The texts of symbols. -/
def IsSymbol (w : List Char) : Prop :=
  ∃ c more, w = c :: more ∧ startsSymbol c = true ∧ ∀ d ∈ more, continuesSymbol d = true

theorem longest_symbol {c : Char} (starts : startsSymbol c = true) (rest : List Char) :
    Longest IsSymbol (c :: rest) (c :: rest.takeWhile continuesSymbol) where
  isPrefix := (List.prefix_cons_inj c).mpr (List.takeWhile_prefix _)
  fits := ⟨c, _, rfl, starts, List.all_eq_true.mp List.all_takeWhile⟩
  longest := by
    rintro v isPrefix ⟨d, more, rfl, -, all⟩
    obtain ⟨rfl, inside⟩ := List.cons_prefix_cons.mp isPrefix
    have short := (isPrefix_takeWhile inside all).length_le
    simpa using short

/-! ## Numerals -/

namespace Numeral

variable {w r : List Char}

/-- A whole exponent is part of the one that is found, whatever follows it. -/
theorem IsExponent.isPrefix {exponent : List Char} (isExponent : IsExponent exponent)
    (r : List Char) : exponent <+: leadingExponent (exponent ++ r) := by
  obtain rfl | ⟨mark, sign, digits, rfl, marks, signs, some_digit, all⟩ := isExponent
  · exact List.nil_prefix
  · have found : leadingSign (sign ++ (digits ++ r)) = sign := leadingSign_append signs some_digit all
    have more : digits <+: (digits ++ r).takeWhile Char.isDigit :=
      isPrefix_takeWhile (List.prefix_append digits r) all
    simpa [leadingExponent, found, marks, more.ne_nil some_digit] using more

/-- What is part of the mantissa that is found is part of the decimal. -/
theorem isPrefix_longestDecimal {cs m : List Char} (some_digit : m.any Char.isDigit = true)
    (found : m <+: cs.takeWhile Char.isDigit ++ leadingFraction (cs.dropWhile Char.isDigit)) :
    m <+: longestDecimal cs := by
  have kept : (cs.takeWhile Char.isDigit ++ leadingFraction (cs.dropWhile Char.isDigit)).any
      Char.isDigit = true := by
    obtain ⟨rest, same⟩ := found
    rw [← same, List.any_append, some_digit, Bool.true_or]
  rw [longestDecimal, if_pos kept]
  exact found.trans (List.prefix_append _ _)

/-- The mantissa of a decimal is part of what is found, whatever follows it. -/
theorem mantissa_isPrefix {whole fraction : List Char} (isWhole : ∀ c ∈ whole, c.isDigit = true)
    (isFraction : IsFraction fraction) (some_digit : (whole ++ fraction).any Char.isDigit = true)
    (r : List Char) : whole ++ fraction <+: longestDecimal (whole ++ fraction ++ r) := by
  refine isPrefix_longestDecimal some_digit ?_
  obtain rfl | ⟨digits, rfl, all⟩ := isFraction
  · have taken : whole <+: (whole ++ r).takeWhile Char.isDigit :=
      isPrefix_takeWhile (List.prefix_append whole r) isWhole
    simpa using taken.trans (List.prefix_append _ _)
  · have stop : NoHead Char.isDigit ('.' :: (digits ++ r)) := noHead_cons.mpr (by decide)
    have found : digits <+: (digits ++ r).takeWhile Char.isDigit :=
      isPrefix_takeWhile (List.prefix_append digits r) all
    simpa [stop.takeWhile_append isWhole, stop.dropWhile_append isWhole, leadingFraction] using found

theorem apart_of_radix? {c : Char} {base : Nat} (announced : radix? c = some base) :
    c.isDigit = false ∧ c ≠ '.' ∧ marksExponent c = false := by
  have letter : c ∈ ['x', 'X', 'o', 'O', 'b', 'B'] := by
    unfold radix? at announced
    grind
  have letters : ['x', 'X', 'o', 'O', 'b', 'B'].all
      (fun c => !c.isDigit && c != '.' && !marksExponent c) = true := by decide
  simpa [and_assoc] using List.all_eq_true.mp letters c letter

/-- A letter that announces a base ends a decimal behind its zero. -/
theorem longestDecimal_of_radix? {letter : Char} {base : Nat} (announced : radix? letter = some base)
    (rest : List Char) : longestDecimal ('0' :: letter :: rest) = ['0'] := by
  obtain ⟨digit, point, mark⟩ := apart_of_radix? announced
  have found : longestDecimal (['0'] ++ [] ++ letter :: rest) =
      ['0'] ++ [] ++ leadingExponent (letter :: rest) :=
    longestDecimal_append (List.forall_mem_singleton.mpr rfl) (.inl rfl) rfl
      (noHead_cons.mpr digit) fun _ => noHead_cons.mpr (by simpa using point)
  rw [leadingExponent_of_noHead (noHead_cons.mpr mark)] at found
  exact found

/-- What is found as a decimal is part of what is found as a numeral. -/
theorem longestDecimal_isPrefix_longest (cs : List Char) : longestDecimal cs <+: longest cs := by
  fun_cases longest cs with
  | case1 letter rest radix announced => simp [longestDecimal_of_radix? announced]
  | case2 letter rest radix announced => simp [longestDecimal_of_radix? announced]
  | case3 | case4 => exact List.prefix_rfl

/-- A numeral is part of the one that is found, whatever follows it. -/
theorem Shape.isPrefix_longest (shape : Shape w) (r : List Char) : w <+: longest (w ++ r) := by
  cases shape with
  | @radix letter base digits announced some_digit all =>
      have more : digits <+: (digits ++ r).takeWhile (isDigitIn base) :=
        isPrefix_takeWhile (List.prefix_append digits r) all
      simpa [longest, announced, more.ne_nil some_digit] using more
  | @decimal whole fraction exponent isWhole isFraction some_digit isExponent =>
      refine List.IsPrefix.trans ?_ (longestDecimal_isPrefix_longest _)
      rw [List.append_assoc (whole ++ fraction)]
      by_cases plain : exponent = []
      · subst plain
        simpa using mantissa_isPrefix isWhole isFraction some_digit r
      · -- an exponent ends the digits in front of it
        have stop {p : Char → Bool} (marks : p 'e' = false ∧ p 'E' = false) :
            NoHead p (exponent ++ r) :=
          (isExponent.noHead marks).append fun nothing => absurd nothing plain
        rw [longestDecimal_append isWhole isFraction some_digit (stop (by decide))
          fun _ => stop (by decide)]
        exact (List.prefix_append_right_inj _).mpr (isExponent.isPrefix r)

/-- The numeral that is found is the longest one. -/
theorem longest_numeral {cs : List Char} (found : longest cs ≠ []) :
    Longest Shape cs (longest cs) where
  isPrefix := longest_isPrefix cs
  fits := shape_longest found
  longest v isPrefix shape := by
    obtain ⟨r, rfl⟩ := isPrefix
    exact (shape.isPrefix_longest r).length_le

theorem not_shape_of_longest {cs : List Char} (nothing : longest cs = []) :
    ∀ v, v <+: cs → ¬Shape v := by
  rintro _ ⟨r, rfl⟩ shape
  have part := shape.isPrefix_longest r
  rw [nothing, List.prefix_nil] at part
  exact shape.ne_nil part

/-- Does a text want the point in front of it? -/
def wantsPoint (cs : List Char) : Bool :=
  cs.head?.any fun c => c == '.' || startsSymbol c

/-- What is left of a numeral in front of a text that may want the point at its end. -/
def yielding (w behind : List Char) : List Char :=
  if w.getLast? = some '.' ∧ wantsPoint behind = true then w.dropLast else w

/-- A point alone is no numeral. -/
theorem Shape.one_lt_length (shape : Shape w) (last : w.getLast? = some '.') : 1 < w.length := by
  obtain ⟨front, rfl⟩ := List.getLast?_eq_some_iff.mp last
  cases front with
  | cons c front => simp
  | nil =>
      generalize alone : [] ++ ['.'] = w at shape
      cases shape with
      | radix => cases alone
      | decimal _ _ some_digit _ =>
          obtain ⟨c, mem, digit⟩ := List.any_eq_true.mp some_digit
          have point : c ∈ ['.'] := by
            rw [← List.nil_append ['.'], alone]
            exact List.mem_append_left _ mem
          cases List.mem_singleton.mp point
          cases digit

theorem numeralRun_eq_yielding (cs : List Char) :
    Lexeme.numeralRun cs = yielding (longest cs) (cs.drop (longest cs).length) := by
  by_cases last : (longest cs).getLast? = some '.'
  · have some_numeral : longest cs ≠ [] := by
      intro nothing
      simp [nothing] at last
    have long := (shape_longest some_numeral).one_lt_length last
    simp [Lexeme.numeralRun, yielding, wantsPoint, last, long]
  · simp [Lexeme.numeralRun, yielding, last]

/-- A numeral that yields its point does not vanish. -/
theorem Shape.yielding_ne_nil (shape : Shape w) (behind : List Char) : yielding w behind ≠ [] := by
  unfold yielding
  split
  · next yields =>
      have long := shape.one_lt_length yields.1
      intro nothing
      have short := congrArg List.length nothing
      rw [List.length_dropLast, List.length_nil] at short
      omega
  · exact shape.ne_nil

end Numeral

/-! ## Operators -/

namespace Lexeme

/-- A slash does not open a comment in front of this text. -/
def Unopened (c : Char) (cs : List Char) : Prop :=
  c = '/' → NoHead (fun d => d == '/' || d == '*') cs

theorem first_of_unopened {c : Char} {cs : List Char} (unopened : Unopened c cs) :
    CommentScan.first (c :: cs) = .absent := by
  unfold CommentScan.first
  split
  · next same =>
      cases same
      cases noHead_cons.mp (unopened rfl)
  · next same =>
      cases same
      cases noHead_cons.mp (unopened rfl)
  · rfl

theorem operatorRun_cons {c : Char} {cs : List Char} (unopened : Unopened c cs) :
    operatorRun (c :: cs) = if isOperator c then c :: operatorRun cs else [] := by
  rw [operatorRun.eq_def]
  split
  · next d ds same =>
      cases same
      have plain : ¬(d = '/' ∨ d = '*') := by simpa using noHead_cons.mp (unopened rfl)
      rw [if_neg plain]
      rfl
  · next same =>
      cases same
      rfl
  · next same => cases same

theorem operatorRun_of_not_unopened {c : Char} {cs : List Char} (opened : ¬Unopened c cs) :
    operatorRun (c :: cs) = [] := by
  obtain ⟨rfl, head⟩ := Classical.not_imp.mp opened
  cases cs with
  | nil => exact absurd noHead_nil head
  | cons d cs =>
      rw [noHead_cons, Bool.not_eq_false, Bool.or_eq_true, beq_iff_eq, beq_iff_eq] at head
      rw [operatorRun, if_pos head]

end Lexeme

/-- A beginning of a text that can be an operator: all operator characters, and no comment
    opens behind the first one. -/
structure OperatorRun (cs w : List Char) : Prop where
  all : ∀ c ∈ w, isOperator c = true
  unopened : ∀ before c behind, cs = before ++ c :: behind → 0 < before.length →
    before.length < w.length → Lexeme.Unopened c behind

namespace Lexeme

/-- No comment opens in what is taken for an operator. -/
theorem unopened_of_operatorRun {cs before behind : List Char} {c : Char}
    (same : cs = before ++ c :: behind) (inside : before.length < (operatorRun cs).length) :
    Unopened c behind := by
  induction cs generalizing before with
  | nil => simp at same
  | cons d cs ih =>
      by_cases unopened : Unopened d cs
      · cases before with
        | nil =>
            cases same
            exact unopened
        | cons e before =>
            rw [operatorRun_cons unopened] at inside
            refine ih (List.cons_eq_cons.mp same).2 ?_
            split at inside
            · simpa using inside
            · simp at inside
      · simp [operatorRun_of_not_unopened unopened] at inside

theorem isOperator_of_operatorRun (cs : List Char) : ∀ c ∈ operatorRun cs, isOperator c = true := by
  fun_induction operatorRun cs with
  | case1 | case4 | case5 => simp
  | case2 c rest _ ih => exact List.forall_mem_cons.mpr ⟨by decide, ih⟩
  | case3 c rest _ isOperator ih => exact List.forall_mem_cons.mpr ⟨isOperator, ih⟩

/-- Operator characters in which no comment opens are part of what is taken. -/
theorem isPrefix_operatorRun {cs v : List Char} (isPrefix : v <+: cs)
    (all : ∀ c ∈ v, isOperator c = true)
    (unopened : ∀ before c behind, cs = before ++ c :: behind → before.length < v.length →
      Unopened c behind) : v <+: operatorRun cs := by
  induction cs generalizing v with
  | nil => simpa [operatorRun] using isPrefix
  | cons c cs ih =>
      cases v with
      | nil => exact List.nil_prefix
      | cons d v =>
          obtain ⟨rfl, inside⟩ := List.cons_prefix_cons.mp isPrefix
          obtain ⟨isOperator, others⟩ := List.forall_mem_cons.mp all
          rw [operatorRun_cons (unopened [] d cs rfl (by simp)), if_pos isOperator]
          refine (List.prefix_cons_inj d).mpr (ih inside others ?_)
          rintro before c behind rfl short
          exact unopened (d :: before) c behind rfl (by simpa using short)

theorem longest_operator {c : Char} (operator : isOperator c = true) (rest : List Char) :
    Longest (OperatorRun (c :: rest)) (c :: rest) (c :: operatorRun rest) where
  isPrefix := (List.prefix_cons_inj c).mpr (operatorRun_isPrefix rest)
  fits := by
    refine ⟨List.forall_mem_cons.mpr ⟨operator, isOperator_of_operatorRun rest⟩, ?_⟩
    rintro (_ | ⟨e, before⟩) d behind same some_before inside
    · cases some_before
    · exact unopened_of_operatorRun (List.cons_eq_cons.mp same).2 (by simpa using inside)
  longest := by
    intro v isPrefix run
    cases v with
    | nil => simp
    | cons d v =>
        obtain ⟨rfl, inside⟩ := List.cons_prefix_cons.mp isPrefix
        have part : v <+: operatorRun rest := by
          refine isPrefix_operatorRun inside (List.forall_mem_cons.mp run.all).2 ?_
          rintro before c behind rfl short
          exact run.unopened (d :: before) c behind rfl (by simp) (by simpa using short)
        simpa using part.length_le

end Lexeme

/-! ## Strings -/

/-- The inside of a string: no quote in it closes the string, and a backslash has the character
    that it escapes behind it. -/
inductive StringBody (quote : Char) : List Char → Prop where
  | nil : StringBody quote []
  | escaped {c cs} (more : StringBody quote cs) : StringBody quote ('\\' :: c :: cs)
  | plain {c cs} (unquoted : c ≠ quote) (unescaped : c ≠ '\\') (more : StringBody quote cs) :
      StringBody quote (c :: cs)

namespace Lexeme

theorem stringRest?_cons {quote c : Char} (plain : c ≠ '\\') (cs : List Char) :
    stringRest? quote (c :: cs) =
      if c = quote then some [c] else (stringRest? quote cs).map (c :: ·) := by
  rw [stringRest?]
  · exact fun same => absurd same plain
  · exact fun d ds same => absurd same plain

theorem stringRest?_of_body {quote : Char} {body : List Char} (isQuote : isQuote quote = true)
    (isBody : StringBody quote body) (after : List Char) :
    stringRest? quote (body ++ quote :: after) = some (body ++ [quote]) := by
  have unescaped : quote ≠ '\\' := by
    rintro rfl
    cases isQuote
  induction isBody with
  | nil => simp [stringRest?_cons unescaped]
  | escaped _ ih => simp [stringRest?, ih]
  | plain unquoted unescaped _ ih => simp [stringRest?_cons unescaped, unquoted, ih]

theorem body_of_stringRest? {quote : Char} {cs more : List Char}
    (closed : stringRest? quote cs = some more) :
    ∃ body after, StringBody quote body ∧ cs = body ++ quote :: after ∧ more = body ++ [quote] := by
  fun_induction stringRest? quote cs generalizing more with
  | case1 | case2 => cases closed
  | case3 c cs ih =>
      obtain ⟨tail, found, rfl⟩ := Option.map_eq_some_iff.mp closed
      obtain ⟨body, after, isBody, rfl, rfl⟩ := ih found
      exact ⟨'\\' :: c :: body, after, .escaped isBody, rfl, rfl⟩
  | case4 cs lone escaped =>
      cases closed
      exact ⟨[], cs, .nil, rfl, rfl⟩
  | case5 c cs lone escaped other ih =>
      obtain ⟨tail, found, rfl⟩ := Option.map_eq_some_iff.mp closed
      obtain ⟨body, after, isBody, rfl, rfl⟩ := ih found
      exact ⟨c :: body, after, .plain other (ne_backslash lone escaped) isBody, rfl, rfl⟩

end Lexeme

/-! ## All classes -/

/-- What has to be found at the front of the text `c :: rest`, for each class of its first
    character. -/
structure LongestMatch (c : Char) (rest : List Char) (found : Option (Kind × List Char)) :
    Prop where
  separator : isSeparator c = true → found = some (.separator, [c])
  symbol : startsSymbol c = true →
    ∃ w, Longest IsSymbol (c :: rest) w ∧ found = some (.symbol, w)
  /-- Where no numeral begins, a point begins an operator. -/
  numeral : c.isDigit = true ∨ c = '.' →
    (∃ w, Longest Numeral.Shape (c :: rest) w ∧
      found = some (.number, Numeral.yielding w ((c :: rest).drop w.length))) ∨
    (∀ w, w <+: c :: rest → ¬Numeral.Shape w) ∧
      ∃ w, Longest (OperatorRun (c :: rest)) (c :: rest) w ∧ found = some (.operator, w)
  operator : isOperator c = true → c ≠ '.' →
    ∃ w, Longest (OperatorRun (c :: rest)) (c :: rest) w ∧ found = some (.operator, w)
  closed : isQuote c = true → ∀ body after, StringBody c body → rest = body ++ c :: after →
    found = some (.string, c :: (body ++ [c]))
  unclosed : isQuote c = true → (∀ body after, StringBody c body → rest ≠ body ++ c :: after) →
    found = none
  other : isSeparator c = false → startsSymbol c = false → c.isDigit = false →
    isOperator c = false → isQuote c = false → found = some (.other, [c])

namespace Lexeme

theorem unseparated_of_continuesSymbol {c : Char} (h : continuesSymbol c = true) :
    isSeparator c = false := by
  cases separator : isSeparator c with
  | false => rfl
  | true => cases h.symm.trans (apart_of_isSeparator separator).1

theorem first?_numeral {c : Char} (opens : c.isDigit = true ∨ c = '.') (rest : List Char) :
    first? (c :: rest) =
      if numeralRun (c :: rest) = [] then some (.operator, c :: operatorRun rest)
      else some (.number, numeralRun (c :: rest)) := by
  have plain : isSeparator c = false ∧ startsSymbol c = false := by
    obtain digit | rfl := opens
    · refine ⟨unseparated_of_continuesSymbol (continuesSymbol_of_isDigit c digit), ?_⟩
      cases starts : startsSymbol c with
      | false => rfl
      | true => cases digit.symm.trans (isDigit_of_startsSymbol c starts)
    · decide
  simp [first?, plain, opens]

theorem first?_quote {c : Char} (quotes : isQuote c = true) (rest : List Char) :
    first? (c :: rest) = (stringRest? c rest).map fun more => (.string, c :: more) := by
  have plain := of_isQuote (p := fun c => !isSeparator c && !startsSymbol c && !c.isDigit &&
    c != '.' && !isOperator c) (by decide) quotes
  simp only [Bool.and_eq_true, Bool.not_eq_true', bne_iff_ne] at plain
  simp [first?, plain, quotes]

/-- What is found at the front of a text is the longest of its class. -/
theorem longestMatch_first? (c : Char) (rest : List Char) :
    LongestMatch c rest (first? (c :: rest)) where
  separator isSeparator := by simp [first?, isSeparator]
  symbol starts := by
    have plain := unseparated_of_continuesSymbol (continuesSymbol_of_startsSymbol c starts)
    exact ⟨_, longest_symbol starts rest, by simp [first?, plain, starts]⟩
  numeral opens := by
    rw [first?_numeral opens, Numeral.numeralRun_eq_yielding]
    by_cases nothing : Numeral.longest (c :: rest) = []
    · have none := Numeral.not_shape_of_longest nothing
      have point : c = '.' := by
        refine opens.resolve_left fun digit => none [c] (by simp) (.digits (by simp) ?_)
        simpa using digit
      subst point
      exact .inr ⟨none, _, longest_operator (by decide) rest, by simp [nothing, Numeral.yielding]⟩
    · have longest := Numeral.longest_numeral nothing
      exact .inl ⟨_, longest, if_neg (longest.fits.yielding_ne_nil _)⟩
  operator isOperator other := by
    obtain ⟨unnamed, -, plain⟩ := apart_of_isOperator isOperator
    obtain ⟨unnamed, undigit⟩ := unnamed_of_continuesSymbol unnamed
    exact ⟨_, longest_operator isOperator rest,
      by simp [first?, plain, unnamed, undigit, other, isOperator]⟩
  closed quotes := by
    rintro body after isBody rfl
    rw [first?_quote quotes, stringRest?_of_body quotes isBody]
    rfl
  unclosed quotes open_ := by
    rw [first?_quote quotes]
    cases closed : stringRest? c rest with
    | none => rfl
    | some more =>
        obtain ⟨body, after, isBody, same, -⟩ := body_of_stringRest? closed
        exact absurd same (open_ body after isBody)
  other plain unnamed undigit inoperative unquoted := by
    have noPoint : c ≠ '.' := by
      rintro rfl
      cases inoperative
    simp [first?, plain, unnamed, undigit, noPoint, inoperative, unquoted]

end Lexeme

end Scriptlet
