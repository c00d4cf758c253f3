import Scriptlet.Lexer
import Scriptlet.Proofs.RoundTrip.Reading
import Scriptlet.Value

/-! # Literals and what they stand for

A text that is written as a literal is read back as this literal, whatever comes behind it,
and the literal stands for the text. What escapes stand for is also written down by
themselves, as `documented`. Decoding follows this up to the first escape by number that is
misread.
-/

namespace Scriptlet

open CharClass

namespace Text.Quoted

theorem decodeBody_plain {c : Char} (plain : c ≠ '\\') (cs : List Char) :
    decodeBody (c :: cs) = c :: decodeBody cs := by
  rw [decodeBody]
  all_goals simp [plain]

theorem decodeBody_escaped {c : Char} (other : c ≠ 'x' ∧ c ≠ 'u') (cs : List Char) :
    decodeBody ('\\' :: c :: cs) = escaped c ++ decodeBody cs := by
  rw [decodeBody]
  all_goals simp [other]

theorem decodeBody_u {cs : List Char} (unbraced : cs.head? ≠ some '\x7b') :
    decodeBody ('\\' :: 'u' :: cs) = charOrText 'u' (cs.take 4) ++ decodeBody (cs.drop 4) := by
  rw [decodeBody]
  rintro rest rfl
  exact unbraced rfl

/-- Text without a backslash stands for itself. -/
theorem decodeBody_append {cs : List Char} (plain : '\\' ∉ cs) (rest : List Char) :
    decodeBody (cs ++ rest) = cs ++ decodeBody rest := by
  induction cs with
  | nil => rfl
  | cons c cs ih =>
      obtain ⟨unescaped, others⟩ := not_or.mp (mt List.mem_cons.mpr plain)
      rw [List.cons_append, decodeBody_plain (Ne.symm unescaped), ih others, List.cons_append]

/-! ## Texts written as literals -/

theorem stringBody_protect (cs : List Char) : StringBody '\'' (cs.flatMap protect) := by
  induction cs with
  | nil => exact .nil
  | cons c cs ih =>
      rw [List.flatMap_cons, protect]
      split
      · exact .escaped ih
      · next plain =>
          obtain ⟨unescaped, unquoted⟩ := not_or.mp plain
          exact .plain unquoted unescaped ih

theorem decodeBody_protect (cs : List Char) : decodeBody (cs.flatMap protect) = cs := by
  induction cs with
  | nil => rw [List.flatMap_nil, decodeBody]
  | cons c cs ih =>
      rw [List.flatMap_cons, protect]
      split
      · next special =>
          have itself : (c ≠ 'x' ∧ c ≠ 'u') ∧ escaped c = [c] := by
            obtain rfl | rfl := special <;> decide
          rw [List.cons_append, List.cons_append, decodeBody_escaped itself.1, itself.2,
            List.nil_append, ih, List.singleton_append]
      · next plain => rw [List.singleton_append, decodeBody_plain (not_or.mp plain).1, ih]

/-- The body of a literal is what stands between its quotes. -/
theorem body_quoted (quote : Char) (cs : List Char) : body (quote :: (cs ++ [quote])) = cs := by
  simp [body]

theorem decode_quote (text : String) : decode (quote text) = text := by
  rw [decode, quote, String.toList_ofList, List.cons_append, body_quoted, decodeBody_protect,
    String.ofList_toList]

/-- A literal in quotes stands, whatever comes behind it. -/
theorem stands_quoted {quote : Char} {body : List Char} (quotes : isQuote quote = true)
    (isBody : StringBody quote body) (rest : List Char) :
    Lexeme.Stands ⟨.string, String.ofList (quote :: (body ++ [quote]))⟩ rest := by
  obtain ⟨visible, uncommented⟩ := apart_of_isQuote quotes
  refine Lexeme.stands_of_found String.toList_ofList visible uncommented ?_
  have closed := Lexeme.stringRest?_of_body quotes isBody rest
  rw [List.cons_append, Lexeme.first?_quote quotes, List.append_assoc, List.singleton_append,
    closed, Option.map_some]

end Text.Quoted

/-- A string that is shown as a result is a literal of itself: whatever text follows, the first
    token that is read is a string with just the shown text, which stands for the value, and
    the text that follows is still to be read. -/
theorem Value.inspect_reads_back (text behind : String) (name : Option String) :
    ∃ t l, Lexer.read { source := .ofString ((Value.string text).inspect ++ behind) name } =
        (some t, l) ∧
      t.kind = .string ∧ t.text = (Value.string text).inspect ∧
      Text.Quoted.decode t.text = text ∧ l.source.remaining = behind.toList := by
  have stands := Text.Quoted.stands_quoted (by decide)
    (Text.Quoted.stringBody_protect text.toList) behind.toList
  obtain ⟨t, s, taken, same, left⟩ := Source.token_of_stands
    (s := .ofString ((Value.string text).inspect ++ behind) name)
    (by simp [Source.ofString, Source.remaining, inspect, Text.Quoted.quote]) stands
  have shown : t.text = (Value.string text).inspect := congrArg Lexeme.text same
  refine ⟨t, { source := s }, ?_, congrArg Lexeme.kind same, shown, ?_, left⟩
  · rw [Lexer.read, taken]
  · rw [shown]
    exact Text.Quoted.decode_quote text

/-! ## Escapes as documented -/

namespace Text.Quoted

/-- What the escapes with one letter stand for. A backslash at the end of a line joins it with
    the next one. -/
def letterEscapes : List (Char × List Char) :=
  [ ('n', ['\n']), ('t', ['\t']), ('r', ['\r']), ('b', ['\x08']), ('f', ['\x0c']),
    ('v', ['\x0b']), ('0', ['\x00']), ('\n', []) ]

/-- The number that hexadecimal digits write. -/
def hexValue (digits : List Char) : Nat :=
  digits.foldl (fun n c => 16 * n + (digit? 16 c).getD 0) 0

/-- The character with the number that the digits write, if all of them are digits and there is
    such a character. -/
def charOfDigits? (digits : List Char) : Option Char :=
  if digits ≠ [] ∧ digits.all (isDigitIn 16) = true ∧ (hexValue digits).isValidChar then
    some (.ofNat (hexValue digits))
  else none

/-- An escape by number, behind the letter that announces it: two digits behind `x`, and four
    digits or any number of them in braces behind `u`. The result is the character and the length
    of what stands for it. -/
def number? : Char → List Char → Option (Char × Nat)
  | 'x', a :: b :: _ => (charOfDigits? [a, b]).map (·, 2)
  | 'u', '\x7b' :: cs =>
      let digits := cs.takeWhile (isDigitIn 16)
      if (cs.dropWhile (isDigitIn 16)).head? = some '\x7d' then
        (charOfDigits? digits).map (·, digits.length + 2)
      else none
  | 'u', a :: b :: c :: d :: _ => (charOfDigits? [a, b, c, d]).map (·, 4)
  | _, _ => none

/-- What the text between two quotes stands for. A backslash in front of a character that
    begins no escape stands for nothing. -/
def documented (cs : List Char) : List Char :=
  match cs with
  | [] => []
  | ['\\'] => []
  | '\\' :: c :: rest =>
      match number? c rest with
      | some (ch, length) => ch :: documented (rest.drop length)
      | none => (letterEscapes.lookup c).getD [c] ++ documented rest
  | c :: rest => c :: documented rest
termination_by cs.length
decreasing_by
  all_goals simp
  all_goals omega

/-- How many digits a number behind this letter has, unless it stands in braces. -/
def width (letter : Char) : Nat :=
  if letter = 'x' then 2 else 4

/-- An escape that is announced as one by number, is none as documented, and is not decoded as
    its characters one by one either. -/
inductive Misread : List Char → Prop where
  /-- A number with a sign in front of it, or with too few digits at the end of the text. -/
  | number {letter c : Char} {cs : List Char} (announced : letter = 'x' ∨ letter = 'u')
      (unknown : number? letter cs = none) (read : charOfHex? (cs.take (width letter)) = some c) :
      Misread ('\\' :: letter :: cs)
  /-- No number, but another escape that begins where one should stand. -/
  | escape {letter : Char} {cs : List Char} (announced : letter = 'x' ∨ letter = 'u')
      (unknown : number? letter cs = none) (inside : '\\' ∈ cs.take (width letter)) :
      Misread ('\\' :: letter :: cs)
  /-- An opening brace with no number and closing brace behind it. -/
  | braces {cs : List Char} (unknown : number? 'u' ('\x7b' :: cs) = none) :
      Misread ('\\' :: 'u' :: '\x7b' :: cs)

theorem foldlM_hexValue {digits : List Char} (all : ∀ c ∈ digits, isDigitIn 16 c = true) (n : Nat) :
    digits.foldlM (fun n c => (digit? 16 c).map (16 * n + ·)) n =
      some (digits.foldl (fun n c => 16 * n + (digit? 16 c).getD 0) n) := by
  induction digits generalizing n with
  | nil => rfl
  | cons c digits ih =>
      obtain ⟨own, others⟩ := List.forall_mem_cons.mp all
      obtain ⟨value, found⟩ := Option.isSome_iff_exists.mp own
      simp only [List.foldlM_cons, found, Option.map_some, Option.bind_eq_bind, Option.bind_some,
        ih others, List.foldl_cons, Option.getD_some]

/-- Digits are read as documented. -/
theorem charOfHex?_of_charOfDigits? {digits : List Char} {c : Char}
    (known : charOfDigits? digits = some c) :
    (∀ d ∈ digits, isDigitIn 16 d = true) ∧ charOfHex? digits = some c := by
  unfold charOfDigits? at known
  split at known
  · next valid =>
      obtain ⟨some_digit, all, isValid⟩ := valid
      rw [List.all_eq_true] at all
      have unsigned : digits.head? ≠ some '+' := by
        intro signed
        have digit := all '+' (List.mem_of_head? signed)
        cases digit
      cases known
      have read : _ = some (hexValue digits) := foldlM_hexValue all 0
      refine ⟨all, ?_⟩
      simp only [charOfHex?, if_neg unsigned, List.isEmpty_iff, if_neg some_digit, read,
        if_pos isValid]
  · cases known

theorem charOrText_of_charOfDigits? {c : Char} {digits : List Char}
    (known : charOfDigits? digits = some c) (letter : Char) : charOrText letter digits = [c] := by
  rw [charOrText, (charOfHex?_of_charOfDigits? known).2]

/-- Digits in braces are taken as far as the closing brace. -/
theorem split_braces {digits : List Char} (all : ∀ d ∈ digits, isDigitIn 16 d = true)
    (cs : List Char) :
    (digits ++ '\x7d' :: cs).takeWhile (· ≠ '\x7d') = digits ∧
      ((digits ++ '\x7d' :: cs).dropWhile (· ≠ '\x7d')).drop 1 = cs := by
  have stop : NoHead (· ≠ '\x7d') ('\x7d' :: cs) := noHead_cons.mpr (by decide)
  have inside : ∀ d ∈ digits, decide (d ≠ '\x7d') = true := by
    intro d mem
    rw [decide_eq_true_iff]
    rintro rfl
    cases all _ mem
  rw [stop.takeWhile_append inside, stop.dropWhile_append inside]
  exact ⟨rfl, rfl⟩

/-- An escape by number is decoded as documented. -/
theorem decodeBody_number {letter c : Char} {cs : List Char} {length : Nat}
    (known : number? letter cs = some (c, length)) :
    decodeBody ('\\' :: letter :: cs) = c :: decodeBody (cs.drop length) := by
  unfold number? at known
  split at known
  · next a b cs =>
      obtain ⟨_, read, same⟩ := Option.map_eq_some_iff.mp known
      cases same
      have taken := charOrText_of_charOfDigits? read 'x'
      rw [decodeBody]
      simp [taken]
  · next cs =>
      simp only at known
      split at known
      · next closed =>
          obtain ⟨_, read, same⟩ := Option.map_eq_some_iff.mp known
          cases same
          obtain ⟨rest, behind⟩ := List.head?_eq_some_iff.mp closed
          have whole : cs = cs.takeWhile (isDigitIn 16) ++ '\x7d' :: rest := by
            rw [← behind, List.takeWhile_append_dropWhile]
          have all := (charOfHex?_of_charOfDigits? read).1
          generalize cs.takeWhile (isDigitIn 16) = digits at read whole all
          subst whole
          obtain ⟨taken, left⟩ := split_braces all rest
          rw [decodeBody, taken, left, charOrText_of_charOfDigits? read]
          simp
      · cases known
  · next a b c d cs other =>
      obtain ⟨_, read, same⟩ := Option.map_eq_some_iff.mp known
      cases same
      have taken := charOrText_of_charOfDigits? read 'u'
      rw [decodeBody_u (by simpa using other)]
      simp [taken]
  · cases known

/-- An escape that is announced as one by number and is none is decoded as its characters one
    by one, unless it is misread. -/
theorem decodeBody_announced {letter : Char} {cs : List Char}
    (announced : letter = 'x' ∨ letter = 'u') (unknown : number? letter cs = none)
    (read : ¬Misread ('\\' :: letter :: cs)) :
    decodeBody ('\\' :: letter :: cs) = letter :: decodeBody cs := by
  have unread : charOfHex? (cs.take (width letter)) = none := by
    cases found : charOfHex? (cs.take (width letter)) with
    | none => rfl
    | some c => exact absurd (.number announced unknown found) read
  have plain : '\\' ∉ cs.take (width letter) := fun inside =>
    read (.escape announced unknown inside)
  have taken : decodeBody ('\\' :: letter :: cs) =
      charOrText letter (cs.take (width letter)) ++ decodeBody (cs.drop (width letter)) := by
    obtain rfl | rfl := announced
    · rw [decodeBody]
      rfl
    · refine decodeBody_u fun braced => ?_
      obtain ⟨rest, rfl⟩ := List.head?_eq_some_iff.mp braced
      exact read (.braces unknown)
  rw [taken, charOrText, unread, List.cons_append, ← decodeBody_append plain,
    List.take_append_drop]

theorem escaped_eq_lookup (c : Char) : escaped c = (letterEscapes.lookup c).getD [c] := by
  unfold escaped
  split
  case h_9 =>
    have unlisted : letterEscapes.lookup c = none := by
      rw [List.lookup_eq_none_iff]
      simp_all [letterEscapes]
    rw [unlisted, Option.getD_none]
  all_goals rfl

/-- Decoding follows the documentation up to an escape that is misread. -/
theorem decodeBody_documented (cs : List Char) :
    ∃ front rest value, cs = front ++ rest ∧ documented cs = value ++ documented rest ∧
      decodeBody cs = value ++ decodeBody rest ∧ (rest = [] ∨ Misread rest) := by
  -- along the documented reading, which goes on behind the letter of an escape that is none
  fun_induction documented cs with
  | case1 => exact ⟨[], [], [], rfl, by simp [documented], by simp, .inl rfl⟩
  | case2 => exact ⟨['\\'], [], [], rfl, by simp [documented], by simp [decodeBody], .inl rfl⟩
  | case3 letter cs c length known ih =>
      obtain ⟨front, rest, value, same, follows, decodes, last⟩ := ih
      refine ⟨'\\' :: letter :: (cs.take length ++ front), rest, c :: value, ?_, ?_, ?_, last⟩
      · simp [← same]
      · rw [follows, List.cons_append]
      · rw [decodeBody_number known, decodes, List.cons_append]
  | case4 letter cs unknown ih =>
      by_cases misread : Misread ('\\' :: letter :: cs)
      · refine ⟨[], '\\' :: letter :: cs, [], rfl, ?_, rfl, .inr misread⟩
        simp [documented, unknown]
      · obtain ⟨front, rest, value, same, follows, decodes, last⟩ := ih
        have itself : decodeBody ('\\' :: letter :: cs) = escaped letter ++ decodeBody cs := by
          by_cases announced : letter = 'x' ∨ letter = 'u'
          · rw [decodeBody_announced announced unknown misread]
            obtain rfl | rfl := announced <;> rfl
          · exact decodeBody_escaped (not_or.mp announced) cs
        refine ⟨'\\' :: letter :: front, rest, escaped letter ++ value, by simp [← same], ?_, ?_,
          last⟩
        · rw [← escaped_eq_lookup, follows, List.append_assoc]
        · rw [itself, decodes, List.append_assoc]
  | case5 c cs lone escaped ih =>
      obtain ⟨front, rest, value, same, follows, decodes, last⟩ := ih
      refine ⟨c :: front, rest, c :: value, by simp [← same], ?_, ?_, last⟩
      · rw [follows, List.cons_append]
      · rw [decodeBody_plain (Lexeme.ne_backslash lone escaped), decodes, List.cons_append]

/-- A string token has the same quote at both ends, and a body between them. -/
theorem quoted_of_lexical {l : Lexeme} (lexical : l.Lexical) (isString : l.kind = .string) :
    ∃ quote body, l.text.toList = quote :: (body ++ [quote]) ∧ StringBody quote body := by
  obtain ⟨quote, rest, begins⟩ := lexical.begins
  rw [isString] at begins
  generalize l.text.toList = text at begins
  cases begins with
  | string _ _ _ _ _ closed =>
      obtain ⟨body, _, isBody, -, rfl⟩ := Lexeme.body_of_stringRest? closed
      exact ⟨quote, body, rfl, isBody⟩

/-- The literal of every string token is decoded as documented, or an escape in it is misread: a
    number with a sign or with too few digits is read as a number, an escape that begins where
    digits should stand is kept as it is written, and braces without a number in them are lost.
    What stands in front of the first such escape is decoded as documented all the same. -/
theorem decode_documented {s : Source} {t : Token} (taken : s.token.1 = some t)
    (isString : t.kind = .string) :
    ∃ quote cs, t.text.toList = quote :: (cs ++ [quote]) ∧ StringBody quote cs ∧
      (decode t.text = String.ofList (documented cs) ∨
        ∃ front rest value, cs = front ++ rest ∧ Misread rest ∧
          documented cs = value ++ documented rest ∧
          decode t.text = String.ofList (value ++ decodeBody rest)) := by
  obtain ⟨quote, cs, literal, isBody⟩ :=
    quoted_of_lexical (Source.lexical_tokenAfter taken) isString
  obtain ⟨front, rest, value, same, follows, decodes, last⟩ := decodeBody_documented cs
  refine ⟨quote, cs, literal, isBody, ?_⟩
  rw [decode, literal, body_quoted, decodes]
  obtain rfl | misread := last
  · left
    rw [follows, documented, decodeBody]
  · exact .inr ⟨front, rest, value, same, misread, follows, rfl⟩

/-- Three escapes are decoded as documented. The fourth is no number, and it swallows the
    backslash of the last one. -/
theorem decode_documented_swallowed :
    let s := Source.ofString "'\\t\\x41\\xzz\\xg\\n' + 1"
    let literal := "'\\t\\x41\\xzz\\xg\\n'"
    (∃ t, s.token.1 = some t ∧ t.kind = .string ∧ t.text = literal) ∧
    decode literal = "\tAxzzxg\\n" ∧
    documented (body literal.toList) = "\tAxzzxg\n".toList ∧
    ∃ front rest value, body literal.toList = front ++ rest ∧ Misread rest ∧
      decode literal = String.ofList (value ++ decodeBody rest) := by
  intro s literal
  have taken : s.token.1 = some { kind := .string, text := literal, location := .start } := by
    decide +kernel
  have actual : decode literal = "\tAxzzxg\\n" := by decide +kernel
  have expected : documented (body literal.toList) = "\tAxzzxg\n".toList := by decide +kernel
  refine ⟨⟨_, taken, rfl, rfl⟩, actual, expected, ?_⟩
  obtain ⟨quote, cs, same, -, follows | ⟨front, rest, value, split, misread, -, decodes⟩⟩ :=
    decode_documented taken rfl
  · rw [same, body_quoted] at expected
    rw [expected, actual] at follows
    exact absurd follows (by decide)
  · rw [same, body_quoted]
    exact ⟨front, rest, value, split, misread, decodes⟩

end Text.Quoted

end Scriptlet
