import Scriptlet.Proofs.Lexer
import Scriptlet.Proofs.Scanner.Numeral
import Scriptlet.Proofs.Source.Pushback

/-! # Scanning finds the tokens

Any source that was only read and given characters back is `Coherent`, so that a scanner that
gives back what did not fit has read exactly what did. Each scanner takes what its class takes
off the front of the remaining characters, and `scan` takes the same tokens as `token`.
-/

namespace Scriptlet

open CharClass

namespace CommentScan

variable {cs more : List Char} {c : Char}

theorem blockRest?_cons (other : ¬(c = '*' ∧ cs.head? = some '/')) :
    blockRest? (c :: cs) = (blockRest? cs).map (c :: ·) := by
  rw [blockRest?]
  rintro rest rfl rfl
  exact other ⟨rfl, rfl⟩

/-- A character carries an open comment on, or closes it with the star in front of it. -/
theorem blockRest?_concat (unclosed : blockRest? cs = none) (c : Char) :
    blockRest? (cs ++ [c]) = if ['*', '/'] <:+ cs ++ [c] then some (cs ++ [c]) else none := by
  induction cs with
  | nil => simp [blockRest?, List.suffix_cons_iff]
  | cons d cs ih =>
      have inside : ¬(d = '*' ∧ cs.head? = some '/') := by
        rintro ⟨rfl, slash⟩
        obtain ⟨rest, rfl⟩ := List.head?_eq_some_iff.mp slash
        cases unclosed
      rw [blockRest?_cons inside, Option.map_eq_none_iff] at unclosed
      by_cases closes : d = '*' ∧ (cs ++ [c]).head? = some '/'
      · obtain ⟨rfl, slash⟩ := closes
        cases cs with
        | nil =>
            obtain rfl : c = '/' := by simpa using slash
            rfl
        | cons e cs => exact absurd ⟨rfl, slash⟩ inside
      · have later : ['*', '/'] <:+ d :: (cs ++ [c]) ↔ ['*', '/'] <:+ cs ++ [c] := by
          rw [List.suffix_cons_iff, or_iff_right]
          intro same
          obtain ⟨star, slash⟩ := List.cons.inj same
          exact closes ⟨star.symm, by rw [← slash]; rfl⟩
        rw [List.cons_append, blockRest?_cons closes, ih unclosed]
        simp only [later]
        split <;> rfl

theorem blockRest?_append (closed : blockRest? cs = some more) (rest : List Char) :
    blockRest? (cs ++ rest) = some more := by
  fun_induction blockRest? cs generalizing more with
  | case1 cs =>
      cases closed
      rfl
  | case2 c cs other ih =>
      obtain ⟨tail, found, rfl⟩ := Option.map_eq_some_iff.mp closed
      cases cs with
      | nil => cases found
      | cons d cs =>
          have inside : ¬(c = '*' ∧ (d :: cs ++ rest).head? = some '/') := by
            rintro ⟨star, slash⟩
            cases slash
            exact other cs star rfl
          rw [List.cons_append, blockRest?_cons inside, ih found]
          rfl
  | case3 => cases closed

/-- A comment goes on beyond what did not close it. -/
theorem length_lt_of_blockRest? {rest : List Char} (unclosed : blockRest? cs = none)
    (closed : blockRest? (cs ++ rest) = some more) : cs.length < more.length := by
  refine Nat.lt_of_not_le fun short => ?_
  have part := List.prefix_of_prefix_length_le (blockRest?_isPrefix closed)
    (List.prefix_append cs rest) short
  obtain ⟨body, rfl, -⟩ := blockRest?_eq_some closed
  exact blockRest?_eq_none unclosed ((List.suffix_append body _).isInfix.trans part.isInfix)

/-- A text has at least as many bytes as characters. -/
theorem length_le_utf8ByteSize (cs : List Char) : cs.length ≤ (String.ofList cs).utf8ByteSize := by
  induction cs with
  | nil => exact Nat.zero_le _
  | cons c cs ih =>
      have byte := c.utf8Size_pos
      rw [String.ofList_cons, String.utf8ByteSize_append, String.utf8ByteSize_singleton,
        List.length_cons]
      omega

/-- The mark that opens a comment has no part in closing it. -/
theorem closes_iff (cs : List Char) (c : Char) :
    (String.ofList ('/' :: '*' :: cs ++ [c])).utf8ByteSize ≥ 4 ∧
      ['*', '/'] <:+ '/' :: '*' :: cs ++ [c] ↔ ['*', '/'] <:+ cs ++ [c] := by
  simp only [List.cons_append, List.suffix_cons_iff]
  constructor
  · rintro ⟨long, same | same | closes⟩
    · cases same
    · obtain ⟨-, same⟩ := List.cons.inj same
      rw [← same] at long
      exact absurd long (by decide)
    · exact closes
  · intro closes
    refine ⟨Nat.le_trans ?_ (length_le_utf8ByteSize _), .inr (.inr closes)⟩
    have short := closes.length_le
    simp only [List.length_cons, List.length_nil] at short ⊢
    omega

end CommentScan

namespace Source

variable {text : List Char} {s s' : Source} {c : Char}

theorem Coherent.of_read {answer : Option Char} (coherent : s.Coherent text)
    (h : s.read = (answer, s')) : s'.Coherent text := by
  have kept := coherent.read
  rwa [h] at kept

theorem Coherent.unread_read (coherent : s.Coherent text) (h : s.read = (some c, s')) :
    s'.unread [c] = s := by
  have back := coherent.unreadChar_read (c := c) (by rw [h])
  rwa [h] at back

theorem eq_of_read_none (h : s.read = (none, s')) : s' = s := by
  unfold read at h
  split at h <;> cases h
  rfl

theorem advance_of_read {answer : Option Char} (h : s.read = (answer, s')) (n : Nat) :
    s.advance (n + 1) = s'.advance n := by
  rw [advance, h]

theorem toEnd_of_read (h : s.read = (some c, s')) : s.toEnd = s'.toEnd := by
  rw [toEnd, remaining_of_read h, List.length_cons, advance_of_read h, toEnd]

theorem toEnd_of_read_none (h : s.read = (none, s')) : s.toEnd = s' := by
  rw [toEnd, (remaining_of_read_none h).1, eq_of_read_none h]
  rfl

theorem Coherent.advance (coherent : s.Coherent text) (n : Nat) : (s.advance n).Coherent text := by
  induction n generalizing s with
  | zero => exact coherent
  | succ n ih => exact ih coherent.read

theorem Coherent.peek (coherent : s.Coherent text) : s.peek = (s.remaining.head?, s) := by
  unfold Source.peek
  split
  · next h => simp [remaining_of_read h, coherent.unread_read h]
  · next h => simp [remaining_of_read_none h, eq_of_read_none h]

/-! ## Blanks and comments -/

theorem Coherent.scanBlanks (coherent : s.Coherent text) :
    s.scanBlanks = (s.skipBlanks.remaining.head?, s.skipBlanks) := by
  fun_induction Source.scanBlanks s with
  | case1 s s' h =>
      have here : s.skipBlanks = s := by simp [skipBlanks, remaining_of_read_none h, Source.advance]
      rw [here, eq_of_read_none h, (remaining_of_read_none h).1]
      rfl
  | case2 s c s' h blank ih =>
      have passed : s.skipBlanks = s'.skipBlanks := by
        simp [skipBlanks, remaining_of_read h, blank, advance_of_read h]
      rw [passed]
      exact ih (coherent.of_read h)
  | case3 s c s' h solid =>
      have here : s.skipBlanks = s := by simp [skipBlanks, remaining_of_read h, solid, Source.advance]
      rw [here, coherent.unread_read h, remaining_of_read h]
      rfl

theorem Coherent.scanWhile (coherent : s.Coherent text) (p : Char → Bool) (taken : List Char) :
    s.scanWhile p taken =
      (taken ++ s.remaining.takeWhile p, s.advance (s.remaining.takeWhile p).length) := by
  fun_induction Source.scanWhile p taken s with
  | case1 taken s s' h => simp [remaining_of_read_none h, eq_of_read_none h, Source.advance]
  | case2 taken s c s' h fits ih =>
      rw [ih (coherent.of_read h), remaining_of_read h, List.takeWhile_cons_of_pos fits,
        List.length_cons, advance_of_read h]
      simp
  | case3 taken s c s' h other =>
      rw [remaining_of_read h, List.takeWhile_cons_of_neg other, coherent.unread_read h]
      simp [Source.advance]

/-- In a comment that is not closed yet, the scan finds where it is. -/
theorem Coherent.scanBlock (coherent : s.Coherent text) {inside : List Char}
    (unclosed : CommentScan.blockRest? inside = none) :
    s.scanBlock ('/' :: '*' :: inside) =
      match CommentScan.blockRest? (inside ++ s.remaining) with
      | some more => (some ('/' :: '*' :: more), s.advance (more.length - inside.length))
      | none => (none, s.toEnd) := by
  generalize taken : '/' :: '*' :: inside = cs
  fun_induction Source.scanBlock cs s generalizing inside with
  | case1 cs s s' h =>
      rw [(remaining_of_read_none h).1, List.append_nil, unclosed, toEnd_of_read_none h]
  | case2 cs s c s' h carried closes =>
      subst taken
      have closed := CommentScan.blockRest?_concat unclosed c
      rw [if_pos ((CommentScan.closes_iff inside c).mp closes)] at closed
      have found := CommentScan.blockRest?_append closed s'.remaining
      rw [List.append_assoc, List.singleton_append, ← remaining_of_read h] at found
      rw [found]
      simp [advance_of_read h, Source.advance, carried]
  | case3 cs s c s' h carried open_ ih =>
      subst taken
      have unclosed' := CommentScan.blockRest?_concat unclosed c
      rw [if_neg (mt (CommentScan.closes_iff inside c).mpr open_)] at unclosed'
      have same : inside ++ [c] ++ s'.remaining = inside ++ s.remaining := by
        rw [remaining_of_read h, List.append_assoc, List.singleton_append]
      rw [ih (coherent.of_read h) unclosed' rfl, same, toEnd_of_read h]
      cases found : CommentScan.blockRest? (inside ++ s.remaining) with
      | none => rfl
      | some more =>
          have long := CommentScan.length_lt_of_blockRest? unclosed' (same ▸ found)
          have step : more.length - inside.length = more.length - (inside ++ [c]).length + 1 := by
            rw [List.length_append, List.length_singleton] at long ⊢
            omega
          simp only [step, advance_of_read h]

/-- A comment is found behind its slash, if there is one. -/
theorem Coherent.scanComment (coherent : s.Coherent text) (slash : s.read = (some '/', s')) :
    s'.scanComment s.location =
      match CommentScan.first s.remaining with
      | .found text => (some (some ⟨String.ofList text, s.location⟩), s.advance text.length)
      | .unclosed => (none, s.toEnd)
      | .absent => (some none, s') := by
  have coherent' := coherent.of_read slash
  rw [remaining_of_read slash]
  unfold Source.scanComment
  split
  · next s'' h =>
      rw [remaining_of_read h, (coherent'.of_read h).scanWhile]
      simp [CommentScan.first, advance_of_read slash, advance_of_read h]
  · next s'' h =>
      have nothing : CommentScan.blockRest? [] = none := rfl
      have found := (coherent'.of_read h).scanBlock nothing
      rw [found, remaining_of_read h, CommentScan.first, toEnd_of_read slash, toEnd_of_read h,
        List.nil_append]
      cases CommentScan.blockRest? s''.remaining with
      | none => rfl
      | some more => simp [advance_of_read slash, advance_of_read h]
  · next c s'' line block h =>
      have unopened : Lexeme.Unopened '/' s'.remaining := by
        rw [remaining_of_read h]
        exact fun _ => noHead_cons.mpr (by simpa using ⟨line, block⟩)
      rw [Lexeme.first_of_unopened unopened, coherent'.unread_read h]
  · next s'' h =>
      rw [(remaining_of_read_none h).1, eq_of_read_none h]
      rfl

/-- A comment is found behind its first character, if there is one. -/
theorem Coherent.scanCommentFrom (coherent : s.Coherent text) (h : s.read = (some c, s')) :
    s'.scanCommentFrom c s.location =
      match CommentScan.first s.remaining with
      | .found text => (some (some ⟨String.ofList text, s.location⟩), s.advance text.length)
      | .unclosed => (none, s.toEnd)
      | .absent => (some none, s') := by
  unfold Source.scanCommentFrom
  split
  · next slash =>
      subst slash
      exact coherent.scanComment h
  · next other =>
      rw [remaining_of_read h, Lexeme.first_of_unopened fun slash => absurd slash other]

/-! ## Operators and strings -/

theorem Coherent.behindSlash (coherent : s.Coherent text) (c : Char) :
    s.behindSlash c = (if c = '/' then s.remaining.head? else none, s) := by
  unfold Source.behindSlash
  split
  · exact coherent.peek
  · rfl

/-- A comment opens where a slash has another, or a star, behind it. -/
theorem Coherent.behindSlash_opens (coherent : s.Coherent text) (c : Char) :
    ((s.behindSlash c).1 = some '/' ∨ (s.behindSlash c).1 = some '*') ↔
      ¬Lexeme.Unopened c s.remaining := by
  rw [coherent.behindSlash, Lexeme.Unopened, NoHead]
  by_cases slash : c = '/'
  · cases s.remaining with
    | nil => simp [slash]
    | cons d rest => simp [slash]; grind
  · simp [slash]

theorem Coherent.scanOperator (coherent : s.Coherent text) (taken : List Char) :
    s.scanOperator taken =
      (taken ++ Lexeme.operatorRun s.remaining,
        s.advance (Lexeme.operatorRun s.remaining).length) := by
  fun_induction Source.scanOperator taken s with
  | case1 taken s s' h =>
      simp [remaining_of_read_none h, eq_of_read_none h, Lexeme.operatorRun, Source.advance]
  | case2 taken s c s' h other =>
      have unopened : Lexeme.Unopened c s'.remaining := by
        rintro rfl
        cases other
      have unfit : ¬isOperator c = true := by simpa using other
      rw [remaining_of_read h, Lexeme.operatorRun_cons unopened, if_neg unfit,
        coherent.unread_read h]
      simp [Source.advance]
  | case3 taken s c s' h _ seen opens =>
      have coherent' := coherent.of_read h
      have opened := (coherent'.behindSlash_opens c).mp opens
      obtain rfl : c = '/' := (Classical.not_imp.mp opened).1
      rw [remaining_of_read h, Lexeme.operatorRun_of_not_unopened opened,
        show seen.2 = s' from congrArg Prod.snd (coherent'.behindSlash '/'), coherent.unread_read h]
      simp [Source.advance]
  | case4 taken s c s' h fits seen shut ih =>
      have coherent' := coherent.of_read h
      have unopened := Classical.not_not.mp (mt (coherent'.behindSlash_opens c).mpr shut)
      have stays : seen.2 = s' := congrArg Prod.snd (coherent'.behindSlash c)
      rw [stays] at ih ⊢
      rw [ih coherent', remaining_of_read h, Lexeme.operatorRun_cons unopened,
        if_pos (by simpa using fits), List.length_cons, advance_of_read h]
      simp

theorem Coherent.scanString (coherent : s.Coherent text) (quote : Char) (taken : List Char) :
    s.scanString quote taken =
      match Lexeme.stringRest? quote s.remaining with
      | some more => (some (taken ++ more), s.advance more.length)
      | none => (none, s.toEnd) := by
  fun_induction Source.scanString quote taken s with
  | case1 taken s s' h =>
      simp [remaining_of_read_none h, Lexeme.stringRest?, toEnd_of_read_none h]
  | case2 taken s s' s'' h' h =>
      simp [remaining_of_read h, remaining_of_read_none h', Lexeme.stringRest?, toEnd_of_read h,
        toEnd_of_read_none h']
  | case3 taken s s' c s'' h' h carried ih =>
      rw [ih ((coherent.of_read h).of_read h'), remaining_of_read h, remaining_of_read h',
        Lexeme.stringRest?, toEnd_of_read h, toEnd_of_read h']
      cases Lexeme.stringRest? quote s''.remaining with
      | none => rfl
      | some more => simp [advance_of_read h, advance_of_read h', carried]
  | case4 taken s s' h carried plain =>
      rw [remaining_of_read h, Lexeme.stringRest?_cons plain, if_pos rfl]
      simp [Source.advance, advance_of_read h, carried]
  | case5 taken s c s' h carried plain unquoted ih =>
      rw [ih (coherent.of_read h), remaining_of_read h, Lexeme.stringRest?_cons plain,
        if_neg unquoted, toEnd_of_read h]
      cases Lexeme.stringRest? quote s'.remaining with
      | none => rfl
      | some more => simp [advance_of_read h, carried]

/-! ## Numerals -/

/-- Going back over what was read leads to where it began. -/
theorem Coherent.unread_advance {cs rest : List Char} (coherent : s.Coherent text)
    (ahead : s.remaining = cs ++ rest) : (s.advance cs.length).unread cs = s := by
  induction cs generalizing s with
  | nil => rfl
  | cons c cs ih =>
      have others : s.read.2.remaining = cs ++ rest := by simp [ahead]
      calc (s.advance (cs.length + 1)).unread (c :: cs)
        _ = ((s.read.2.advance cs.length).unread cs).unreadChar c := rfl
        _ = s := by rw [ih coherent.read others, coherent.unreadChar_read (by simp [ahead])]

theorem advance_add (s : Source) (m n : Nat) : s.advance (m + n) = (s.advance m).advance n := by
  induction m generalizing s with
  | zero => rw [Nat.zero_add, Source.advance]
  | succ m ih => rw [Nat.add_right_comm, Source.advance, ih, Source.advance]

end Source

namespace NumeralScan

variable {n : NumeralScan} {s s' t : Source} {first c : Char}

/-- What is not given back: the last numeral, or else the first character. -/
def kept (first : Char) (n : NumeralScan) : List Char :=
  if n.longest = [] then [first] else n.longest

/-- A scan that began at the source `s` and has come to `t`. -/
structure Reached (s : Source) (first : Char) (n : NumeralScan) (t : Source) : Prop where
  whole : s.remaining = n.text ++ t.remaining
  here : t = s.advance n.text.length
  split : n.text = n.kept first ++ n.ahead
  noted : n.longest ≠ [] → Numeral.Shape n.longest
  /-- The candidate itself may be complete without having been noted. -/
  latest : ∀ v, v <+: n.text → v ≠ n.text → Numeral.Shape v → v <+: n.longest

theorem Reached.text_ne_nil (reached : n.Reached s first t) : n.text ≠ [] := by
  rw [reached.split, kept]
  split <;> simp [*]

theorem Reached.start (h : s.read = (some c, t)) : Reached s c { text := [c] } t where
  whole := Source.remaining_of_read h
  here := (Source.advance_of_read h 0).symm
  split := rfl
  noted some_char := absurd rfl some_char
  latest v isPrefix shorter shape := by
    obtain rfl | ⟨w, rfl, nothing⟩ := List.prefix_cons_iff.mp isPrefix
    · exact absurd rfl shape.ne_nil
    · exact absurd (congrArg (c :: ·) (List.prefix_nil.mp nothing)) shorter

theorem Reached.front (reached : n.Reached s first t) :
    s.remaining = n.kept first ++ (n.ahead ++ t.remaining) := by
  rw [reached.whole, ← List.append_assoc, ← reached.split]

/-- Behind a note, the last numeral counts the candidate in. -/
theorem Reached.note (reached : n.Reached s first t) :
    n.note.Reached s first t ∧ n.note.text = n.text ∧
      ∀ v, v <+: n.text → Numeral.Shape v → v <+: n.note.longest := by
  unfold NumeralScan.note
  split
  · next complete =>
      have shape := Numeral.fit_eq_complete_iff.mp complete
      refine ⟨⟨reached.whole, reached.here, ?_, fun _ => shape, fun v isPrefix _ _ => isPrefix⟩, rfl,
        fun v isPrefix _ => isPrefix⟩
      simp [kept, reached.text_ne_nil]
  · next incomplete =>
      refine ⟨reached, rfl, fun v isPrefix shape => reached.latest v isPrefix ?_ shape⟩
      rintro rfl
      exact incomplete (Numeral.fit_eq_complete_iff.mpr shape)

theorem Reached.push (reached : n.Reached s first t) (h : t.read = (some c, s'))
    (counted : ∀ v, v <+: n.text → Numeral.Shape v → v <+: n.longest) :
    (n.push c).Reached s first s' where
  whole := by
    rw [reached.whole, Source.remaining_of_read h]
    simp [NumeralScan.push]
  here := by
    rw [NumeralScan.push, List.length_append, Source.advance_add, ← reached.here]
    exact (Source.advance_of_read h 0).symm
  split := by
    change n.text ++ [c] = n.kept first ++ (n.ahead ++ [c])
    rw [← List.append_assoc, ← reached.split]
  noted := reached.noted
  latest v isPrefix shorter shape := by
    obtain same | inside := List.prefix_concat_iff.mp isPrefix
    · exact absurd same shorter
    · exact counted v inside shape

end NumeralScan

namespace Source

variable {text : List Char} {s s' t : Source} {first : Char}

/-- No numeral is longer than what is noted when a scan is over, and if nothing was read since
    then there is nothing left. -/
theorem scanNumeral_longest {n : NumeralScan} (reached : n.Reached s first t) :
    let (n', t') := t.scanNumeral n
    n'.Reached s first t' ∧
      (∀ v, v <+: s.remaining → Numeral.Shape v → v <+: n'.longest) ∧
      (n'.longest ≠ [] → n'.ahead = [] → t'.remaining = []) := by
  fun_induction Source.scanNumeral n t with
  | case1 n t hopeless =>
      have incomplete : ¬Numeral.Shape n.text :=
        Numeral.not_shape_of_hopeless hopeless reached.text_ne_nil List.prefix_rfl
      refine ⟨reached, fun v isPrefix shape => ?_, fun some_numeral nothing => ?_⟩
      · rw [reached.whole] at isPrefix
        obtain inside | ⟨more, -, rfl⟩ := prefix_append_cases isPrefix
        · refine reached.latest v inside ?_ shape
          rintro rfl
          exact incomplete shape
        · exact absurd shape (Numeral.not_shape_of_hopeless hopeless reached.text_ne_nil
            (List.prefix_append _ _))
      · -- the candidate would be the numeral that was noted
        have same := reached.split
        rw [nothing, List.append_nil, NumeralScan.kept, if_neg some_numeral] at same
        exact absurd (same ▸ reached.noted some_numeral) incomplete
  | case2 n t _ s' h =>
      obtain ⟨noted, same, counted⟩ := reached.note
      have nothing := (remaining_of_read_none h).1
      rw [eq_of_read_none h]
      refine ⟨noted, fun v isPrefix shape => counted v ?_ shape, fun _ _ => nothing⟩
      rwa [reached.whole, nothing, List.append_nil] at isPrefix
  | case3 n t _ c s' h ih =>
      obtain ⟨noted, same, counted⟩ := reached.note
      exact ih (noted.push h (same ▸ counted))

/-- What was noted when a scan is over is the longest numeral. -/
theorem eq_longest {cs w : List Char} (isPrefix : w <+: cs) (noted : w ≠ [] → Numeral.Shape w)
    (counted : ∀ v, v <+: cs → Numeral.Shape v → v <+: w) : w = Numeral.longest cs := by
  by_cases nothing : Numeral.longest cs = []
  · rw [nothing]
    exact Classical.not_not.mp fun some_numeral =>
      Numeral.not_shape_of_longest nothing w isPrefix (noted some_numeral)
  · have longest := Numeral.longest_numeral nothing
    have part := counted _ longest.isPrefix longest.fits
    refine (part.eq_of_length_le ?_).symm
    exact longest.longest w isPrefix (noted (part.ne_nil nothing))

/-- Giving back what was read since leads to where the numeral ends. -/
theorem Coherent.unread_ahead {n : NumeralScan} (coherent : s.Coherent text)
    (reached : n.Reached s first t) : t.unread n.ahead = s.advance (n.kept first).length := by
  have ahead : (s.advance (n.kept first).length).remaining = n.ahead ++ t.remaining := by
    rw [remaining_advance, reached.front, List.drop_left]
  rw [← (coherent.advance _).unread_advance ahead, ← advance_add, ← List.length_append,
    ← reached.split, ← reached.here]

theorem Coherent.scanNumber (coherent : s.Coherent text) (h : s.read = (some first, s')) :
    s'.scanNumber first =
      if Lexeme.numeralRun s.remaining = [] then
        let w := first :: Lexeme.operatorRun s'.remaining
        (.operator (String.ofList w), s.advance w.length)
      else
        let w := Lexeme.numeralRun s.remaining
        (⟨.number, String.ofList w⟩, s.advance w.length) := by
  obtain ⟨reached, counted, ended⟩ := scanNumeral_longest (.start h)
  unfold Source.scanNumber
  generalize s'.scanNumeral { text := [first] } = scanned at reached counted ended
  obtain ⟨n, t⟩ := scanned
  have behind := coherent.unread_ahead reached
  have front := reached.front
  simp only at counted ended ⊢
  by_cases nothing : n.longest = []
  · have none : Numeral.longest s.remaining = [] := by
      rw [← nothing]
      exact (eq_longest (nothing ▸ List.nil_prefix) reached.noted counted).symm
    have started : t.unread n.ahead = s' := by
      rw [behind, NumeralScan.kept, if_pos nothing]
      exact advance_of_read h 0
    have taken := (coherent.of_read h).scanOperator [first]
    simp [Lexeme.numeralRun, none, nothing, started, taken, advance_of_read h]
  · rw [NumeralScan.kept, if_neg nothing] at front behind
    have same := eq_longest ⟨_, front.symm⟩ reached.noted counted
    have follower : (s.remaining.drop n.longest.length).head? = n.ahead.head? := by
      rw [front, List.drop_left]
      cases ahead : n.ahead with
      | nil => simp [ended nothing ahead]
      | cons => rfl
    have some_numeral : Lexeme.numeralRun s.remaining ≠ [] := by
      rw [Numeral.numeralRun_eq_yielding, ← same]
      exact (reached.noted nothing).yielding_ne_nil _
    rw [if_neg some_numeral, if_neg (by simpa using nothing), behind]
    simp only [Lexeme.numeralRun, ← same, follower]
    split
    · next yields =>
        simp only [gt_iff_lt, Bool.and_eq_true, beq_iff_eq] at yields
        obtain ⟨w, point⟩ := List.getLast?_eq_some_iff.mp yields.1.2
        rw [point, List.dropLast_concat, List.length_append, advance_add]
        have left : (s.advance w.length).remaining = ['.'] ++ (n.ahead ++ t.remaining) := by
          rw [remaining_advance, front, point, List.append_assoc, List.drop_left]
        rw [(coherent.advance _).unread_advance left]
    · rfl

/-- A scan takes the lexeme that a text begins with. -/
theorem Coherent.scanLexeme (coherent : s.Coherent text) (h : s.read = (some first, s')) :
    s'.scanLexeme first =
      match Lexeme.first? s.remaining with
      | some (kind, text) => (some ⟨kind, String.ofList text⟩, s.advance text.length)
      | none => (none, s.toEnd) := by
  have coherent' := coherent.of_read h
  have front := remaining_of_read h
  unfold Source.scanLexeme
  rw [front, Lexeme.first?]
  split
  · simp [Lexeme.separator, advance_of_read h, Source.advance]
  split
  · rw [coherent'.scanWhile]
    simp [Lexeme.symbol, advance_of_read h]
  split
  · rw [coherent.scanNumber h, front]
    by_cases nothing : Lexeme.numeralRun (first :: s'.remaining) = []
    · simp [nothing, Lexeme.operator]
    · simp [nothing]
  split
  · rw [coherent'.scanOperator]
    simp [Lexeme.operator, advance_of_read h]
  split
  · rw [coherent'.scanString, toEnd_of_read h]
    cases Lexeme.stringRest? first s'.remaining with
    | none => rfl
    | some more => simp [advance_of_read h]
  · simp [advance_of_read h, Source.advance]

/-- What stands behind the blanks, when something does. -/
theorem Coherent.read_skipBlanks (coherent : s.Coherent text)
    (h : s.scanBlanks = (some c, t)) :
    s.skipBlanks = t ∧ t.Coherent text ∧ t.read = (some c, t.read.2) := by
  rw [coherent.scanBlanks] at h
  obtain ⟨first, rfl⟩ := Prod.mk.inj h
  exact ⟨rfl, coherent.advance _, Prod.ext (by rw [fst_read, first]) rfl⟩

/-- A scan takes the next token. -/
theorem Coherent.scanAfter (coherent : s.Coherent text) (comments : List Comment) :
    s.scanAfter comments = s.tokenAfter comments := by
  fun_induction Source.scanAfter comments s with
  | case1 comments s s' blanks =>
      rw [coherent.scanBlanks] at blanks
      obtain ⟨nothing, rfl⟩ := Prod.mk.inj blanks
      rw [List.head?_eq_none_iff] at nothing
      have ended : s.tokenAfter comments = _ :=
        tokenAfter_of_first?_none (by rw [nothing]; rfl) (by rw [nothing]; rfl)
      rw [ended, Source.toEnd, nothing]
      rfl
  | case2 comments s c here blanks s' comment =>
      obtain ⟨rfl, coherent', first⟩ := coherent.read_skipBlanks blanks
      rw [coherent'.scanCommentFrom first] at comment
      split at comment
      · cases comment
      · next unclosed =>
          cases comment
          rw [tokenAfter_of_unclosed unclosed]
      · cases comment
  | case3 comments s c here blanks comment s' found ih =>
      obtain ⟨rfl, coherent', first⟩ := coherent.read_skipBlanks blanks
      rw [coherent'.scanCommentFrom first] at found
      split at found
      · next found' =>
          cases found
          rw [ih (coherent'.advance _), tokenAfter_of_found found']
      · cases found
      · cases found
  | case4 comments s c here blanks s' absent lexeme? s'' scanned =>
      obtain ⟨rfl, coherent', first⟩ := coherent.read_skipBlanks blanks
      rw [coherent'.scanCommentFrom first] at absent
      split at absent
      · cases absent
      · cases absent
      · next absent' =>
          cases absent
          rw [coherent'.scanLexeme first] at scanned
          rw [tokenAfter_of_absent absent']
          cases found : Lexeme.first? s.skipBlanks.remaining with
          | none =>
              rw [found] at scanned
              cases scanned
              rfl
          | some lexeme =>
              rw [found] at scanned
              cases scanned
              rfl

/-- A scan takes the tokens that the library works with, from every source that only was read
    and given characters back. -/
theorem scan_eq_token (history : List Request) (text : String) (name : Option String) :
    let s := (Request.run history (ofString text name)).2
    s.scan = s.token :=
  ((coherent_ofString text name).run history).scanAfter []

theorem Within.coherent (within : s.Within text) : s.Coherent text where
  whole := by simpa [remaining, within.own] using within.whole
  place := within.place
  foreign c last := by simp [within.own] at last

/-- Where neither a blank nor a comment comes next, the first character of the text tells the
    class of the token that is taken, and the token is the longest of its class, whatever comes
    behind: a numeral without the point that what follows wants, and a string through the first
    quote that closes it. A string that is never closed is no token. A scan that has read the
    first character takes the same, and leaves the source there. -/
theorem token_longest {s : Source} {c : Char} {rest : List Char} (comments : List Comment)
    (ahead : s.remaining = c :: rest) (solid : isBlank c = false)
    (unopened : Lexeme.Unopened c rest) :
    ∃ found, LongestMatch c rest found ∧
      (s.tokenAfter comments =
        match found with
        | some (kind, text) =>
            (some { kind, text := String.ofList text, location := s.location, comments },
              s.advance text.length)
        | none => (none, s.toEnd)) ∧
      ∀ text, s.Coherent text → s.scanAfter comments = s.tokenAfter comments ∧
        s.read.2.scanLexeme c =
          match found with
          | some (kind, text) => (some ⟨kind, String.ofList text⟩, s.advance text.length)
          | none => (none, s.toEnd) := by
  have here : s.skipBlanks = s := by simp [skipBlanks, ahead, solid, Source.advance]
  have absent : CommentScan.first s.skipBlanks.remaining = .absent := by
    rw [here, ahead]
    exact Lexeme.first_of_unopened unopened
  have taken : s.tokenAfter comments = _ := tokenAfter_of_absent absent
  simp only [here, ahead] at taken
  refine ⟨_, Lexeme.longestMatch_first? c rest, taken, fun text coherent => ?_⟩
  have front : s.read = (some c, s.read.2) := Prod.ext (by simp [ahead]) rfl
  have scanned := coherent.scanLexeme front
  rw [ahead] at scanned
  exact ⟨coherent.scanAfter comments, scanned⟩

/-- The longest numeral is `1.`, but the name behind it wants the point. The scan reads on to the
    slash, and gives back all but the digit. -/
theorem token_longest_point :
    let s := Source.ofString "1.e+//x"
    s.remaining = '1' :: ".e+//x".toList ∧ isBlank '1' = false ∧
    Lexeme.Unopened '1' ".e+//x".toList ∧ s.token.1.map (·.text) = some "1" ∧
    (∃ w, Longest Numeral.Shape s.remaining w ∧
      s.token.1.map (·.text) =
        some (String.ofList (Numeral.yielding w (s.remaining.drop w.length)))) ∧
    s.Coherent "1.e+//x".toList ∧
    ∃ w, Longest Numeral.Shape s.remaining w ∧
      s.read.2.scanLexeme '1' =
        (some ⟨.number, String.ofList (Numeral.yielding w (s.remaining.drop w.length))⟩,
          s.advance (Numeral.yielding w (s.remaining.drop w.length)).length) := by
  intro s
  have ahead : s.remaining = '1' :: ".e+//x".toList := by decide +kernel
  have unopened : Lexeme.Unopened '1' ".e+//x".toList := nofun
  have coherent : s.Coherent "1.e+//x".toList := coherent_ofString _ _
  refine ⟨ahead, by decide, unopened, by decide +kernel, ?_⟩
  obtain ⟨found, longest, taken, scans⟩ := token_longest [] ahead (by decide) unopened
  obtain ⟨w, isLongest, rfl⟩ | ⟨none, -⟩ := longest.numeral (.inl (by decide))
  · rw [← ahead] at isLongest scans taken
    refine ⟨⟨w, isLongest, ?_⟩, coherent, w, isLongest, (scans _ coherent).2⟩
    rw [token, taken]
    rfl
  · exact absurd (.digits (by simp) (List.forall_mem_singleton.mpr rfl)) (none ['1'] (by simp))

end Source

namespace Lexer

/-- Every read that asks the source is a scan, at every point of a run over a text. -/
theorem read_eq_scan {text : String} {name : Option String} {l : Lexer}
    (reached : Runs { source := .ofString text name } l) (idle : l.pending = []) :
    l.read = (l.source.scan.1, { source := l.source.scan.2 }) := by
  have within : l.source.Within text.toList :=
    reached.preserves (fun s within => (within.tokenAfter_cases []).1)
      (Source.within_ofString text name)
  rw [read_of_idle idle, Source.scan, within.coherent.scanAfter, Source.token]

end Lexer

end Scriptlet
