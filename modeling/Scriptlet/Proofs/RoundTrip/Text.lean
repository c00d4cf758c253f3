import Scriptlet.Proofs.Grammar.Content
import Scriptlet.Proofs.RoundTrip.Reading
import Scriptlet.Proofs.RoundTrip.Tokens

/-! # Programs read back from their text

A written program is read as the lexemes it is written with, with one exception: digits,
a point and a name behind it are one numeral if the name makes an exponent. Then the
program that is read back, if any, is another one.
-/

namespace Scriptlet

open CharClass

namespace Piece

/-- Is this a numeral made of digits only? -/
def isWhole : Piece → Bool
  | blank => false
  | lexeme l => l.kind = .number && l.text.toList.all Char.isDigit

/-- Does this piece consist of digits, and do a point and what makes an exponent follow? -/
def joins (piece : Piece) (rest : List Piece) : Bool :=
  piece.isWhole && rest.head? = some (operator ".") &&
    !(Numeral.leadingExponent (renderAfter (some '.') rest.tail)).isEmpty

/-- Is some numeral among the pieces read together with what is written behind it? -/
def misread : List Piece → Bool
  | [] => false
  | piece :: rest => piece.joins rest || misread rest

variable {ps : List Piece} {last : Option Char} {rest : List Char}

/-- What written pieces begin with, be it a blank that keeps operators apart. -/
theorem noHead_renderAfter {p : Char → Bool} (newline : p '\n' = false) (space : p ' ' = false)
    (next : ∀ b ∈ ps.head?, b.characters ≠ [] ∧
      (touch last b.characters.head? = false → NoHead p b.characters)) :
    NoHead p (renderAfter last ps ++ '\n' :: rest) := by
  cases ps with
  | nil => exact noHead_cons.mpr newline
  | cons b ps =>
      obtain ⟨some_char, free⟩ := next b rfl
      cases apart : touch last b.characters.head?
      · have begins : NoHead p (b.characters ++ (renderAfter (b.characters.getLast?.or last) ps ++
            '\n' :: rest)) := (free apart).append fun nothing => absurd nothing some_char
        simpa [renderAfter, apart] using begins
      · simpa [renderAfter, apart] using space

/-! ## What stands behind a lexeme -/

/-- Every lexeme among the pieces is one that trees are written with. -/
def AllWritten (ps : List Piece) : Prop :=
  ∀ l ∈ lexemes ps, l.Written

theorem allWritten_cons {b : Piece} : AllWritten (b :: ps) ↔ AllWritten [b] ∧ AllWritten ps := by
  rw [AllWritten, ← List.singleton_append, lexemes_append, List.forall_mem_append]
  rfl

theorem allWritten_lexeme {l : Lexeme} : AllWritten [lexeme l] ↔ l.Written := by
  simp [AllWritten]

theorem AllWritten.head {b : Piece} (h : AllWritten ps) (first : b ∈ ps.head?) :
    AllWritten [b] := by
  obtain ⟨others, rfl⟩ := List.head?_eq_some_iff.mp first
  exact (allWritten_cons.mp h).1

theorem characters_ne_nil {b : Piece} (written : AllWritten [b]) : b.characters ≠ [] := by
  cases b with
  | blank => simp [characters]
  | lexeme l =>
      obtain ⟨cs, first⟩ := (allWritten_lexeme.mp written).lexical
      exact List.length_pos_iff.mp (Lexeme.length_pos_of_first? first).1

theorem operatorSpellings_last : ∀ text ∈ operatorSpellings,
    text.toList.getLast?.any isOperator = true := by
  decide +kernel

theorem operatorSpellings_head : ∀ text ∈ operatorSpellings,
    text.toList.head?.any continuesSymbol = false ∧
      (text ≠ "." → text.toList.head?.any (· == '.') = false) := by
  decide +kernel

/-- Behind an operator comes none. -/
theorem noHead_behind_operator {text : String} (mem : text ∈ operatorSpellings)
    (written : AllWritten ps) :
    NoHead isOperator (renderAfter (text.toList.getLast?.or last) ps ++ '\n' :: rest) := by
  refine noHead_renderAfter (by decide) (by decide) fun b head => ?_
  refine ⟨characters_ne_nil (written.head head), fun apart => ?_⟩
  obtain ⟨c, same, isOperator⟩ := (Option.any_eq_true _ _).mp (operatorSpellings_last text mem)
  rw [noHead_iff_any]
  simpa [touch, same, isOperator] using apart

/-- What is no word begins with no character of a name, and only one operator with a point. -/
theorem noHead_characters {b : Piece} (written : AllWritten [b]) (soft : b.isWord = false) :
    NoHead continuesSymbol b.characters ∧
      (b ≠ operator "." → NoHead (· == '.') b.characters) := by
  cases b with
  | blank => exact ⟨noHead_cons.mpr (by decide), fun _ => noHead_cons.mpr (by decide)⟩
  | lexeme l =>
      cases allWritten_lexeme.mp written with
      | @separator c isSeparator =>
          obtain ⟨unnamed, -, -, noPoint⟩ := apart_of_isSeparator isSeparator
          simp [characters, Lexeme.separator, unnamed, noPoint]
      | @operator text mem =>
          obtain ⟨unnamed, noPoint⟩ := operatorSpellings_head text mem
          refine ⟨noHead_iff_any.mpr unnamed, fun other => noHead_iff_any.mpr (noPoint ?_)⟩
          rintro rfl
          exact other rfl
      | other _ kind => simp [isWord, kind] at soft

/-- Behind a word comes nothing that carries it on. -/
theorem noHead_behind_word {l : Lexeme} (word : (lexeme l).isWord = true) (written : AllWritten ps)
    (fits : (lexeme l :: ps).IsChain Fits) :
    NoHead continuesSymbol (renderAfter last ps ++ '\n' :: rest) := by
  refine noHead_renderAfter (by decide) (by decide) fun b head => ?_
  have here := written.head head
  exact ⟨characters_ne_nil here,
    fun _ => (noHead_characters here ((fits.rel_head? head).1 word)).1⟩

/-- A name begins the text behind a point. -/
theorem head_behind_point (written : AllWritten ps) (fits : (operator "." :: ps).IsChain Fits)
    (some_piece : ps ≠ []) (rest : List Char) :
    ∃ c ∈ (renderAfter (some '.') ps ++ '\n' :: rest).head?, startsSymbol c = true := by
  obtain ⟨b, qs, rfl⟩ := List.exists_cons_of_ne_nil some_piece
  obtain ⟨name, rfl⟩ := (fits.rel_head? rfl).2 rfl
  have lexical := (allWritten_lexeme.mp (written.head rfl)).lexical
  obtain ⟨c, head, starts⟩ := Lexeme.startsSymbol_of_symbol lexical rfl
  have inoperative := isOperator_of_continuesSymbol (continuesSymbol_of_startsSymbol c starts)
  obtain ⟨cs, same⟩ := List.head?_eq_some_iff.mp head
  refine ⟨c, ?_, starts⟩
  rw [Lexeme.symbol] at same
  simp [renderAfter, characters, symbol, Lexeme.symbol, same, touch, inoperative]

theorem renderAfter_point : renderAfter last (operator "." :: ps) =
    (if touch last (some '.') then [' '] else []) ++ '.' :: renderAfter (some '.') ps := by
  simp [renderAfter, characters, operator, Lexeme.operator]
  rfl

/-- A point may touch digits. -/
theorem touch_digits {w : List Char} (some_digit : w ≠ []) (all : ∀ c ∈ w, c.isDigit = true) :
    touch (w.getLast?.or last) (some '.') = false := by
  have digit := all _ (List.getLast_mem some_digit)
  have inoperative := isOperator_of_continuesSymbol (continuesSymbol_of_isDigit _ digit)
  simp [List.getLast?_eq_some_getLast some_digit, touch, inoperative]

/-- A number before a point is read as it is written, unless it joins with what follows. -/
theorem numeralRun_before_point {l : Lexeme} (shape : Numeral.Shape l.text.toList)
    (kind : l.kind = .number) (last : Option Char)
    (named : ∃ c ∈ (renderAfter (some '.') ps ++ '\n' :: rest).head?, startsSymbol c = true) :
    Lexeme.numeralRun (l.text.toList ++
        (renderAfter (l.text.toList.getLast?.or last) (operator "." :: ps) ++ '\n' :: rest)) =
      if joins (lexeme l) (operator "." :: ps) then
        l.text.toList ++ '.' :: Numeral.leadingExponent (renderAfter (some '.') ps)
      else l.text.toList := by
  rw [renderAfter_point]
  by_cases whole : (lexeme l).isWhole = true
  · have digits : ∀ c ∈ l.text.toList, c.isDigit = true := by
      simpa [isWhole, kind] using whole
    have found := Numeral.numeralRun_digits_point shape.ne_nil digits named
    rw [Numeral.leadingExponent_newline] at found
    have joined : joins (lexeme l) (operator "." :: ps) =
        !(Numeral.leadingExponent (renderAfter (some '.') ps)).isEmpty := by
      simp [joins, whole]
    rw [touch_digits shape.ne_nil digits, joined, if_neg (by simp), List.nil_append,
      List.cons_append, found]
    cases Numeral.leadingExponent (renderAfter (some '.') ps) <;> rfl
  · have plain : joins (lexeme l) (operator "." :: ps) = false := by simp [joins, whole]
    rw [plain]
    cases apart : touch (l.text.toList.getLast?.or last) (some '.')
    · refine shape.numeralRun_append_point ?_ ?_
      · intro isPoint
        simp [isPoint, touch, isOperator] at apart
      · simpa [isWhole, kind] using whole
    · exact shape.numeralRun_append (noHead_cons.mpr (by decide)) (noHead_cons.mpr (by decide))

/-- A number is read as it is written, unless it joins with what follows. -/
theorem numeralRun_written {l : Lexeme} (lexical : l.Lexical) (kind : l.kind = .number)
    (written : AllWritten ps) (fits : (lexeme l :: ps).IsChain Fits)
    (ends : ∀ a ∈ ps.getLast?, a ≠ operator ".") (last : Option Char) (rest : List Char) :
    Lexeme.numeralRun (l.text.toList ++
        (renderAfter (l.text.toList.getLast?.or last) ps ++ '\n' :: rest)) =
      if joins (lexeme l) ps then
        l.text.toList ++ '.' :: Numeral.leadingExponent (renderAfter (some '.') ps.tail)
      else l.text.toList := by
  have shape := Lexeme.shape_of_number lexical kind
  have word : (lexeme l).isWord = true := by simp [isWord, kind]
  by_cases point : ps.head? = some (operator ".")
  · obtain ⟨qs, rfl⟩ := List.head?_eq_some_iff.mp point
    have some_piece : qs ≠ [] := by
      rintro rfl
      exact ends _ rfl rfl
    exact numeralRun_before_point shape kind last
      (head_behind_point (allWritten_cons.mp written).2 fits.tail some_piece rest)
  · have plain : joins (lexeme l) ps = false := by simp [joins, point]
    rw [plain]
    refine shape.numeralRun_append (noHead_behind_word word written fits) ?_
    refine noHead_renderAfter (by decide) (by decide) fun b head => ?_
    have here := written.head head
    refine ⟨characters_ne_nil here, fun _ => ?_⟩
    refine (noHead_characters here ((fits.rel_head? head).1 word)).2 ?_
    rintro rfl
    exact point head

/-! ## Rows of pieces -/

/-- What is needed of pieces for their text to be read as they are written. -/
structure Row (ps : List Piece) : Prop where
  written : AllWritten ps
  fits : ps.IsChain Fits
  ends : ∀ a ∈ ps.getLast?, a ≠ operator "."

theorem Row.tail {b : Piece} (row : Row (b :: ps)) : Row ps := by
  refine ⟨(allWritten_cons.mp row.written).2, row.fits.tail, fun a last => row.ends a ?_⟩
  rw [List.getLast?_cons, Option.mem_def.mp last]
  rfl

/-- A piece that does not join with what follows stands by itself. -/
theorem Row.stands {l : Lexeme} (row : Row (lexeme l :: ps)) (plain : joins (lexeme l) ps = false) :
    l.Stands (renderAfter (l.text.toList.getLast?.or last) ps ++ '\n' :: rest) := by
  have others := row.tail.written
  cases allWritten_lexeme.mp (allWritten_cons.mp row.written).1 with
  | separator isSeparator => exact Lexeme.stands_separator isSeparator
  | @operator text mem =>
      refine Lexeme.stands_operator mem (noHead_behind_operator mem others) ?_
      rintro rfl
      refine noHead_renderAfter (by decide) (by decide) fun b head => ?_
      have here := others.head head
      obtain ⟨name, rfl⟩ := (row.fits.rel_head? head).2 rfl
      obtain ⟨c, first, starts⟩ :=
        Lexeme.startsSymbol_of_symbol (allWritten_lexeme.mp here).lexical rfl
      refine ⟨characters_ne_nil here, fun _ d head' => ?_⟩
      cases head'.symm.trans first
      exact isDigit_of_startsSymbol c starts
  | other lexical kind =>
      have word : (lexeme l).isWord = true := by simpa [isWord] using kind
      simp only [List.mem_cons, List.not_mem_nil, or_false] at kind
      obtain symbol | number | string := kind
      · exact Lexeme.stands_symbol lexical symbol (noHead_behind_word word others row.fits)
      · have found := numeralRun_written lexical number others row.fits row.tail.ends last rest
        rw [plain] at found
        exact Lexeme.stands_number lexical number found
      · exact Lexeme.stands_string lexical string

theorem reads_gap (needed : Bool) (cs : List Char) :
    Reads ((if needed then [' '] else []) ++ cs) [] cs := by
  cases needed
  · exact .done
  · exact .blank (by decide) .done

/-- Pieces none of which joins with what follows are read as they are written. -/
theorem Row.reads (row : Row ps) (plain : misread ps = false) (last : Option Char)
    (rest : List Char) :
    Reads (renderAfter last ps ++ '\n' :: rest) (lexemes ps) ('\n' :: rest) := by
  induction ps generalizing last with
  | nil => exact .done
  | cons b ps ih =>
      simp only [misread, Bool.or_eq_false_iff] at plain
      have more := ih row.tail plain.2
      simp only [renderAfter, List.append_assoc]
      refine (reads_gap _ _).trans ?_
      cases b with
      | blank => exact .blank (by decide) (more _)
      | lexeme l => exact .lexeme (row.stands plain.1) (more _)

/-- The text is read as these lexemes up to a number, and then as another number. -/
def Strays (cs : List Char) (ls : List Lexeme) : Prop :=
  ∃ before number other after rest, ls = before ++ ⟨.number, number⟩ :: after ∧ other ≠ number ∧
    Reads cs (before ++ [⟨.number, other⟩]) rest

theorem Strays.of_reads {cs ds : List Char} {ls ms : List Lexeme} (reads : Reads cs ls ds)
    (strays : Strays ds ms) : Strays cs (ls ++ ms) := by
  obtain ⟨before, number, other, after, rest, rfl, apart, more⟩ := strays
  refine ⟨ls ++ before, number, other, after, rest, by simp, apart, ?_⟩
  rw [List.append_assoc]
  exact reads.trans more

theorem Strays.append {cs : List Char} {ls : List Lexeme} (strays : Strays cs ls)
    (ms : List Lexeme) : Strays cs (ls ++ ms) := by
  obtain ⟨before, number, other, after, rest, rfl, apart, more⟩ := strays
  exact ⟨before, number, other, after ++ ms, rest, by simp, apart, more⟩

/-- A number that joins with what follows is read as another one. -/
theorem Row.strays_of_joins {b : Piece} (row : Row (b :: ps)) (joined : joins b ps = true)
    (last : Option Char) (rest : List Char) :
    Strays (b.characters ++ (renderAfter (b.characters.getLast?.or last) ps ++ '\n' :: rest))
      (lexemes (b :: ps)) := by
  cases b with
  | blank => cases joined
  | lexeme l =>
      have written := allWritten_lexeme.mp (allWritten_cons.mp row.written).1
      have number : l.kind = .number := by
        simp only [joins, isWhole, Bool.and_eq_true, decide_eq_true_eq] at joined
        exact joined.1.1.1
      have found := numeralRun_written written.lexical number row.tail.written row.fits
        row.tail.ends last rest
      rw [if_pos joined] at found
      obtain ⟨behind, same⟩ := Lexeme.numeralRun_isPrefix (l.text.toList ++
        (renderAfter (l.text.toList.getLast?.or last) ps ++ '\n' :: rest))
      rw [found] at same
      have stands := Lexeme.stands_numeral written.lexical number found (by simp) same.symm
      have reads := Reads.lexeme stands (Reads.done : Reads behind [] behind)
      rw [String.toList_ofList, same] at reads
      have here : lexemes (lexeme l :: ps) = ⟨.number, l.text⟩ :: lexemes ps :=
        congrArg (· :: lexemes ps) (Lexeme.eq_iff.mpr ⟨number, rfl⟩)
      refine ⟨[], l.text, _, lexemes ps, behind, here, fun longer => ?_, reads⟩
      have absurd := congrArg (fun text => text.toList.length) longer
      simp at absurd

/-- Pieces one of which joins with what follows are read as others. -/
theorem Row.strays (row : Row ps) (wrong : misread ps = true) (last : Option Char)
    (rest : List Char) : Strays (renderAfter last ps ++ '\n' :: rest) (lexemes ps) := by
  induction ps generalizing last with
  | nil => cases wrong
  | cons b ps ih =>
      simp only [renderAfter, List.append_assoc]
      refine .of_reads (reads_gap _ _) ?_
      cases joined : joins b ps with
      | true => exact row.strays_of_joins joined last rest
      | false =>
          rw [misread, joined, Bool.false_or] at wrong
          have more := ih row.tail wrong
          cases b with
          | blank => exact .of_reads (.blank (by decide) .done) (more _)
          | lexeme l => exact .of_reads (.lexeme (row.stands joined) .done) (more _)

end Piece

theorem Tidy.row {ps : List Piece} (tidy : Tidy ps) : Piece.Row ps := by
  obtain ⟨a, last, notPoint⟩ := tidy.ends
  refine ⟨tidy.written, tidy.fits, fun b last' => ?_⟩
  cases last.symm.trans last'
  exact notPoint

/-! ## Programs -/

namespace Program

open Piece

variable {p : Program}

/-- Is some number of the program read together with what is written behind it? -/
def misread (p : Program) : Bool :=
  p.any fun n => Piece.misread n.pieces

theorem toList_text_cons (n : Node) (p : Program) :
    (text (n :: p)).toList = renderAfter none n.pieces ++ '\n' :: (text p).toList := by
  simp [text, Node.text, render, String.join_cons]

theorem reads (rows : ∀ n ∈ p, Row n.pieces) (plain : p.misread = false) :
    Reads p.text.toList p.lexemes [] := by
  induction p with
  | nil => exact .done
  | cons n p ih =>
      obtain ⟨row, rows⟩ := List.forall_mem_cons.mp rows
      rw [misread, List.any_cons, Bool.or_eq_false_iff] at plain
      rw [toList_text_cons]
      exact (row.reads plain.1 none _).trans (.blank (by decide) (ih rows plain.2))

theorem strays (rows : ∀ n ∈ p, Row n.pieces) (wrong : p.misread = true) :
    Strays p.text.toList p.lexemes := by
  induction p with
  | nil => cases wrong
  | cons n p ih =>
      obtain ⟨row, rows⟩ := List.forall_mem_cons.mp rows
      rw [toList_text_cons]
      cases here : Piece.misread n.pieces with
      | true => exact (row.strays here none _).append _
      | false =>
          rw [misread, List.any_cons, here, Bool.false_or] at wrong
          exact .of_reads (row.reads here none _) (.of_reads (.blank (by decide) .done) (ih rows wrong))

theorem text_of_unplaced {q : Program} (same : q.unplaced = p.unplaced) : q.text = p.text := by
  have text_unplaced (p : Program) : p.unplaced.text = p.text := by
    simp [text, unplaced, Function.comp_def, Node.text, Node.pieces_unplaced]
  rw [← text_unplaced q, same, text_unplaced]

end Program

/-- What is read astray has not the content that it was written with. -/
theorem Piece.Strays.content_ne {text : String} {ls : List Lexeme} (strays : Strays text.toList ls) :
    Token.content (Source.ofString text).tokens.1 ≠ Lexeme.content ls := by
  obtain ⟨before, number, other, after, rest, rfl, apart, reads⟩ := strays
  obtain ⟨s', -, same⟩ :=
    Source.tokens_of_reads reads (show (Source.ofString text).remaining = _ from rfl)
  intro content
  rw [Token.content, same] at content
  simp [Lexeme.content] at content
  exact apart content.1

/-- An accepted program is found again, apart from places, in its text exactly if none of
    its numbers is read together with what is written behind it. -/
theorem Parse.program_text_iff {text : String} {p : Program} {rest : Tokens}
    (accepted : Parse.program (.ofSource (.ofString text)) = .ok p rest) :
    (∃ q last, Parse.program (.ofSource (.ofString p.text)) = .ok q last ∧
        q.unplaced = p.unplaced ∧ q.text = p.text) ↔ p.misread = false := by
  have tidy := Grammar.tidy_of_program accepted Source.lexical_tokens
  have rows : ∀ n ∈ p, Piece.Row n.pieces := fun n mem => (tidy n mem).row
  constructor
  · rintro ⟨q, last, ran, same, -⟩
    cases wrong : p.misread
    · rfl
    · have content := Grammar.content_of_program ran Source.lexical_tokens
      rw [Program.lexemes_of_unplaced same] at content
      exact absurd content (Program.strays rows wrong).content_ne
  · intro plain
    have spelled := Source.tokens_ofString (Program.reads rows plain)
    obtain ⟨q, ran, same⟩ :=
      Grammar.program_of_spelled accepted Source.lexical_tokens spelled _
    exact ⟨q, _, ran, same, Program.text_of_unplaced same⟩

theorem Parse.program_text_iff_exponent :
    (∃ p rest, Parse.program (.ofSource (.ofString "1 .e5x")) = .ok p rest ∧
      ¬∃ q last, Parse.program (.ofSource (.ofString p.text)) = .ok q last ∧
        q.unplaced = p.unplaced ∧ q.text = p.text) ∧
    ∃ p rest, Parse.program (.ofSource (.ofString "1 .ex5 - -1. .e5")) = .ok p rest ∧
      ∃ q last, Parse.program (.ofSource (.ofString p.text)) = .ok q last ∧
        q.unplaced = p.unplaced ∧ q.text = p.text := by
  constructor
  · obtain ⟨p, rest, accepted, wrong⟩ := Parse.exists_of_accepts (s := .ofSource
      (.ofString "1 .e5x")) Program.misread (by decide +kernel)
    refine ⟨p, rest, accepted, fun again => ?_⟩
    cases wrong.symm.trans ((Parse.program_text_iff accepted).mp again)
  · obtain ⟨p, rest, accepted, plain⟩ := Parse.exists_of_accepts (s := .ofSource
      (.ofString "1 .ex5 - -1. .e5")) (fun p => !p.misread) (by decide +kernel)
    have right := by simpa using plain
    exact ⟨p, rest, accepted, (Parse.program_text_iff accepted).mpr right⟩

end Scriptlet
