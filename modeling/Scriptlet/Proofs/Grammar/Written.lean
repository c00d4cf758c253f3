import Mathlib.Data.List.Chain
import Scriptlet.Proofs.Grammar.StatesPrinting
import Scriptlet.Proofs.Lexeme
import Scriptlet.Proofs.Node.Pieces
import Scriptlet.Proofs.Operator

/-! # What written trees consist of

The lexemes of a written tree are separators, operators of the language, and names,
numbers and strings that were tokens of the text that the tree was derived from. All of
them are lexemes that a text can begin with.
-/

namespace Scriptlet

open CharClass Piece

/-- The operators between operands and before them. -/
def operatorWords : List String :=
  BinaryOp.all.map BinaryOp.symbol ++ PrefixOp.all.map PrefixOp.symbol

/-- The spellings of all operators that are not words. -/
def operatorSpellings : List String :=
  (operatorWords ++ ["?", ":", ",", ".", "?.", "->"]).filter fun text =>
    !text.toList.head?.any Char.isAlpha

/-- Operators that stand in one place of the grammar only. -/
theorem mem_operatorSpellings : ∀ text ∈ ["?", ":", ",", "=", "++", "--", ".", "?.", "->"],
    text ∈ operatorSpellings := by
  decide +kernel

/-- A lexeme that trees are written with. -/
inductive Lexeme.Written : Lexeme → Prop where
  | separator {c : Char} (isSeparator : isSeparator c = true) : Written (.separator c)
  | operator {text : String} (mem : text ∈ operatorSpellings) : Written (.operator text)
  | other {l : Lexeme} (lexical : l.Lexical) (kind : l.kind ∈ [Kind.symbol, .number, .string]) :
      Written l

theorem first?_operatorSpellings : ∀ text ∈ operatorSpellings,
    Lexeme.first? text.toList = some (.operator, text.toList) := by
  decide +kernel

theorem Lexeme.Written.lexical {l : Lexeme} (written : l.Written) : l.Lexical := by
  cases written with
  | @separator c isSeparator => exact ⟨[c], by simp [first?, isSeparator, Lexeme.separator]⟩
  | operator mem => exact ⟨_, first?_operatorSpellings _ mem⟩
  | other lexical _ => exact lexical

theorem written_operatorWords : ∀ text ∈ operatorWords,
    (operatorLexeme text = .operator text ∧ text ∈ operatorSpellings) ∨
    (operatorLexeme text = .symbol text ∧
      Lexeme.first? text.toList = some (.symbol, text.toList)) := by
  decide +kernel

theorem written_operatorLexeme {text : String} (mem : text ∈ operatorWords) :
    (operatorLexeme text).Written := by
  obtain ⟨same, mem⟩ | ⟨same, first⟩ := written_operatorWords text mem
  · rw [same]
    exact .operator mem
  · rw [same]
    exact .other ⟨_, first⟩ (by simp [Lexeme.symbol])

theorem BinaryOp.symbol_mem_operatorWords (op : BinaryOp) : op.symbol ∈ operatorWords :=
  List.mem_append_left _ (List.mem_map_of_mem op.mem_all)

theorem PrefixOp.symbol_mem_operatorWords (op : PrefixOp) : op.symbol ∈ operatorWords :=
  List.mem_append_right _ (List.mem_map_of_mem op.mem_all)

theorem written_symbol {text : String}
    (first : Lexeme.first? text.toList = some (.symbol, text.toList)) :
    (Lexeme.symbol text).Written :=
  .other ⟨_, first⟩ (by simp [Lexeme.symbol])

/-- Is this piece a name, a number or a string? -/
def Piece.isWord : Piece → Bool
  | blank => false
  | lexeme l => l.kind ∈ [Kind.symbol, .number, .string]

/-- May `b` stand right behind `a`? Two words do not touch, and a name comes behind a
    point. -/
def Piece.Fits (a b : Piece) : Prop :=
  (a.isWord = true → b.isWord = false) ∧ (a = operator "." → ∃ name, b = symbol name)

/-- Pieces as trees are written with them. -/
structure Tidy (ps : List Piece) : Prop where
  written : ∀ l ∈ lexemes ps, l.Written
  fits : ps.IsChain Fits
  ends : ∃ a ∈ ps.getLast?, a ≠ operator "."

/-- No word comes first. -/
def SoftStart (ps : List Piece) : Prop :=
  ∀ a ∈ ps.head?, a.isWord = false

/-- No word comes last. -/
def SoftEnd (ps : List Piece) : Prop :=
  ∀ a ∈ ps.getLast?, a.isWord = false

namespace Tidy

variable {ps qs sep : List Piece}

theorem ne_nil (h : Tidy ps) : ps ≠ [] := by
  rintro rfl
  obtain ⟨a, absurd, -⟩ := h.ends
  cases absurd

theorem append (first : Tidy ps) (second : Tidy qs) (soft : SoftEnd ps ∨ SoftStart qs) :
    Tidy (ps ++ qs) := by
  refine ⟨?_, ?_, ?_⟩
  · rw [lexemes_append]
    exact List.forall_mem_append.mpr ⟨first.written, second.written⟩
  · refine first.fits.append second.fits ?_
    intro a last b next
    obtain ⟨a', last', notPoint⟩ := first.ends
    cases last.symm.trans last'
    refine ⟨fun word => ?_, fun point => absurd point notPoint⟩
    obtain softEnd | softStart := soft
    · rw [softEnd a last] at word
      cases word
    · exact softStart b next
  · obtain ⟨b, last, notPoint⟩ := second.ends
    exact ⟨b, by rw [List.getLast?_append_of_ne_nil _ second.ne_nil]; exact last, notPoint⟩

theorem softEnd_append (h : Tidy qs) (soft : SoftEnd qs) : SoftEnd (ps ++ qs) := by
  rw [SoftEnd, List.getLast?_append_of_ne_nil _ h.ne_nil]
  exact soft

/-- Two rows with something in between that touches neither. -/
theorem join (first : Tidy ps) (between : Tidy sep) (softStart : SoftStart sep)
    (softEnd : SoftEnd sep) (second : Tidy qs) : Tidy (ps ++ sep ++ qs) :=
  (first.append between (.inr softStart)).append second
    (.inl (between.softEnd_append softEnd))

theorem lexeme {l : Lexeme} (written : l.Written) (notPoint : l ≠ .operator ".") :
    Tidy [.lexeme l] := by
  refine ⟨by simpa using written, .singleton _, _, rfl, ?_⟩
  simpa [Piece.operator] using notPoint

theorem separator {c : Char} (isSeparator : CharClass.isSeparator c = true) :
    Tidy [Piece.separator c] :=
  lexeme (.separator isSeparator) (by simp [Lexeme.separator, Lexeme.operator])

theorem operator {text : String} (mem : text ∈ operatorSpellings) (notPoint : text ≠ ".") :
    Tidy [Piece.operator text] :=
  lexeme (.operator mem) (by simpa [Lexeme.operator] using notPoint)

theorem blank : Tidy [Piece.blank] :=
  ⟨by simp, .singleton _, _, rfl, by simp [Piece.operator]⟩

/-- Blanks at either end do not matter. -/
theorem cons_blank (h : Tidy ps) : Tidy (.blank :: ps) :=
  blank.append h (.inl (by simp [SoftEnd, isWord]))

theorem append_blank (h : Tidy ps) : Tidy (ps ++ [.blank]) :=
  h.append blank (.inr (by simp [SoftStart, isWord]))

theorem softStart_operator {text : String} : SoftStart (Piece.operator text :: ps) := by
  simp [SoftStart, isWord, Piece.operator, Lexeme.operator]

theorem softEnd_operator {text : String} : SoftEnd [Piece.operator text] := by
  simp [SoftEnd, isWord, Piece.operator, Lexeme.operator]

theorem softStart_separator {c : Char} : SoftStart (Piece.separator c :: ps) := by
  simp [SoftStart, isWord, Piece.separator, Lexeme.separator]

theorem softEnd_of_separator {c : Char} (last : ps.getLast? = some (Piece.separator c)) :
    SoftEnd ps := by
  simp [SoftEnd, last, isWord, Piece.separator, Lexeme.separator]

/-- Separators around a row, which may be empty. -/
theorem enclosed {c c' : Char} (opens : CharClass.isSeparator c = true)
    (closes : CharClass.isSeparator c' = true) (h : ps = [] ∨ Tidy ps) :
    Tidy (Piece.separator c :: ps ++ [Piece.separator c']) := by
  have opening := separator opens
  have closing := separator closes
  obtain rfl | h := h
  · exact opening.append closing (.inr softStart_separator)
  · refine (opening.append h (.inl ?_)).append closing (.inr softStart_separator)
    simp [SoftEnd, isWord, Piece.separator, Lexeme.separator]

theorem parenthesized (h : ps = [] ∨ Tidy ps) : Tidy (Piece.parenthesized ps) :=
  enclosed (by decide) (by decide) h

theorem guarded (h : Tidy ps) (needed : Bool) : Tidy (Piece.guarded needed ps) := by
  cases needed
  · exact h
  · exact parenthesized (.inr h)

theorem notPoint_operatorWords : ∀ text ∈ operatorWords, operatorLexeme text ≠ .operator "." := by
  decide +kernel

theorem word {l : Lexeme} (written : l.Written) (kind : l.kind = .symbol) : Tidy [.lexeme l] :=
  lexeme written (by rintro rfl; cases kind)

theorem between {text : String} (mem : text ∈ operatorWords) :
    Tidy (Piece.between text) ∧ SoftStart (Piece.between text) ∧ SoftEnd (Piece.between text) := by
  have tidy := lexeme (written_operatorLexeme mem) (notPoint_operatorWords text mem)
  simp only [Piece.between]
  split
  · refine ⟨tidy.append_blank.cons_blank, ?_, ?_⟩
    · simp [SoftStart, isWord]
    · simp [SoftEnd, isWord]
  · next other =>
      obtain ⟨same, -⟩ | ⟨same, -⟩ := written_operatorWords text mem
      · rw [same] at tidy ⊢
        exact ⟨tidy, softStart_operator, softEnd_operator⟩
      · exact absurd (congrArg Lexeme.kind same) other

theorem before {text : String} (mem : text ∈ operatorWords) :
    Tidy (Piece.before text) ∧ SoftEnd (Piece.before text) := by
  have tidy := lexeme (written_operatorLexeme mem) (notPoint_operatorWords text mem)
  simp only [Piece.before]
  split
  · exact ⟨tidy.append_blank, by simp [SoftEnd, isWord]⟩
  · next other =>
      obtain ⟨same, -⟩ | ⟨same, -⟩ := written_operatorWords text mem
      · rw [same] at tidy ⊢
        exact ⟨tidy, softEnd_operator⟩
      · exact absurd (congrArg Lexeme.kind same) other

theorem comma : Tidy [Piece.operator ","] :=
  operator (mem_operatorSpellings _ (by decide)) (by decide)

/-- A row of expressions with something in between that touches none of them. -/
theorem itemPieces (between : Tidy sep) (softStart : SoftStart sep) (softEnd : SoftEnd sep) :
    ∀ {ns : List Node}, ns ≠ [] → (∀ n ∈ ns, Tidy n.pieces) → Tidy (Node.itemPieces [] sep ns)
  | [n], _, all => by
      simpa [Node.itemPieces] using (all n (by simp)).guarded n.isCommaLoose
  | n :: m :: rest, _, all => by
      have first := (all n (by simp)).guarded n.isCommaLoose
      have others := itemPieces between softStart softEnd (List.cons_ne_nil m rest)
        fun k mem => all k (.tail _ mem)
      have joined := first.join between softStart softEnd others
      simpa [Node.itemPieces] using joined

/-! ### Nodes -/

variable {n : Node}

theorem binary {op : BinaryOp} {n m : Node} {place : Location} (left : Tidy n.pieces)
    (right : Tidy m.pieces) : Tidy (Node.binary op n m place).pieces := by
  obtain ⟨tidy, softStart, softEnd⟩ := Tidy.between op.symbol_mem_operatorWords
  exact (left.guarded _).join tidy softStart softEnd (right.guarded _)

theorem prefixed {op : PrefixOp} {place : Location} (operand : Tidy n.pieces) :
    Tidy (Node.prefixed op n place).pieces := by
  obtain ⟨tidy, softEnd⟩ := Tidy.before op.symbol_mem_operatorWords
  rw [Node.pieces]
  exact tidy.append (operand.guarded _) (.inl softEnd)

theorem mem_operatorSpellings_step (op : Step) :
    op.symbol ∈ operatorSpellings ∧ op.symbol ≠ "." := by
  cases op <;> exact ⟨mem_operatorSpellings _ (by decide), by decide⟩

theorem postfixed {op : Step} {place : Location} (operand : Tidy n.pieces) :
    Tidy (Node.postfixed op n place).pieces := by
  obtain ⟨mem, notPoint⟩ := mem_operatorSpellings_step op
  rw [Node.pieces]
  exact (operand.guarded _).append (.operator mem notPoint) (.inr softStart_operator)

theorem ternary {y z : Node} {place : Location} (condition : Tidy n.pieces)
    (yes : Tidy y.pieces) (no : Tidy z.pieces) : Tidy (Node.ternary n y z place).pieces := by
  have question : Tidy [Piece.operator "?"] :=
    .operator (mem_operatorSpellings _ (by decide)) (by decide)
  have colon : Tidy [Piece.operator ":"] :=
    .operator (mem_operatorSpellings _ (by decide)) (by decide)
  have chosen := (yes.guarded (decide (y.precedence > Precedence.conditional))).join colon
    softStart_operator softEnd_operator
    (no.guarded (decide (z.precedence > Precedence.conditional)))
  have all := (condition.guarded (decide (n.precedence ≥ Precedence.conditional))).join question
    softStart_operator softEnd_operator chosen
  simpa [Node.pieces] using all

theorem call {args : List Node} {place : Location} (callee : Tidy n.pieces)
    (all : ∀ a ∈ args, Tidy a.pieces) : Tidy (Node.call n args place).pieces := by
  have spaced : Tidy [Piece.operator ",", .blank] := comma.append_blank
  have items : Node.itemPieces [] [Piece.operator ",", .blank] args = [] ∨
      Tidy (Node.itemPieces [] [Piece.operator ",", .blank] args) := by
    by_cases none : args = []
    · exact .inl (by rw [none, Node.itemPieces])
    · exact .inr (.itemPieces spaced softStart_operator (by simp [SoftEnd, isWord]) none all)
  rw [Node.pieces]
  exact (callee.guarded _).append (.parenthesized items) (.inr softStart_separator)

theorem mem_operatorSpellings_access (op : AccessOp) (named : op ≠ .index) :
    op.symbol ∈ operatorSpellings ∧ op.piece = Piece.operator op.symbol := by
  cases op with
  | index => exact absurd rfl named
  | _ => exact ⟨mem_operatorSpellings _ (by decide), rfl⟩

theorem member {op : AccessOp} {name : String} {place place' : Location}
    (object : Tidy n.pieces) (named : op ≠ .index) (written : (Lexeme.symbol name).Written) :
    Tidy (Node.access op n (.symbol name place') place).pieces := by
  obtain ⟨mem, piece⟩ := mem_operatorSpellings_access op named
  have reached : Tidy [Piece.operator op.symbol, Piece.symbol name] := by
    refine ⟨?_, .cons_cons ?_ (.singleton _), _, rfl, nofun⟩
    · simpa using ⟨.operator mem, written⟩
    · exact ⟨by simp [isWord, Piece.operator, Lexeme.operator], fun _ => ⟨name, rfl⟩⟩
  rw [Node.pieces, if_neg named, List.append_nil, piece, Node.pieces]
  exact (object.guarded _).append reached (.inr softStart_operator)

theorem index {m : Node} {place : Location} (object : Tidy n.pieces)
    (property : Tidy m.pieces) : Tidy (Node.access .index n m place).pieces := by
  have reached : Tidy (Piece.separator '[' :: m.pieces ++ [Piece.separator ']']) :=
    enclosed (by decide) (by decide) (.inr property)
  rw [Node.pieces, if_pos rfl, List.append_assoc]
  exact (object.guarded _).append reached (.inr softStart_separator)

theorem enclose {place : Location} (inside : Tidy n.pieces) :
    Tidy (Grammar.enclose place n).pieces := by
  unfold Grammar.enclose
  split
  · exact inside
  · rw [Node.pieces]
    exact .parenthesized (.inr inside)

end Tidy

namespace Grammar

open Parse

variable {d : Nat} {X : Phrase} {ts : List Token} {n : Node}

/-- What a phrase is written with is tidy; of a list, the single expressions are. -/
def TidyPhrase : Phrase → Node → Prop
  | .list, .comma ns _ => ns ≠ [] ∧ ∀ n ∈ ns, Tidy n.pieces
  | .list, _ => False
  | _, n => Tidy n.pieces

theorem written_of_isName {t : Token} (lexical : t.Lexical) (isName : isName t = true) :
    (Lexeme.symbol t.text).Written := by
  have kind : t.kind = .symbol := by
    simp only [Parse.isName, Bool.and_eq_true, decide_eq_true_eq] at isName
    exact isName.1
  have same : t.toLexeme = .symbol t.text := Lexeme.eq_iff.mpr ⟨kind, rfl⟩
  rw [← same]
  exact .other lexical (by simp [kind])

/-- What a derived tree is written with is tidy. -/
theorem Derives.tidy (h : Derives false d X ts n) (lexical : ∀ t ∈ ts, t.Lexical) :
    TidyPhrase X n := by
  induction h with
  | single _ ih | unassigned _ ih | unconditional _ ih | unjoined _ ih | tighter _ ih
  | unprefixed _ ih | unstepped _ ih | uncalled _ ih | reached _ ih | bare _ ih => exact ih lexical
  | several _ _ ih =>
      obtain ⟨some_item, all⟩ := ih lexical
      simp only [TidyPhrase, Node.pieces]
      exact Tidy.itemPieces .comma Tidy.softStart_operator Tidy.softEnd_operator some_item all
  | first _ ih => exact ⟨by simp, List.forall_mem_singleton.mpr (ih lexical)⟩
  | further _ _ _ ihs ih =>
      simp only [List.forall_mem_append, List.forall_mem_cons] at lexical
      obtain ⟨-, all⟩ := ihs lexical.1
      refine ⟨by simp, List.forall_mem_append.mpr ⟨all, ?_⟩⟩
      exact List.forall_mem_singleton.mpr (ih lexical.2.2)
  | assigned _ _ _ _ ihl ihr | default _ _ _ _ ihl ihr | joined _ _ _ _ ihl ihr =>
      simp only [List.forall_mem_append, List.forall_mem_cons] at lexical
      exact Tidy.binary (ihl lexical.1) (ihr lexical.2.2)
  | ternary _ _ _ _ _ ihc ihy ihn =>
      simp only [List.forall_mem_append, List.forall_mem_cons] at lexical
      exact Tidy.ternary (ihc lexical.1.1) (ihy lexical.1.2.2) (ihn lexical.2.2)
  | prefixed _ _ _ ih | steppedBefore _ _ _ ih | new _ _ ih =>
      exact Tidy.prefixed (ih (List.forall_mem_cons.mp lexical).2)
  | steppedBehind _ _ ih => exact Tidy.postfixed (ih (List.forall_mem_append.mp lexical).1)
  | calledEmpty _ _ _ ih => exact Tidy.call (ih (List.forall_mem_append.mp lexical).1) (by simp)
  | called _ _ _ _ ihc iha =>
      simp only [List.forall_mem_append, List.forall_mem_cons] at lexical
      exact Tidy.call (ihc lexical.1.1) (iha lexical.1.2.2).2
  | member takes _ _ _ named isName ih =>
      simp only [List.forall_mem_append, List.forall_mem_cons] at lexical
      have written := written_of_isName lexical.2.2.1 isName
      obtain rfl | rfl := takes <;> exact Tidy.member (ih lexical.1) named written
  | index takes _ _ _ _ _ iho ihp =>
      simp only [List.forall_mem_append, List.forall_mem_cons] at lexical
      obtain rfl | rfl := takes <;> exact Tidy.index (iho lexical.1.1) (ihp lexical.1.2.2)
  | paren _ _ _ ih =>
      simp only [List.cons_append, List.forall_mem_append, List.forall_mem_cons] at lexical
      exact Tidy.enclose (ih lexical.2.1)
  | @number d t kind | @string d t kind =>
      simp only [TidyPhrase, Node.pieces, ← kind]
      exact Tidy.lexeme (.other (lexical t (by simp)) (by simp [kind])) (by simp [Lexeme.operator, kind])
  | @name d t isName =>
      have written := written_of_isName (lexical t (by simp)) isName
      simp only [TidyPhrase, Node.pieces]
      exact Tidy.word written rfl

/-! ### Statements -/

/-- What a statement is written with is tidy and ends with no word. -/
structure TidyStatement (ps : List Piece) : Prop extends Tidy ps where
  softEnd : SoftEnd ps

theorem TidyStatement.append {ps qs : List Piece} (first : Tidy ps) (second : TidyStatement qs)
    (soft : SoftEnd ps ∨ SoftStart qs) : TidyStatement (ps ++ qs) :=
  ⟨first.append second.toTidy soft, second.softEnd_append second.softEnd⟩

/-- A row with a semicolon behind it. -/
theorem TidyStatement.semicolon {ps : List Piece} (h : Tidy ps) :
    TidyStatement (ps ++ [Piece.separator ';']) :=
  ⟨h.append (.separator (by decide)) (.inr Tidy.softStart_separator),
    Tidy.softEnd_of_separator List.getLast?_concat⟩

/-- What a form is written with is tidy; of a body, the single statements are. -/
def TidyForm : Form → Node → Prop
  | .statement, n | .arms, n => TidyStatement n.pieces
  | .body, .block ns _ => ∀ n ∈ ns, TidyStatement n.pieces
  | .declarations, .var xs _ => Tidy (Node.declaratorPieces [] xs)
  | _, _ => False

theorem tidy_bodyPieces {ns : List Node} (all : ∀ n ∈ ns, TidyStatement n.pieces) :
    Node.bodyPieces ns = [] ∨ Tidy (Node.bodyPieces ns) := by
  induction ns with
  | nil => exact .inl rfl
  | cons n ns ih =>
      obtain ⟨first, others⟩ := List.forall_mem_cons.mp all
      right
      rw [Node.bodyPieces]
      obtain nothing | rest := ih others
      · rw [nothing]
        exact first.append_blank
      · exact first.toTidy.append rest.cons_blank (.inl first.softEnd)

theorem tidy_declares {x : Declarator Node} (h : Declares d ts x)
    (lexical : ∀ t ∈ ts, t.Lexical) :
    Tidy (Piece.symbol x.name :: Node.valuePieces x.value) := by
  cases h with
  | bare isName => exact .word (written_of_isName (lexical _ (by simp)) isName) rfl
  | valued isName _ value =>
      simp only [List.forall_mem_cons] at lexical
      have name := Tidy.word (written_of_isName lexical.1 isName) rfl
      have sign : Tidy [.blank, Piece.operator "=", .blank] :=
        (Tidy.operator (mem_operatorSpellings _ (by decide)) (by decide)).append_blank.cons_blank
      have tidy : Tidy _ := value.tidy lexical.2.2
      exact name.join sign (by simp [SoftStart, isWord]) (by simp [SoftEnd, isWord]) (tidy.guarded _)

theorem tidy_words (word : BranchWord) : Tidy word.pieces := by
  have single : ∀ text ∈ ["if", "else", "elseif", "elsif"], Tidy [Piece.symbol text] := by
    intro text mem
    have first : ∀ text ∈ ["if", "else", "elseif", "elsif"],
        Lexeme.first? text.toList = some (.symbol, text.toList) := by decide
    exact .word (written_symbol (first text mem)) rfl
  cases word with
  | elseIf =>
      exact (single "else" (by decide)).append_blank.append (single "if" (by decide))
        (.inl (by simp [SoftEnd, isWord]))
  | _ => exact single _ (by decide)

theorem tidy_branch {word : BranchWord} {condition : Option Node}
    (conditions : Node.conditionPieces condition = [] ∨ Tidy (Node.conditionPieces condition))
    (body : TidyStatement n.pieces) :
    TidyStatement (Node.branchPieces [] [⟨word, condition, n⟩]) := by
  have rest : TidyStatement (Node.conditionPieces condition ++ .blank :: n.pieces) := by
    have governed := TidyStatement.append .blank body (.inl (by simp [SoftEnd, isWord]))
    obtain nothing | tidy := conditions
    · rw [nothing]
      exact governed
    · exact .append tidy governed (.inr (by simp [SoftStart, isWord]))
  have soft : SoftStart (Node.conditionPieces condition ++ .blank :: n.pieces) := by
    cases condition <;> simp [Node.conditionPieces, SoftStart, isWord]
  rw [Node.branchPieces_cons, Node.branchPieces_nil, List.append_nil, List.nil_append]
  exact .append (tidy_words word) rest (.inr soft)

theorem tidy_conditions {c : Node} (h : Conditions d ts c) (lexical : ∀ t ∈ ts, t.Lexical) :
    Tidy (Node.conditionPieces (some c)) := by
  obtain ⟨_, inside, _⟩ := h
  simp only [List.cons_append, List.forall_mem_append, List.forall_mem_cons] at lexical
  have tidy : Tidy c.pieces := inside.tidy lexical.2.1
  exact (Tidy.parenthesized (.inr tidy)).cons_blank

theorem tidy_appended_branch {first b : Branch Node} {others : List (Branch Node)}
    {place : Location} (arms : TidyStatement (Node.chain (first :: others) place).pieces)
    (last : TidyStatement (Node.branchPieces [] [b])) :
    TidyStatement (Node.chain (first :: others ++ [b]) place).pieces := by
  have blanks : Node.branchPieces [.blank] [b] = .blank :: Node.branchPieces [] [b] := by
    simp [Node.branchPieces_cons]
  rw [Node.pieces] at arms ⊢
  rw [Node.branchPieces_append, blanks]
  have spaced : TidyStatement ([.blank] ++ Node.branchPieces [] [b]) :=
    .append .blank last (.inl (by simp [SoftEnd, isWord]))
  exact .append arms.toTidy spaced (.inl arms.softEnd)

/-- What a statement is written with is tidy. -/
theorem States.tidy {strict : Bool} {X : Form} (h : States strict d X ts n)
    (lexical : ∀ t ∈ ts, t.Lexical) : TidyForm X n := by
  induction h with
  | empty =>
      simp only [TidyForm, Node.pieces]
      exact ⟨.separator (by decide), Tidy.softEnd_of_separator rfl⟩
  | block _ _ _ ih =>
      simp only [List.cons_append, List.forall_mem_append, List.forall_mem_cons] at lexical
      simp only [TidyForm, Node.pieces]
      exact ⟨.enclosed (by decide) (by decide) (tidy_bodyPieces (ih lexical.2.1)),
        Tidy.softEnd_of_separator List.getLast?_concat⟩
  | none => simp [TidyForm]
  | next _ _ ihs ih =>
      simp only [List.forall_mem_append] at lexical
      exact List.forall_mem_append.mpr
        ⟨ihs lexical.1, List.forall_mem_singleton.mpr (ih lexical.2)⟩
  | var _ _ _ ih =>
      simp only [List.cons_append, List.forall_mem_append, List.forall_mem_cons] at lexical
      have word : Tidy [Piece.symbol "var"] := .word (written_symbol (by decide)) rfl
      simp only [TidyForm, Node.pieces]
      exact .semicolon (word.append_blank.append (ih lexical.2.1)
        (.inl (by simp [SoftEnd, isWord])))
  | declared item =>
      simp only [TidyForm, Node.declaratorPieces_cons, Node.declaratorPieces_nil, List.append_nil,
        List.nil_append]
      exact tidy_declares item lexical
  | alsoDeclared items _ item ih =>
      simp only [List.forall_mem_append, List.forall_mem_cons] at lexical
      obtain ⟨first, others, _, same⟩ := items.declarations_shape
      cases same
      have comma : Tidy [Piece.operator ",", .blank] := Tidy.comma.append_blank
      have tidy : Tidy (Node.declaratorPieces [] (first :: others)) := ih lexical.1
      have joined := tidy.join comma Tidy.softStart_operator (by simp [SoftEnd, isWord])
        (tidy_declares item lexical.2.2)
      rw [TidyForm, Node.declaratorPieces_append, Node.declaratorPieces_cons _ _ [],
        Node.declaratorPieces_nil, List.append_nil, ← List.append_assoc]
      exact joined
  | ifArm _ condition _ ih =>
      simp only [List.cons_append, List.forall_mem_append, List.forall_mem_cons] at lexical
      simp only [TidyForm, Node.pieces]
      exact tidy_branch (.inr (tidy_conditions condition lexical.2.1)) (ih lexical.2.2)
  | elseArm arms _ _ _ condition _ iha ihb =>
      simp only [List.forall_mem_append] at lexical
      obtain ⟨first, others, _, same⟩ := arms.arms_shape
      cases same
      exact tidy_appended_branch (iha lexical.1)
        (tidy_branch (.inr (tidy_conditions condition lexical.2.1.2)) (ihb lexical.2.2))
  | armed _ ih => exact ih lexical
  | otherwise arms _ _ _ _ iha ihb =>
      simp only [List.forall_mem_append, List.forall_mem_cons] at lexical
      obtain ⟨first, others, _, same⟩ := arms.arms_shape
      cases same
      exact tidy_appended_branch (iha lexical.1) (tidy_branch (.inl rfl) (ihb lexical.2.2))
  | expression value _ =>
      simp only [List.forall_mem_append] at lexical
      have tidy : Tidy _ := value.tidy lexical.1
      simp only [TidyForm, Node.pieces]
      exact .semicolon tidy

end Grammar

end Scriptlet
