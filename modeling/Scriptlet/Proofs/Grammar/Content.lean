import Scriptlet.Proofs.Grammar.Written

/-! # Trees are written with the tokens they come from

A written tree has the tokens that it was derived from, in the same order, apart from
semicolons and parentheses: these can be left out, and are put in where they are needed.
-/

namespace Scriptlet

open CharClass

namespace Lexeme

/-- The separators that a tree does not keep: it has its own parentheses, and a semicolon
    behind every statement. -/
def isLoose (l : Lexeme) : Bool :=
  l.kind = .separator && [";", "(", ")"].contains l.text

/-- The lexemes that a tree keeps. -/
def firm (ls : List Lexeme) : List Lexeme :=
  ls.filter (!·.isLoose)

/-- The lexemes that are no separators. -/
def content (ls : List Lexeme) : List Lexeme :=
  ls.filter (·.kind ≠ .separator)

@[simp] theorem firm_nil : firm [] = [] := rfl

@[simp] theorem firm_append (ls ms : List Lexeme) : firm (ls ++ ms) = firm ls ++ firm ms :=
  List.filter_append ls ms

theorem content_append (ls ms : List Lexeme) : content (ls ++ ms) = content ls ++ content ms :=
  List.filter_append ls ms

@[simp] theorem firm_symbol (text : String) (ls : List Lexeme) :
    firm (.symbol text :: ls) = .symbol text :: firm ls := rfl

/-- A lexeme that is no separator is firm. -/
theorem content_firm (ls : List Lexeme) : content (firm ls) = content ls := by
  rw [content, firm, List.filter_filter, content]
  refine List.filter_congr fun l _ => ?_
  by_cases separator : l.kind = .separator <;> simp [isLoose, separator]

end Lexeme

/-- The firm lexemes of a row of tokens. -/
def Token.firm (ts : List Token) : List Lexeme :=
  Lexeme.firm (ts.map (·.toLexeme))

/-- The content of a row of tokens. -/
def Token.content (ts : List Token) : List Lexeme :=
  Lexeme.content (ts.map (·.toLexeme))

/-- The firm lexemes of a row of pieces. -/
def Piece.firm (ps : List Piece) : List Lexeme :=
  Lexeme.firm (Piece.lexemes ps)

namespace Token

@[simp] theorem firm_nil : firm [] = [] := rfl

@[simp] theorem firm_append (ts us : List Token) : firm (ts ++ us) = firm ts ++ firm us := by
  simp [firm]

theorem firm_cons {t : Token} {l : Lexeme} (same : t.toLexeme = l) (ts : List Token) :
    firm (t :: ts) = Lexeme.firm [l] ++ firm ts := by
  rw [← same]
  exact firm_append [t] ts

theorem firm_operator {t : Token} {text : String} (h : t.isOperator text = true)
    (ts : List Token) : firm (t :: ts) = .operator text :: firm ts :=
  firm_cons (beq_iff_eq.mp h) ts

theorem firm_symbol {t : Token} {text : String} (h : t.isSymbol text = true)
    (ts : List Token) : firm (t :: ts) = .symbol text :: firm ts :=
  firm_cons (beq_iff_eq.mp h) ts

theorem firm_separator {t : Token} {c : Char} (h : t.isSeparator c = true)
    (ts : List Token) : firm (t :: ts) = Lexeme.firm [.separator c] ++ firm ts :=
  firm_cons (beq_iff_eq.mp h) ts

end Token

namespace Piece

@[simp] theorem firm_nil : firm [] = [] := rfl

@[simp] theorem firm_append (ps qs : List Piece) : firm (ps ++ qs) = firm ps ++ firm qs := by
  simp [firm]

@[simp] theorem firm_blank (ps : List Piece) : firm (blank :: ps) = firm ps := rfl

theorem firm_lexeme (l : Lexeme) (ps : List Piece) :
    firm (lexeme l :: ps) = Lexeme.firm [l] ++ firm ps :=
  firm_append [lexeme l] ps

theorem firm_separator (c : Char) (ps : List Piece) :
    firm (separator c :: ps) = Lexeme.firm [.separator c] ++ firm ps :=
  firm_lexeme _ ps

@[simp] theorem firm_semicolon (ps : List Piece) : firm (separator ';' :: ps) = firm ps :=
  firm_separator ';' ps

@[simp] theorem firm_operator (text : String) (ps : List Piece) :
    firm (operator text :: ps) = .operator text :: firm ps := rfl

@[simp] theorem firm_symbol (text : String) (ps : List Piece) :
    firm (symbol text :: ps) = .symbol text :: firm ps := rfl

@[simp] theorem firm_parenthesized (ps : List Piece) : firm (parenthesized ps) = firm ps := by
  have closing : firm [separator ')'] = [] := rfl
  have opening : firm (separator '(' :: ps) = firm ps := firm_separator '(' ps
  rw [parenthesized, firm_append, opening, closing, List.append_nil]

@[simp] theorem firm_guarded (needed : Bool) (ps : List Piece) :
    firm (guarded needed ps) = firm ps := by
  cases needed
  · rfl
  · exact firm_parenthesized ps

@[simp] theorem firm_between (text : String) :
    firm (between text) = Lexeme.firm [operatorLexeme text] := by
  simp [firm]

@[simp] theorem firm_before (text : String) :
    firm (before text) = Lexeme.firm [operatorLexeme text] := by
  simp [firm]

end Piece

namespace Node

open Piece

/-- An expression behind those of a list adds its lexemes, and a comma in front of them. -/
theorem firm_itemPieces_append (lead sep : List Piece) (first : Node) (ns : List Node) (n : Node) :
    firm (itemPieces lead sep (first :: ns ++ [n])) =
      firm (itemPieces lead sep (first :: ns)) ++ firm sep ++ firm n.pieces := by
  induction ns generalizing lead first with
  | nil => simp [itemPieces]
  | cons second ns ih =>
      rw [List.cons_append, itemPieces, firm_append, ih sep second]
      simp [itemPieces]

/-- Blanks between the expressions of a list do not matter. -/
theorem firm_itemPieces {lead lead' sep sep' : List Piece} (leads : lexemes lead = lexemes lead')
    (seps : lexemes sep = lexemes sep') (ns : List Node) :
    firm (itemPieces lead sep ns) = firm (itemPieces lead' sep' ns) :=
  congrArg Lexeme.firm (lexemes_itemPieces leads seps ns)

end Node

theorem BranchWord.Introduces.firm {word : BranchWord} {ts : List Token}
    (h : word.Introduces ts) : Token.firm ts = Piece.firm word.pieces :=
  congrArg Lexeme.firm h

/-! ## Tokens of operators -/

theorem startsSymbol_operatorWords : ∀ text ∈ operatorWords,
    text.toList.head?.any startsSymbol = text.toList.head?.any Char.isAlpha := by
  decide +kernel

/-- Only one class of lexemes can spell an operator. -/
theorem toLexeme_of_spells {t : Token} {text : String} (lexical : t.Lexical)
    (spelled : t.Spells text) (mem : text ∈ operatorWords) : t.toLexeme = operatorLexeme text := by
  have agree := startsSymbol_operatorWords text mem
  obtain ⟨c, head, -, symbol⟩ := lexical.head
  obtain ⟨kind, rfl⟩ := spelled
  rw [Option.mem_def.mp head, Option.any_some, Option.any_some] at agree
  rw [operatorLexeme, Option.mem_def.mp head, Option.any_some, ← agree, Lexeme.eq_iff]
  split
  · next starts => exact ⟨symbol.mpr starts, rfl⟩
  · next starts => exact ⟨kind.resolve_right (mt symbol.mp starts), rfl⟩

theorem isSeparator_head_symbol (op : AccessOp) :
    op.symbol.toList.head?.any isSeparator = (op = .index) := by
  cases op <;> decide

theorem lexeme_of_opens {t : Token} {op : AccessOp} (lexical : t.Lexical) (opens : t.Opens op) :
    Piece.lexeme t.toLexeme = op.piece := by
  obtain ⟨c, head, separator, -⟩ := lexical.head
  obtain ⟨kind, found⟩ := opens
  have text := AccessOp.symbol_of_ofSymbol? found
  have index : t.kind = .separator ↔ op = .index := by
    rw [separator, ← isSeparator_head_symbol op, ← text, Option.mem_def.mp head, Option.any_some]
  cases op with
  | index => exact congrArg Piece.lexeme (Lexeme.eq_iff.mpr ⟨index.mpr rfl, text⟩)
  | _ =>
      have isOperator := kind.resolve_right (mt index.mp nofun)
      exact congrArg Piece.lexeme (Lexeme.eq_iff.mpr ⟨isOperator, text⟩)

namespace Grammar

open Parse

variable {d : Nat} {X : Phrase} {ts : List Token} {n : Node}

theorem toLexeme_of_isName {t : Token} (named : isName t = true) : t.toLexeme = .symbol t.text := by
  simp only [isName, Bool.and_eq_true, decide_eq_true_eq] at named
  exact Lexeme.eq_iff.mpr ⟨named.1, rfl⟩

theorem firm_enclose (place : Location) (n : Node) :
    Piece.firm (enclose place n).pieces = Piece.firm n.pieces := by
  unfold enclose
  split
  · simp [Node.pieces]
  · simp [Node.pieces]

theorem firm_open {t : Token} (opens : t.isSeparator '(' = true) (ts : List Token) :
    Token.firm (t :: ts) = Token.firm ts :=
  Token.firm_separator opens ts

theorem firm_close {t : Token} (closes : t.isSeparator ')' = true) : Token.firm [t] = [] :=
  Token.firm_separator closes []

/-- A derived tree is written with the firm lexemes that it comes from. -/
theorem Derives.firm (h : Derives false d X ts n) (lexical : ∀ t ∈ ts, t.Lexical) :
    Token.firm ts = Piece.firm n.pieces := by
  induction h with
  | single _ ih | unassigned _ ih | unconditional _ ih | unjoined _ ih | tighter _ ih
  | unprefixed _ ih | unstepped _ ih | uncalled _ ih | reached _ ih | bare _ ih
  | several _ _ ih => exact ih lexical
  | first _ ih =>
      rw [ih lexical]
      simp [Node.pieces, Node.itemPieces]
  | further items separated _ ihs ih =>
      simp only [List.forall_mem_append, List.forall_mem_cons] at lexical
      obtain ⟨first, others, _, shape⟩ := items.list_shape
      cases shape
      rw [Token.firm_append, Token.firm_operator separated, ihs lexical.1, ih lexical.2.2]
      simp only [Node.pieces, Node.firm_itemPieces_append]
      simp
  | assigned _ _ spelled _ ihl ihr | default _ _ spelled _ ihl ihr
  | joined _ _ spelled _ ihl ihr =>
      simp only [List.forall_mem_append, List.forall_mem_cons] at lexical
      have sign := toLexeme_of_spells lexical.2.1 spelled (BinaryOp.symbol_mem_operatorWords _)
      rw [Token.firm_append, Token.firm_cons sign, ihl lexical.1, ihr lexical.2.2]
      simp [Node.pieces]
  | ternary _ asked _ divided _ ihc ihy ihn =>
      simp only [List.forall_mem_append, List.forall_mem_cons] at lexical
      simp [Token.firm_operator asked, Token.firm_operator divided, ihc lexical.1.1,
        ihy lexical.1.2.2, ihn lexical.2.2, Node.pieces]
  | prefixed _ spelled _ ih | steppedBefore _ spelled _ ih =>
      simp only [List.forall_mem_cons] at lexical
      have sign := toLexeme_of_spells lexical.1 spelled (PrefixOp.symbol_mem_operatorWords _)
      rw [Token.firm_cons sign, ih lexical.2]
      simp [Node.pieces]
  | new word _ ih =>
      simp only [List.forall_mem_cons] at lexical
      rw [Token.firm_cons (beq_iff_eq.mp word), ih lexical.2]
      simp [Node.pieces, PrefixOp.symbol, operatorLexeme]
  | steppedBehind _ spelled ih =>
      simp only [List.forall_mem_append] at lexical
      rw [Token.firm_append, Token.firm_operator spelled, ih lexical.1]
      simp [Node.pieces]
  | calledEmpty _ opens closes ih =>
      simp only [List.forall_mem_append] at lexical
      rw [Token.firm_append, firm_open opens, firm_close closes, ih lexical.1]
      simp [Node.pieces, Node.itemPieces]
  | called _ opens all closes ihc iha =>
      simp only [List.forall_mem_append, List.forall_mem_cons] at lexical
      have items := iha lexical.1.2.2
      have commas : Piece.lexemes [.operator ","] = Piece.lexemes [.operator ",", .blank] := rfl
      rw [Node.pieces, Node.firm_itemPieces rfl commas] at items
      simp [firm_open opens, firm_close closes, ihc lexical.1.1, items, Node.pieces]
  | member _ _ _ opens named isName ih =>
      simp only [List.forall_mem_append, List.forall_mem_cons] at lexical
      have piece := lexeme_of_opens lexical.2.1 opens
      rw [Token.firm_append, Token.firm_cons rfl, Token.firm_cons (toLexeme_of_isName isName),
        ih lexical.1]
      simp [Node.pieces, ← piece, named, Piece.firm_lexeme]
  | index _ _ _ opens _ closes iho ihp =>
      simp only [List.forall_mem_append, List.forall_mem_cons] at lexical
      have piece : Piece.lexeme _ = Piece.separator '[' := lexeme_of_opens lexical.1.2.1 opens
      simp [Token.firm_cons (Piece.lexeme.inj piece), Token.firm_separator closes, iho lexical.1.1,
        ihp lexical.1.2.2, Node.pieces, AccessOp.piece, Piece.firm_separator]
  | paren opens _ closes ih =>
      simp only [List.cons_append, List.forall_mem_append, List.forall_mem_cons] at lexical
      rw [List.cons_append, firm_open opens, Token.firm_append, firm_close closes, ih lexical.2.1,
        firm_enclose, List.append_nil]
  | number kind | string kind =>
      rw [Node.pieces, ← kind]
      rfl
  | name isName =>
      rw [Token.firm_cons (toLexeme_of_isName isName)]
      simp [Node.pieces]

/-! ## Parts of statements -/

theorem Ends.firm {ts : List Token} (h : Ends false ';' ts) : Token.firm ts = [] := by
  obtain ⟨t, rfl, separator⟩ | ⟨-, rfl⟩ := h
  · exact Token.firm_separator separator []
  · rfl

theorem Declares.firm {x : Declarator Node} (h : Declares d ts x)
    (lexical : ∀ t ∈ ts, t.Lexical) :
    Token.firm ts = Piece.firm (Piece.symbol x.name :: Node.valuePieces x.value) := by
  cases h with
  | bare named => exact Token.firm_cons (toLexeme_of_isName named) []
  | valued named assigned value =>
      simp only [List.forall_mem_cons] at lexical
      rw [Token.firm_cons (toLexeme_of_isName named), Token.firm_operator assigned,
        value.firm lexical.2.2]
      simp [Node.valuePieces]

theorem Conditions.firm {c : Node} (h : Conditions d ts c) (lexical : ∀ t ∈ ts, t.Lexical) :
    Token.firm ts = Piece.firm (Node.conditionPieces (some c)) := by
  obtain ⟨opens, inside, closes⟩ := h
  simp only [List.cons_append, List.forall_mem_append, List.forall_mem_cons] at lexical
  rw [List.cons_append, firm_open opens, Token.firm_append, firm_close closes,
    inside.firm lexical.2.1]
  simp [Node.conditionPieces]

end Grammar

end Scriptlet
