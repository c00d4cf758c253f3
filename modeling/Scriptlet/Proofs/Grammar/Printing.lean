import Scriptlet.Proofs.Grammar.Precedence
import Scriptlet.Proofs.Lexeme
import Scriptlet.Proofs.Operator
import Scriptlet.Proofs.Node.Pieces
import Scriptlet.Proofs.Node.Unplaced

/-! # Written expressions derive their trees again

No operand of a derived tree is loose enough to be put in parentheses when the tree is
written. So the tokens that the tree is written with are put together as the tokens it
was derived from, and derive the same tree, apart from places, in the same phrase and with
the same levels of nesting. Only parentheses around parentheses are gone.
-/

namespace Scriptlet

theorem spells_of_toLexeme {t : Token} {text : String} (same : t.toLexeme = operatorLexeme text) :
    t.Spells text := by
  unfold operatorLexeme at same
  split at same <;> cases t <;> cases same
  · exact ⟨.inr rfl, rfl⟩
  · exact ⟨.inl rfl, rfl⟩

namespace Node

open Piece

theorem pieces_binary_left {op : BinaryOp} {lhs rhs : Node} {place : Location}
    (left : lhs.precedence ≤ op.precedence) (right : rhs.precedence < op.precedence)
    (groups : op.isRightAssociative = false) :
    (binary op lhs rhs place).pieces = lhs.pieces ++ between op.symbol ++ rhs.pieces := by
  have right_le := Nat.le_of_lt right
  have right_ne := beq_false_of_ne (Nat.ne_of_lt right)
  simp [pieces, groups, Nat.not_lt.mpr left, Nat.not_lt.mpr right_le, right_ne]

theorem pieces_binary_right {op : BinaryOp} {lhs rhs : Node} {place : Location}
    (left : lhs.precedence < op.precedence) (right : rhs.precedence ≤ op.precedence)
    (groups : op.isRightAssociative = true) :
    (binary op lhs rhs place).pieces = lhs.pieces ++ between op.symbol ++ rhs.pieces := by
  have left_le := Nat.le_of_lt left
  have left_ne := beq_false_of_ne (Nat.ne_of_lt left)
  simp [pieces, groups, Nat.not_lt.mpr left_le, left_ne, Nat.not_lt.mpr right]

theorem pieces_prefixed {op : PrefixOp} {operand : Node} {place : Location}
    (tight : operand.precedence ≤ op.operandLimit) :
    (prefixed op operand place).pieces = before op.symbol ++ operand.pieces := by
  simp [pieces, Nat.not_lt.mpr tight]

theorem pieces_postfixed {op : Step} {operand : Node} {place : Location}
    (tight : operand.precedence ≤ Precedence.call) :
    (postfixed op operand place).pieces = operand.pieces ++ [operator op.symbol] := by
  simp [pieces, Nat.not_lt.mpr tight]

theorem pieces_ternary {condition yes no : Node} {place : Location}
    (tight : condition.precedence < Precedence.conditional)
    (tightYes : yes.precedence ≤ Precedence.conditional)
    (tightNo : no.precedence ≤ Precedence.conditional) :
    (ternary condition yes no place).pieces =
      condition.pieces ++ operator "?" :: (yes.pieces ++ operator ":" :: no.pieces) := by
  simp [pieces, Nat.not_le.mpr tight, Nat.not_lt.mpr tightYes, Nat.not_lt.mpr tightNo]

theorem pieces_call {callee : Node} {args : List Node} {place : Location}
    (tight : callee.precedence ≤ Precedence.call) :
    (call callee args place).pieces =
      callee.pieces ++ parenthesized (itemPieces [] [operator ",", blank] args) := by
  simp [pieces, Nat.not_lt.mpr tight]

theorem pieces_access {op : AccessOp} {object property : Node} {place : Location}
    (notNew : object.isNew = false) (tight : object.precedence ≤ Precedence.call) :
    (access op object property place).pieces =
      object.pieces ++ op.piece :: (property.pieces ++ if op = .index then [separator ']'] else []) := by
  simp [pieces, notNew, Nat.not_lt.mpr tight]

/-- An expression behind those of a list is written behind them. -/
theorem itemPieces_append (lead sep : List Piece) (first : Node) (ns : List Node) (n : Node)
    (tight : n.isCommaLoose = false) :
    itemPieces lead sep (first :: ns ++ [n]) =
      itemPieces lead sep (first :: ns) ++ sep ++ n.pieces := by
  induction ns generalizing lead first with
  | nil => simp [itemPieces, tight]
  | cons second ns ih =>
      rw [List.cons_append, itemPieces, ih sep second]
      simp [itemPieces]

/-- Blanks between the expressions of a list do not matter to the tokens. -/
theorem lexemes_itemPieces {lead lead' sep sep' : List Piece} (leads : lexemes lead = lexemes lead')
    (seps : lexemes sep = lexemes sep') (ns : List Node) :
    lexemes (itemPieces lead sep ns) = lexemes (itemPieces lead' sep' ns) := by
  induction ns generalizing lead lead' with
  | nil => rfl
  | cons n ns ih => simp [itemPieces, leads, ih seps]

end Node

namespace Grammar

open Parse

variable {d : Nat} {X : Phrase} {ts : List Token} {t : Token} {n m : Node} {place : Location}
  {view : Node → Node}

/-! ## Trees in parentheses -/

/-- An expression whose tree stands in parentheses is an atom. -/
theorem Derives.atom_of_paren {ambiguous : Bool} {e : Node}
    (h : Derives ambiguous d X ts (.paren e place)) : Derives ambiguous d .atom ts (.paren e place) := by
  generalize tree : Node.paren e place = n at h
  induction h with
  | single _ ih | unassigned _ ih | unconditional _ ih | tighter _ ih | unprefixed _ ih
  | unstepped _ ih | uncalled _ ih | reached _ ih | bare _ ih => exact ih tree
  | unjoined _ ih => exact (ih tree).succ
  | paren opens inside closes _ => exact .paren opens inside closes
  | _ => cases tree

/-- Parentheses around what does not stand in them already. -/
theorem enclose_of_ne (apart : ∀ e p, n ≠ .paren e p) : enclose place n = .paren n place := by
  cases n <;> first | rfl | exact absurd rfl (apart _ _)

theorem ne_paren_of_unplaced (same : m.unplaced = n.unplaced) (apart : ∀ e p, n ≠ .paren e p) :
    ∀ e p, m ≠ .paren e p := by
  rintro e p rfl
  obtain ⟨e', p', paren⟩ := Node.eq_paren_of_unplaced same.symm
  exact apart e' p' paren

/-! ## Reading back -/

/-- Tokens that spell the written tree derive it again, as far as the view shows. -/
def ReadsBack (view : Node → Node) (d : Nat) (X : Phrase) (n : Node) : Prop :=
  ∀ us, Spell us n.pieces →
    ∃ m, Derives false d X us m ∧ view m = view n ∧ m.isNew = n.isNew

theorem ReadsBack.imp {e : Nat} {Y : Phrase} (back : ReadsBack view d X n)
    (step : ∀ us m, Derives false d X us m → Derives false e Y us m) : ReadsBack view e Y n := by
  intro us spells
  obtain ⟨m, derived, same⟩ := back us spells
  exact ⟨m, step us m derived, same⟩

theorem Derives.list_shape {ambiguous : Bool} (h : Derives ambiguous d .list ts n) :
    ∃ first others place, n = .comma (first :: others) place := by
  generalize form : Phrase.list = X at h
  induction h with
  | first => exact ⟨_, _, _, rfl⟩
  | further _ _ _ ih _ =>
      obtain ⟨first, others, place, same⟩ := ih form
      cases same
      exact ⟨_, _, _, rfl⟩
  | member takes | index takes =>
      obtain absurd | absurd := takes <;> cases form.trans absurd
  | _ => cases form

/-- Trees that join two operands read back if the operands do. -/
theorem ReadsBack.binary {d₁ d₂ : Nat} {Y Z : Phrase} {op : BinaryOp} (shows : Node.View view)
    (written : (Node.binary op n m place).pieces = n.pieces ++ Piece.between op.symbol ++ m.pieces)
    (left : ReadsBack view d₁ X n) (right : ReadsBack view d₂ Y m)
    (joined : ∀ us n' t vs m', Derives false d₁ X us n' → t.Spells op.symbol →
      Derives false d₂ Y vs m' → Derives false d Z (us ++ t :: vs) (.binary op n' m' t.location)) :
    ReadsBack view d Z (.binary op n m place) := by
  intro us spells
  rw [written, spell_append] at spells
  obtain ⟨_, vs, rfl, spells, spellsRight⟩ := spells
  obtain ⟨us, _, rfl, spellsLeft, spellsOp⟩ := spell_append.mp spells
  obtain ⟨t, rfl, same⟩ := spell_between.mp spellsOp
  obtain ⟨n', derivedLeft, sameLeft, -⟩ := left us spellsLeft
  obtain ⟨m', derivedRight, sameRight, -⟩ := right vs spellsRight
  refine ⟨.binary op n' m' t.location, ?_, ?_, rfl⟩
  · simpa using joined us n' t vs m' derivedLeft (spells_of_toLexeme same) derivedRight
  · simp [shows.binary, sameLeft, sameRight]

theorem ReadsBack.prefixed {e : Nat} {Y : Phrase} {op : PrefixOp} (shows : Node.View view)
    (tight : n.precedence ≤ op.operandLimit) (operand : ReadsBack view e Y n)
    (step : ∀ t us n', t.toLexeme = operatorLexeme op.symbol → Derives false e Y us n' →
      Derives false d X (t :: us) (.prefixed op n' t.location)) :
    ReadsBack view d X (.prefixed op n place) := by
  intro us spells
  rw [Node.pieces_prefixed tight, spell_append] at spells
  obtain ⟨_, us, rfl, spellsOp, spellsOperand⟩ := spells
  obtain ⟨t, rfl, same⟩ := spell_before.mp spellsOp
  obtain ⟨n', derived, sameOperand, -⟩ := operand us spellsOperand
  refine ⟨.prefixed op n' t.location, step t us n' same derived, ?_, by cases op <;> rfl⟩
  simp [shows.prefixed, sameOperand]

theorem ReadsBack.ternary {y z : Node} (shows : Node.View view) (tight : n.precedence < Precedence.conditional)
    (tightYes : y.precedence ≤ Precedence.conditional)
    (tightNo : z.precedence ≤ Precedence.conditional)
    (condition : ReadsBack view (d + 1) (.chain binaryLevels) n)
    (yes : ReadsBack view d .conditional y) (no : ReadsBack view d .conditional z) :
    ReadsBack view (d + 1) .conditional (.ternary n y z place) := by
  intro us spells
  rw [Node.pieces_ternary tight tightYes tightNo, spell_append] at spells
  obtain ⟨us, _, rfl, spellsCondition, rest⟩ := spells
  obtain ⟨question, _, rfl, asked, rest⟩ := spell_lexeme.mp rest
  obtain ⟨vs, _, rfl, spellsYes, rest⟩ := spell_append.mp rest
  obtain ⟨colon, ws, rfl, divided, spellsNo⟩ := spell_lexeme.mp rest
  obtain ⟨n', derived, same, -⟩ := condition us spellsCondition
  obtain ⟨y', derivedYes, sameYes, -⟩ := yes vs spellsYes
  obtain ⟨z', derivedNo, sameNo, -⟩ := no ws spellsNo
  refine ⟨.ternary n' y' z' question.location, ?_,
    by simp [shows.ternary, same, sameYes, sameNo], rfl⟩
  simpa using Derives.ternary derived (beq_iff_eq.mpr asked) derivedYes (beq_iff_eq.mpr divided)
    derivedNo

theorem ReadsBack.several {ns : List Node} (shows : Node.View view)
    (all : ReadsBack view d .list (.comma ns place)) (two : 2 ≤ ns.length) :
    ReadsBack view d .expression (.comma ns place) := by
  intro us spells
  obtain ⟨m, derived, same, -⟩ := all us spells
  obtain ⟨first, others, place', rfl⟩ := derived.list_shape
  refine ⟨_, .several derived ?_, same, rfl⟩
  simp only [shows.comma, Node.comma.injEq, and_true] at same
  have lengths := congrArg List.length same
  rw [List.length_map, List.length_map] at lengths
  omega

theorem isCommaLoose_of_le (tight : n.precedence ≤ Precedence.assignment) :
    n.isCommaLoose = false := by
  have : n.precedence < Precedence.comma := Nat.lt_of_le_of_lt tight (by decide)
  simp [Node.isCommaLoose, this]

theorem ReadsBack.first (shows : Node.View view) (tight : n.precedence ≤ Precedence.assignment)
    (item : ReadsBack view d .assignment n) : ReadsBack view d .list (.comma [n] place) := by
  intro us spells
  simp only [Node.pieces, Node.itemPieces, isCommaLoose_of_le tight, Piece.guarded_false,
    List.nil_append, List.append_nil] at spells
  obtain ⟨m, derived, same, -⟩ := item us spells
  exact ⟨_, .first derived, by simp [shows.comma, same], rfl⟩

theorem ReadsBack.further {first : Node} {others : List Node} (shows : Node.View view)
    (tight : n.precedence ≤ Precedence.assignment)
    (items : ReadsBack view d .list (.comma (first :: others) place))
    (item : ReadsBack view d .assignment n) :
    ReadsBack view d .list (.comma (first :: others ++ [n]) place) := by
  intro us spells
  rw [Node.pieces, Node.itemPieces_append _ _ _ _ _ (isCommaLoose_of_le tight), spell_append] at spells
  obtain ⟨_, vs, rfl, spells, spellsItem⟩ := spells
  obtain ⟨us, _, rfl, spellsItems, spellsComma⟩ := spell_append.mp spells
  obtain ⟨comma, rfl, separated⟩ := spell_single.mp spellsComma
  obtain ⟨m, derivedItems, sameItems, -⟩ := items us (by rwa [Node.pieces])
  obtain ⟨first', others', place', rfl⟩ := derivedItems.list_shape
  obtain ⟨n', derivedItem, sameItem, -⟩ := item vs spellsItem
  refine ⟨.comma (first' :: others' ++ [n']) place', ?_, ?_, rfl⟩
  · simpa using Derives.further derivedItems (beq_iff_eq.mpr separated) derivedItem
  · simp only [shows.comma, Node.comma.injEq, and_true] at sameItems ⊢
    simp only [List.map_append, sameItems, List.map_cons, List.map_nil, sameItem]

theorem ReadsBack.steppedBehind {op : Step} (shows : Node.View view)
    (tight : n.precedence ≤ Precedence.call) (value : ReadsBack view d .call n) :
    ReadsBack view d .update (.postfixed op n place) := by
  intro us spells
  rw [Node.pieces_postfixed tight, spell_append] at spells
  obtain ⟨us, _, rfl, spellsValue, spellsOp⟩ := spells
  obtain ⟨t, rfl, same⟩ := spell_single.mp spellsOp
  obtain ⟨n', derived, sameValue, -⟩ := value us spellsValue
  exact ⟨_, .steppedBehind derived (beq_iff_eq.mpr same), by simp [shows.postfixed, sameValue], rfl⟩

theorem ReadsBack.calledEmpty (shows : Node.View view) (tight : n.precedence ≤ Precedence.call)
    (callee : ReadsBack view d .call n) : ReadsBack view d .call (.call n [] place) := by
  intro us spells
  rw [Node.pieces_call tight, spell_append] at spells
  obtain ⟨us, _, rfl, spellsCallee, rest⟩ := spells
  obtain ⟨opening, _, rfl, opens, rest⟩ := spell_lexeme.mp rest
  obtain ⟨closing, rfl, closes⟩ := spell_single.mp rest
  obtain ⟨n', derived, same, -⟩ := callee us spellsCallee
  exact ⟨_, .calledEmpty derived (beq_iff_eq.mpr opens) (beq_iff_eq.mpr closes),
    by simp [shows.call, same], rfl⟩

theorem ReadsBack.called {args : List Node} {place' : Location} (shows : Node.View view)
    (tight : n.precedence ≤ Precedence.call)
    (callee : ReadsBack view d .call n) (all : ReadsBack view d .list (.comma args place')) :
    ReadsBack view d .call (.call n args place) := by
  intro us spells
  rw [Node.pieces_call tight, spell_append] at spells
  obtain ⟨us, _, rfl, spellsCallee, rest⟩ := spells
  obtain ⟨opening, _, rfl, opens, rest⟩ := spell_lexeme.mp rest
  obtain ⟨vs, _, rfl, spellsArgs, rest⟩ := spell_append.mp rest
  obtain ⟨closing, rfl, closes⟩ := spell_single.mp rest
  obtain ⟨n', derived, same, -⟩ := callee us spellsCallee
  have spellsList : Spell vs (Node.comma args place').pieces := by
    rw [Node.pieces]
    exact spellsArgs.trans (Node.lexemes_itemPieces (by simp) (by simp) args)
  obtain ⟨m, derivedList, sameList, -⟩ := all vs spellsList
  obtain ⟨first, others, place'', rfl⟩ := derivedList.list_shape
  refine ⟨.call n' (first :: others) opening.location, ?_, ?_, rfl⟩
  · simpa using Derives.called derived (beq_iff_eq.mpr opens) derivedList (beq_iff_eq.mpr closes)
  · simp only [shows.comma, Node.comma.injEq, and_true] at sameList
    simp only [shows.call, same, sameList]

theorem opens_of_piece {op : AccessOp} (same : Piece.lexeme t.toLexeme = op.piece) : t.Opens op := by
  obtain ⟨⟨kind, text⟩, location, comments⟩ := t
  cases op <;> cases same
  · exact ⟨.inl rfl, AccessOp.ofSymbol?_symbol .dot⟩
  · exact ⟨.inl rfl, AccessOp.ofSymbol?_symbol .optional⟩
  · exact ⟨.inr rfl, AccessOp.ofSymbol?_symbol .index⟩
  · exact ⟨.inl rfl, AccessOp.ofSymbol?_symbol .arrow⟩

theorem spell_access {op : AccessOp} {us : List Token} {ps : List Piece}
    (spells : Spell us (op.piece :: ps)) : ∃ t vs, us = t :: vs ∧ t.Opens op ∧ Spell vs ps := by
  have shape : ∃ l, op.piece = .lexeme l := by cases op <;> exact ⟨_, rfl⟩
  obtain ⟨l, piece⟩ := shape
  rw [piece] at spells
  obtain ⟨t, vs, rfl, same, rest⟩ := spell_lexeme.mp spells
  refine ⟨t, vs, rfl, opens_of_piece ?_, rest⟩
  rw [same, piece]

theorem isName_symbol {name : String} (kind : t.toLexeme = .symbol name)
    (free : isKeyword name = false) : isName t = true := by
  cases t
  cases kind
  simp [isName, free]

theorem ReadsBack.member {op : AccessOp} {name : String} {place' : Location}
    (shows : Node.View view) (takes : X.TakesMembers) (notNew : n.isNew = false) (tight : n.precedence ≤ Precedence.call)
    (object : ReadsBack view d X n) (named : op ≠ .index) (free : isKeyword name = false) :
    ReadsBack view d X (.access op n (.symbol name place') place) := by
  intro us spells
  rw [Node.pieces_access notNew tight, if_neg named, List.append_nil, spell_append] at spells
  obtain ⟨us, _, rfl, spellsObject, rest⟩ := spells
  obtain ⟨t, vs, rfl, opens, rest⟩ := spell_access rest
  rw [Node.pieces] at rest
  obtain ⟨u, rfl, kind⟩ := spell_single.mp rest
  obtain ⟨n', derived, same, sameNew⟩ := object us spellsObject
  have text : u.text = name := congrArg Lexeme.text kind
  refine ⟨_, .member takes derived ?_ opens named (isName_symbol kind free), ?_, rfl⟩
  · simp [sameNew, notNew]
  · simp [shows.access, shows.symbol, same, text]

theorem ReadsBack.index (shows : Node.View view) (takes : X.TakesMembers)
    (notNew : n.isNew = false) (tight : n.precedence ≤ Precedence.call)
    (object : ReadsBack view d X n) (property : ReadsBack view d .expression m) :
    ReadsBack view d X (.access .index n m place) := by
  intro us spells
  rw [Node.pieces_access notNew tight, if_pos rfl, spell_append] at spells
  obtain ⟨us, _, rfl, spellsObject, rest⟩ := spells
  obtain ⟨t, _, rfl, opens, rest⟩ := spell_access rest
  obtain ⟨vs, _, rfl, spellsProperty, rest⟩ := spell_append.mp rest
  obtain ⟨closing, rfl, closes⟩ := spell_single.mp rest
  obtain ⟨n', derived, same, sameNew⟩ := object us spellsObject
  obtain ⟨m', derivedProperty, sameProperty, -⟩ := property vs spellsProperty
  refine ⟨.access .index n' m' t.location, ?_, by simp [shows.access, same, sameProperty], rfl⟩
  simpa using Derives.index takes derived (by simp [sameNew, notNew]) opens
    derivedProperty (beq_iff_eq.mpr closes)

theorem ReadsBack.enclose (inside : ReadsBack Node.unplaced d .expression n) :
    ReadsBack Node.unplaced d .atom (enclose place n) := by
  intro us spells
  by_cases collapsed : ∃ e p, n = .paren e p
  · obtain ⟨e, p, rfl⟩ := collapsed
    obtain ⟨m, derived, same, -⟩ := inside us spells
    obtain ⟨e', p', rfl⟩ := Node.eq_paren_of_unplaced same
    exact ⟨_, derived.atom_of_paren, same, rfl⟩
  · have apart : ∀ e p, n ≠ .paren e p := fun e p same => collapsed ⟨e, p, same⟩
    rw [enclose_of_ne apart] at spells ⊢
    rw [Node.pieces] at spells
    obtain ⟨opening, _, rfl, opens, rest⟩ := spell_lexeme.mp spells
    obtain ⟨us, _, rfl, spellsInside, rest⟩ := spell_append.mp rest
    obtain ⟨closing, rfl, closes⟩ := spell_single.mp rest
    obtain ⟨m, derived, same, -⟩ := inside us spellsInside
    have paren := Derives.paren (beq_iff_eq.mpr opens) derived (beq_iff_eq.mpr closes)
    rw [enclose_of_ne (ne_paren_of_unplaced same apart)] at paren
    exact ⟨_, paren, by simp [Node.unplaced, same], rfl⟩

theorem ReadsBack.number {text : String} (shows : Node.View view) :
    ReadsBack view d .atom (.number (Numeral.value text.toList) text place) := by
  intro us spells
  rw [Node.pieces] at spells
  obtain ⟨⟨⟨kind, text⟩, location, comments⟩, rfl, same⟩ := spell_single.mp spells
  cases same
  exact ⟨_, .number rfl, by simp [shows.number], rfl⟩

theorem ReadsBack.string {text : String} (shows : Node.View view) :
    ReadsBack view d .atom (.string (Text.Quoted.decode text) text place) := by
  intro us spells
  rw [Node.pieces] at spells
  obtain ⟨⟨⟨kind, text⟩, location, comments⟩, rfl, same⟩ := spell_single.mp spells
  cases same
  exact ⟨_, .string rfl, by simp [shows.string], rfl⟩

theorem ReadsBack.name {name : String} (shows : Node.View view) (free : isKeyword name = false) :
    ReadsBack view d .atom (.symbol name place) := by
  intro us spells
  rw [Node.pieces] at spells
  obtain ⟨t, rfl, same⟩ := spell_single.mp spells
  have text : t.text = name := congrArg Lexeme.text same
  exact ⟨_, .name (isName_symbol same free), by simp [shows.symbol, text], rfl⟩

theorem free_of_isName (isName : isName t = true) : isKeyword t.text = false := by
  simp only [Parse.isName, Bool.and_eq_true, Bool.not_eq_true'] at isName
  exact isName.2

/-- Every derived tree reads back in the phrase it was derived in. -/
theorem Derives.readsBack (h : Derives false d X ts n) (sorted : X.Sorted) :
    ReadsBack Node.unplaced d X n := by
  have shows := Node.view_unplaced
  induction h with
  | single _ ih => exact (ih trivial).imp fun _ _ => .single
  | several _ two ih => exact .several shows (ih trivial) two
  | first item ih => exact .first shows (item.precedence_le trivial) (ih trivial)
  | further items _ item ihs ih =>
      obtain ⟨first, others, _, same⟩ := items.list_shape
      cases same
      exact .further shows (item.precedence_le trivial) (ihs trivial) (ih trivial)
  | unassigned _ ih => exact (ih trivial).imp fun _ _ => .unassigned
  | @assigned d ts n op t us m target mem spelled value iht ihv =>
      obtain ⟨precedence, groups⟩ := precedence_assignments _ mem
      have left : n.precedence < op.precedence := by
        rw [precedence]
        exact Nat.lt_of_le_of_lt (target.precedence_le trivial) (by decide)
      have right : m.precedence ≤ op.precedence := by
        rw [precedence]
        exact value.precedence_le trivial
      exact .binary shows (Node.pieces_binary_right left right groups) (iht trivial) (ihv trivial)
        fun _ _ _ _ _ target spelled value => .assigned target mem spelled value
  | unconditional _ ih => exact (ih ordered_binaryLevels).imp fun _ _ => .unconditional
  | ternary condition _ yes _ no ihc ihy ihn =>
      have tight := Nat.lt_of_le_of_lt (condition.precedence_le ordered_binaryLevels)
        (by decide : Phrase.limit (.chain binaryLevels) < Precedence.conditional)
      exact .ternary shows tight (yes.precedence_le trivial) (no.precedence_le trivial)
        (ihc ordered_binaryLevels) (ihy trivial) (ihn trivial)
  | @default d ts n op t us m value mem spelled other ihv iho =>
      obtain ⟨precedence, groups⟩ := precedence_defaults _ mem
      have left : n.precedence < op.precedence := by
        rw [precedence]
        exact Nat.lt_of_le_of_lt (value.precedence_le ordered_binaryLevels) (by decide)
      have right : m.precedence ≤ op.precedence := by
        rw [precedence]
        exact other.precedence_le trivial
      exact .binary shows (Node.pieces_binary_right left right groups) (ihv ordered_binaryLevels)
        (iho trivial) fun _ _ _ _ _ value spelled other => .default value mem spelled other
  | unjoined _ ih => exact (ih trivial).imp fun _ _ => .unjoined
  | tighter _ ih => exact (ih sorted.2.2).imp fun _ _ => .tighter
  | @joined d ops levels ts n op t us m lhs mem spelled rhs ihl ihr =>
      obtain ⟨precedence, groups⟩ := sorted.2.1 _ mem
      have left : n.precedence ≤ op.precedence := by
        rw [precedence]
        exact lhs.precedence_le sorted
      have right : m.precedence < op.precedence := by
        rw [precedence]
        exact Nat.lt_of_le_of_lt (rhs.precedence_le sorted.2.2) sorted.1
      exact .binary shows (Node.pieces_binary_left left right groups) (ihl sorted) (ihr sorted.2.2)
        fun _ _ _ _ _ lhs spelled rhs => .joined lhs mem spelled rhs
  | unprefixed _ ih => exact (ih trivial).imp fun _ _ => .unprefixed
  | prefixed mem _ value ih =>
      refine .prefixed shows ?_ (ih trivial)
        fun _ _ _ same value => .prefixed mem (spells_of_toLexeme same) value
      rw [(precedence_unary _ mem).2]
      exact value.precedence_le trivial
  | unstepped _ ih => exact (ih trivial).imp fun _ _ => .unstepped
  | steppedBefore mem _ value ih =>
      refine .prefixed shows ?_ (ih trivial)
        fun _ _ _ same value => .steppedBefore mem (spells_of_toLexeme same) value
      rw [(precedence_steps _ mem).2]
      exact value.precedence_le trivial
  | steppedBehind value _ ih => exact .steppedBehind shows (value.precedence_le trivial) (ih trivial)
  | uncalled _ ih => exact (ih trivial).imp fun _ _ => .uncalled
  | calledEmpty callee _ _ ih => exact .calledEmpty shows (callee.precedence_le trivial) (ih trivial)
  | called callee _ _ _ ihc iha =>
      exact .called shows (callee.precedence_le trivial) (ihc trivial) (iha trivial)
  | new _ value ih =>
      exact .prefixed shows (value.precedence_le trivial) (ih trivial)
        fun _ _ _ same value => .new (beq_iff_eq.mpr same) value
  | reached _ ih => exact (ih trivial).imp fun _ _ => .reached
  | bare _ ih => exact (ih trivial).imp fun _ _ => .bare
  | member takes object reading _ named isName ih =>
      have tight := Nat.le_trans (object.precedence_le takes.sorted) takes.limit_le
      exact .member shows takes (by simpa using reading) tight (ih takes.sorted) named
        (free_of_isName isName)
  | index takes object reading _ _ _ iho ihp =>
      have tight := Nat.le_trans (object.precedence_le takes.sorted) takes.limit_le
      exact .index shows takes (by simpa using reading) tight (iho takes.sorted) (ihp trivial)
  | paren _ _ _ ih => exact (ih trivial).enclose
  | number => exact .number shows
  | string => exact .string shows
  | name isName => exact .name shows (free_of_isName isName)

end Grammar

end Scriptlet
