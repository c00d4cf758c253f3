import Scriptlet.Proofs.Grammar.Follow
import Scriptlet.Proofs.Grammar.Printing
import Scriptlet.Proofs.Grammar.States

/-! # Written statements state their trees again

A statement is written with all its semicolons and braces. The tokens it is written with
state the same tree, apart from places: the words of arms still find the chain that they
belong to, since this depends on the tree only.
-/

namespace Scriptlet

namespace Node

open Piece

theorem bodyPieces_append (ns : List Node) (n : Node) :
    bodyPieces (ns ++ [n]) = bodyPieces ns ++ (n.pieces ++ [blank]) := by
  induction ns with
  | nil => simp [bodyPieces]
  | cons m ns ih => simp [bodyPieces, ih]

/-- The value that a declared name starts with. -/
def valuePieces : Option Node → List Piece
  | some v => blank :: operator "=" :: blank :: guarded v.isCommaLoose v.pieces
  | none => []

theorem declaratorPieces_nil (lead : List Piece) : declaratorPieces lead [] = [] := rfl

theorem declaratorPieces_cons (lead : List Piece) (x : Declarator Node)
    (rest : List (Declarator Node)) :
    declaratorPieces lead (x :: rest) =
      lead ++ Piece.symbol x.name :: valuePieces x.value ++
        declaratorPieces [operator ",", blank] rest := by
  obtain ⟨name, _ | value, place⟩ := x <;> simp [declaratorPieces, valuePieces]

theorem declaratorPieces_append (lead : List Piece) (first : Declarator Node)
    (xs : List (Declarator Node)) (x : Declarator Node) :
    declaratorPieces lead (first :: xs ++ [x]) =
      declaratorPieces lead (first :: xs) ++ declaratorPieces [operator ",", blank] [x] := by
  induction xs generalizing lead first with
  | nil => simp [declaratorPieces_cons, declaratorPieces_nil]
  | cons second xs ih =>
      rw [List.cons_append, declaratorPieces_cons, ih _ second, declaratorPieces_cons lead]
      simp

/-- The condition of an arm. -/
def conditionPieces : Option Node → List Piece
  | some c => blank :: parenthesized c.pieces
  | none => []

theorem branchPieces_nil (lead : List Piece) : branchPieces lead [] = [] := rfl

theorem branchPieces_cons (lead : List Piece) (b : Branch Node) (rest : List (Branch Node)) :
    branchPieces lead (b :: rest) =
      lead ++ (b.word.pieces ++ (conditionPieces b.condition ++ blank :: b.body.pieces)) ++
        branchPieces [blank] rest := by
  obtain ⟨word, _ | condition, body⟩ := b <;> simp [branchPieces, conditionPieces]

theorem branchPieces_append (lead : List Piece) (first : Branch Node)
    (bs cs : List (Branch Node)) :
    branchPieces lead (first :: bs ++ cs) =
      branchPieces lead (first :: bs) ++ branchPieces [blank] cs := by
  induction bs generalizing lead first with
  | nil => simp [branchPieces_cons, branchPieces_nil]
  | cons second bs ih =>
      rw [List.cons_append, branchPieces_cons, ih _ second, branchPieces_cons lead]
      simp

theorem isChain_unplaced (n : Node) : n.unplaced.isChain = n.isChain := by
  cases n <;> simp [unplaced, isChain]

theorem endsOpen_unplaced (n : Node) : n.unplaced.endsOpen = n.endsOpen := by
  cases n with
  | chain branches place =>
      simp only [unplaced, endsOpen, unplacedBranches_eq_map, List.getLast?_map]
      cases branches.getLast? <;> rfl
  | _ => simp [unplaced, endsOpen]

end Node

namespace Grammar

theorem openBody_of_unplaced {bs bs' : List (Branch Node)}
    (same : Node.unplacedBranches bs' = Node.unplacedBranches bs) : openBody bs' = openBody bs := by
  have openBody_unplaced : ∀ bs, openBody (Node.unplacedBranches bs) = openBody bs := by
    intro bs
    simp only [openBody, Node.unplacedBranches_eq_map, List.getLast?_map]
    cases bs.getLast? <;> simp [Node.endsOpen_unplaced]
  rw [← openBody_unplaced bs', same, openBody_unplaced]

/-- What a form is written with. -/
def Form.pieces : Form → Node → List Piece
  | .statement, n | .arms, n => n.pieces
  | .body, .block ns _ => Node.bodyPieces ns
  | .declarations, .var xs _ => Node.declaratorPieces [] xs
  | _, n => n.pieces

/-- Tokens that spell the written tree state it again, apart from places. -/
def StatesBack (d : Nat) (X : Form) (n : Node) : Prop :=
  ∀ us, Spell us (X.pieces n) → ∃ m, States true d X us m ∧ m.unplaced = n.unplaced

variable {d : Nat} {ts : List Token} {n : Node} {place : Location}

theorem StatesBack.empty : StatesBack d .statement (.empty place) := by
  intro us spells
  rw [Form.pieces, Node.pieces] at spells
  obtain ⟨t, rfl, same⟩ := spell_single.mp spells
  exact ⟨_, .empty (beq_iff_eq.mpr same), by simp [Node.unplaced]⟩

/-! ## Blocks -/

theorem StatesBack.block {ns : List Node} {place' : Location}
    (all : StatesBack d .body (.block ns place')) : StatesBack d .statement (.block ns place) := by
  intro us spells
  rw [Form.pieces, Node.pieces] at spells
  obtain ⟨opening, _, rfl, opens, rest⟩ := spell_lexeme.mp spells
  obtain ⟨us, _, rfl, spellsBody, rest⟩ := spell_append.mp rest
  obtain ⟨closing, rfl, closes⟩ := spell_single.mp rest
  obtain ⟨m, stated, same⟩ := all us spellsBody
  obtain ⟨ms, place'', rfl⟩ := stated.body_shape
  refine ⟨_, .block (beq_iff_eq.mpr opens) stated (.inl ⟨closing, rfl, beq_iff_eq.mpr closes⟩), ?_⟩
  simpa [Node.unplaced] using same

theorem StatesBack.next {ns : List Node}
    (before : StatesBack (d + 1) .body (.block ns place)) (statement : StatesBack d .statement n) :
    StatesBack (d + 1) .body (.block (ns ++ [n]) place) := by
  intro us spells
  rw [Form.pieces, Node.bodyPieces_append] at spells
  obtain ⟨us, _, rfl, spellsBefore, rest⟩ := spell_append.mp spells
  obtain ⟨vs, _, rfl, spellsStatement, rest⟩ := spell_append.mp rest
  cases spell_nil.mp (spell_blank.mp rest)
  obtain ⟨m, stated, same⟩ := before us spellsBefore
  obtain ⟨ms, place', rfl⟩ := stated.body_shape
  obtain ⟨n', statedNext, sameNext⟩ := statement vs spellsStatement
  refine ⟨.block (ms ++ [n']) place', ?_, ?_⟩
  · simpa using States.next stated statedNext
  · simp only [Node.unplaced, Node.unplacedAll_eq_map, Node.block.injEq, and_true] at same ⊢
    simp only [List.map_append, same, List.map_cons, List.map_nil, sameNext]

/-! ## Declarations -/

theorem Declares.readsBack {x : Declarator Node} {us : List Token} (h : Declares d ts x)
    (spells : Spell us (Piece.symbol x.name :: Node.valuePieces x.value)) :
    ∃ y, Declares d us y ∧ Node.unplacedDeclarators [y] = Node.unplacedDeclarators [x] := by
  obtain ⟨t, _, rfl, same, rest⟩ := spell_lexeme.mp spells
  have text : t.text = x.name := congrArg Lexeme.text same
  cases h with
  | bare isName =>
      cases spell_nil.mp rest
      refine ⟨_, .bare (isName_symbol same (free_of_isName isName)), ?_⟩
      simp [Node.unplacedDeclarators, text]
  | valued isName _ value =>
      rw [Node.valuePieces, isCommaLoose_of_le (value.precedence_le trivial), spell_blank] at rest
      obtain ⟨sign, us, rfl, assigned, rest⟩ := spell_lexeme.mp rest
      obtain ⟨m, derived, sameValue, -⟩ := value.readsBack trivial us (spell_blank.mp rest)
      refine ⟨_, .valued (isName_symbol same (free_of_isName isName)) (beq_iff_eq.mpr assigned)
        derived, ?_⟩
      simp [Node.unplacedDeclarators, text, sameValue]

theorem StatesBack.declared {x : Declarator Node} (item : Declares d ts x) :
    StatesBack d .declarations (.var [x] place) := by
  intro us spells
  rw [Form.pieces, Node.declaratorPieces_cons, Node.declaratorPieces_nil, List.append_nil,
    List.nil_append] at spells
  obtain ⟨y, declares, same⟩ := item.readsBack spells
  exact ⟨.var [y] .start, .declared declares, by simp [Node.unplaced, same]⟩

theorem StatesBack.alsoDeclared {first x : Declarator Node} {others : List (Declarator Node)}
    (items : StatesBack d .declarations (.var (first :: others) place)) (item : Declares d ts x) :
    StatesBack d .declarations (.var (first :: others ++ [x]) place) := by
  intro us spells
  rw [Form.pieces, Node.declaratorPieces_append, Node.declaratorPieces_cons _ x,
    Node.declaratorPieces_nil, List.append_nil] at spells
  obtain ⟨us, _, rfl, spellsItems, rest⟩ := spell_append.mp spells
  obtain ⟨comma, vs, rfl, separated, spellsItem⟩ := spell_lexeme.mp rest
  obtain ⟨m, stated, same⟩ := items us spellsItems
  obtain ⟨first', others', place', rfl⟩ := stated.declarations_shape
  obtain ⟨y, declares, sameItem⟩ := item.readsBack spellsItem
  refine ⟨.var (first' :: others' ++ [y]) place', ?_, ?_⟩
  · exact .alsoDeclared stated (beq_iff_eq.mpr separated) declares
  · simp only [Node.unplaced, Node.unplacedDeclarators_eq_map, Node.var.injEq, and_true] at same sameItem ⊢
    rw [List.map_append, same, sameItem, List.map_append]

theorem StatesBack.var {xs : List (Declarator Node)} {place' : Location}
    (all : StatesBack d .declarations (.var xs place')) :
    StatesBack d .statement (.var xs place) := by
  intro us spells
  rw [Form.pieces, Node.pieces] at spells
  obtain ⟨word, _, rfl, isVar, rest⟩ := spell_lexeme.mp spells
  obtain ⟨us, _, rfl, spellsAll, rest⟩ := spell_append.mp rest
  obtain ⟨ending, rfl, ends⟩ := spell_single.mp rest
  obtain ⟨m, stated, same⟩ := all us (spell_blank.mp spellsAll)
  obtain ⟨_, _, _, rfl⟩ := stated.declarations_shape
  refine ⟨_, .var (beq_iff_eq.mpr isVar) stated (.inl ⟨ending, rfl, beq_iff_eq.mpr ends⟩), ?_⟩
  simpa [Node.unplaced] using same

/-! ## Arms -/

theorem Conditions.readsBack {c : Node} {us : List Token} (h : Conditions d ts c)
    (spells : Spell us (Node.conditionPieces (some c))) :
    ∃ c', Conditions d us c' ∧ c'.unplaced = c.unplaced := by
  obtain ⟨_, inside, _⟩ := h
  obtain ⟨opening, _, rfl, opens, rest⟩ := spell_lexeme.mp (spell_blank.mp spells)
  obtain ⟨us, _, rfl, spellsInside, rest⟩ := spell_append.mp rest
  obtain ⟨closing, rfl, closes⟩ := spell_single.mp rest
  obtain ⟨m, derived, same, -⟩ := inside.readsBack trivial us spellsInside
  exact ⟨m, .paren (beq_iff_eq.mpr opens) derived (beq_iff_eq.mpr closes), same⟩

/-- The tokens of an arm are those of its words, of its condition and of its body. -/
theorem spell_branch {lead : List Piece} {b : Branch Node} {us : List Token}
    (blanks : Piece.lexemes lead = []) (spells : Spell us (Node.branchPieces lead [b])) :
    ∃ ws cs vs, us = ws ++ cs ++ vs ∧ b.word.Introduces ws ∧
      Spell cs (Node.conditionPieces b.condition) ∧ Spell vs b.body.pieces := by
  rw [Node.branchPieces_cons, Node.branchPieces_nil, List.append_nil, spell_append] at spells
  obtain ⟨ls, _, rfl, spellsLead, spells⟩ := spells
  rw [Spell, blanks, List.map_eq_nil_iff] at spellsLead
  cases spellsLead
  obtain ⟨ws, _, rfl, introduced, spells⟩ := spell_append.mp spells
  obtain ⟨cs, vs, rfl, spellsCondition, spellsBody⟩ := spell_append.mp spells
  exact ⟨ws, cs, vs, by simp, introduced, spellsCondition, spell_blank.mp spellsBody⟩

theorem StatesBack.ifArm {cs : List Token} {c : Node} (condition : Conditions (d + 1) cs c)
    (body : StatesBack d .statement n) :
    StatesBack (d + 1) .arms (.chain [⟨.if_, some c, n⟩] place) := by
  intro us spells
  rw [Form.pieces, Node.pieces] at spells
  obtain ⟨ws, cs, vs, rfl, introduced, spellsCondition, spellsBody⟩ := spell_branch rfl spells
  obtain ⟨word, rfl, isIf⟩ := spell_single.mp introduced
  obtain ⟨c', conditions, sameCondition⟩ := condition.readsBack spellsCondition
  obtain ⟨n', stated, sameBody⟩ := body vs spellsBody
  refine ⟨_, .ifArm (beq_iff_eq.mpr isIf) conditions stated, ?_⟩
  simp [Node.unplaced, Node.unplacedBranches, sameCondition, sameBody]

theorem unplacedBranches_append {bs bs' : List (Branch Node)} {b b' : Branch Node}
    (before : Node.unplacedBranches bs' = Node.unplacedBranches bs)
    (last : Node.unplacedBranches [b'] = Node.unplacedBranches [b]) :
    Node.unplacedBranches (bs' ++ [b']) = Node.unplacedBranches (bs ++ [b]) := by
  simp only [Node.unplacedBranches_eq_map, List.map_append] at before last ⊢
  rw [before, last]

theorem StatesBack.elseArm {first : Branch Node} {others : List (Branch Node)} {word : BranchWord}
    {cs : List Token} {c : Node}
    (arms : StatesBack (d + 1) .arms (.chain (first :: others) place))
    (closed : openBody (first :: others) = false)
    (further : word ∈ [BranchWord.elseif, .elsif, .elseIf])
    (condition : Conditions (d + 1) cs c) (body : StatesBack d .statement n) :
    StatesBack (d + 1) .arms (.chain (first :: others ++ [⟨word, some c, n⟩]) place) := by
  intro us spells
  rw [Form.pieces, Node.pieces, Node.branchPieces_append] at spells
  obtain ⟨us, _, rfl, spellsArms, spells⟩ := spell_append.mp spells
  obtain ⟨ws, cs, vs, rfl, introduced, spellsCondition, spellsBody⟩ := spell_branch rfl spells
  obtain ⟨m, statedArms, sameArms⟩ := arms us (by rwa [Form.pieces, Node.pieces])
  obtain ⟨first', others', place', rfl⟩ := statedArms.arms_shape
  simp only [Node.unplaced, Node.chain.injEq, and_true] at sameArms
  obtain ⟨c', conditions, sameCondition⟩ := condition.readsBack spellsCondition
  obtain ⟨n', stated, sameBody⟩ := body vs spellsBody
  refine ⟨_, .elseArm statedArms ?_ further introduced conditions stated, ?_⟩
  · rw [openBody_of_unplaced sameArms, closed]
  · rw [Node.unplaced, Node.unplaced, unplacedBranches_append sameArms]
    simp [Node.unplacedBranches, sameCondition, sameBody]

theorem StatesBack.otherwise {first : Branch Node} {others : List (Branch Node)}
    (arms : StatesBack (d + 1) .arms (.chain (first :: others) place))
    (closed : openBody (first :: others) = false) (body : StatesBack d .statement n)
    (apart : n.isChain = false) :
    StatesBack (d + 1) .statement (.chain (first :: others ++ [⟨.else_, none, n⟩]) place) := by
  intro us spells
  rw [Form.pieces, Node.pieces, Node.branchPieces_append] at spells
  obtain ⟨us, _, rfl, spellsArms, spells⟩ := spell_append.mp spells
  obtain ⟨ws, cs, vs, rfl, introduced, spellsCondition, spellsBody⟩ := spell_branch rfl spells
  cases spell_nil.mp spellsCondition
  obtain ⟨word, rfl, isElse⟩ := spell_single.mp introduced
  obtain ⟨m, statedArms, sameArms⟩ := arms us (by rwa [Form.pieces, Node.pieces])
  obtain ⟨first', others', place', rfl⟩ := statedArms.arms_shape
  simp only [Node.unplaced, Node.chain.injEq, and_true] at sameArms
  obtain ⟨n', stated, sameBody⟩ := body vs spellsBody
  refine ⟨_, .otherwise statedArms ?_ (beq_iff_eq.mpr isElse) stated ?_, ?_⟩
  · rw [openBody_of_unplaced sameArms, closed]
  · rw [← Node.isChain_unplaced, sameBody, Node.isChain_unplaced, apart]
  · rw [Node.unplaced, Node.unplaced, unplacedBranches_append sameArms]
    simp [Node.unplacedBranches, sameBody]

theorem StatesBack.expression (value : ReadsBack Node.unplaced d .expression n) :
    StatesBack d .statement (.expression n place) := by
  intro us spells
  rw [Form.pieces, Node.pieces] at spells
  obtain ⟨us, _, rfl, spellsValue, rest⟩ := spell_append.mp spells
  obtain ⟨ending, rfl, ends⟩ := spell_single.mp rest
  obtain ⟨m, derived, same, -⟩ := value us spellsValue
  obtain ⟨t, vs, rfl, -⟩ := derived.begins
  refine ⟨_, .expression derived (.inl ⟨ending, rfl, beq_iff_eq.mpr ends⟩), ?_⟩
  simp [Node.unplaced, same]

/-- Every statement states its tree again when it is written. -/
theorem States.statesBack {strict : Bool} {X : Form} (h : States strict d X ts n) :
    StatesBack d X n := by
  induction h with
  | empty => exact .empty
  | block _ _ _ ih => exact ih.block
  | none =>
      intro us spells
      cases spell_nil.mp spells
      exact ⟨_, .none, rfl⟩
  | next _ _ ihs ih => exact ihs.next ih
  | var _ _ _ ih => exact ih.var
  | declared item => exact .declared item
  | alsoDeclared items _ item ih =>
      obtain ⟨first, others, _, same⟩ := items.declarations_shape
      cases same
      exact ih.alsoDeclared item
  | ifArm _ condition _ ih => exact .ifArm condition ih
  | elseArm arms closed further _ condition _ iha ihb =>
      obtain ⟨first, others, _, same⟩ := arms.arms_shape
      cases same
      exact iha.elseArm closed further condition ihb
  | armed _ ih =>
      intro us spells
      obtain ⟨m, stated, same⟩ := ih us spells
      obtain ⟨_, _, _, rfl⟩ := stated.arms_shape
      exact ⟨_, .armed stated, same⟩
  | otherwise arms closed _ _ apart iha ihb =>
      obtain ⟨first, others, _, same⟩ := arms.arms_shape
      cases same
      exact iha.otherwise closed ihb apart
  | expression value => exact .expression (value.readsBack trivial)

end Grammar

end Scriptlet
