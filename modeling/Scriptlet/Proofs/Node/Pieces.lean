import Scriptlet.Node.Pieces
import Scriptlet.Proofs.Node.Unplaced
import Scriptlet.Token

/-! # Tokens that spell pieces

A row of tokens spells a row of pieces if its lexemes are those of the pieces, blanks
aside. Where the pieces are put together from parts, so is the row of tokens. What a tree
is written with depends on no place in it.
-/

namespace Scriptlet

namespace Piece

@[simp] theorem lexemes_nil : lexemes [] = [] := rfl

@[simp] theorem lexemes_blank (ps : List Piece) : lexemes (blank :: ps) = lexemes ps := rfl

@[simp] theorem lexemes_lexeme (l : Lexeme) (ps : List Piece) :
    lexemes (lexeme l :: ps) = l :: lexemes ps := rfl

@[simp] theorem lexemes_operator (text : String) (ps : List Piece) :
    lexemes (operator text :: ps) = .operator text :: lexemes ps := rfl

@[simp] theorem lexemes_symbol (text : String) (ps : List Piece) :
    lexemes (symbol text :: ps) = .symbol text :: lexemes ps := rfl

@[simp] theorem lexemes_separator (c : Char) (ps : List Piece) :
    lexemes (separator c :: ps) = .separator c :: lexemes ps := rfl

@[simp] theorem lexemes_append (ps qs : List Piece) :
    lexemes (ps ++ qs) = lexemes ps ++ lexemes qs :=
  List.filterMap_append

@[simp] theorem lexemes_between (text : String) : lexemes (between text) = [operatorLexeme text] := by
  simp only [between]
  split <;> rfl

@[simp] theorem lexemes_before (text : String) : lexemes (before text) = [operatorLexeme text] := by
  simp only [before]
  split <;> rfl

@[simp] theorem guarded_false (ps : List Piece) : guarded false ps = ps := rfl

end Piece

/-- The tokens are those that the pieces spell. -/
def Spell (ts : List Token) (ps : List Piece) : Prop :=
  ts.map (·.toLexeme) = Piece.lexemes ps

theorem spell_nil {ts : List Token} : Spell ts [] ↔ ts = [] := by
  simp [Spell]

theorem spell_append {ts : List Token} {ps qs : List Piece} :
    Spell ts (ps ++ qs) ↔ ∃ us vs, ts = us ++ vs ∧ Spell us ps ∧ Spell vs qs := by
  rw [Spell, Piece.lexemes_append, List.map_eq_append_iff]
  rfl

theorem spell_lexeme {ts : List Token} {l : Lexeme} {ps : List Piece} :
    Spell ts (.lexeme l :: ps) ↔ ∃ t us, ts = t :: us ∧ t.toLexeme = l ∧ Spell us ps := by
  rw [Spell, Piece.lexemes_lexeme, List.map_eq_cons_iff]
  rfl

theorem spell_blank {ts : List Token} {ps : List Piece} : Spell ts (.blank :: ps) ↔ Spell ts ps :=
  Iff.rfl

theorem spell_single {ts : List Token} {l : Lexeme} :
    Spell ts [.lexeme l] ↔ ∃ t, ts = [t] ∧ t.toLexeme = l := by
  simp [Spell, List.map_eq_cons_iff]

theorem spell_between {ts : List Token} {text : String} :
    Spell ts (Piece.between text) ↔ ∃ t, ts = [t] ∧ t.toLexeme = operatorLexeme text := by
  simp [Spell, List.map_eq_cons_iff]

theorem spell_before {ts : List Token} {text : String} :
    Spell ts (Piece.before text) ↔ ∃ t, ts = [t] ∧ t.toLexeme = operatorLexeme text := by
  simp [Spell, List.map_eq_cons_iff]

/-! ## Pieces and places -/

namespace Node

open Piece

theorem precedence_unplaced (n : Node) : n.unplaced.precedence = n.precedence := by
  cases n <;> simp [unplaced, precedence]

theorem isNew_unplaced (n : Node) : n.unplaced.isNew = n.isNew := by
  cases n with
  | prefixed op => cases op <;> simp [unplaced, isNew]
  | _ => simp [unplaced, isNew]

theorem isCommaLoose_unplaced (n : Node) : n.unplaced.isCommaLoose = n.isCommaLoose := by
  rw [isCommaLoose, precedence_unplaced, isCommaLoose]

mutual

/-- What a tree is written with does not depend on places. -/
theorem pieces_unplaced : ∀ n : Node, n.unplaced.pieces = n.pieces
  | empty _ | number _ _ _ | string _ _ _ | symbol _ _ => by simp [unplaced, pieces]
  | block body _ => by simp [unplaced, pieces, bodyPieces_unplaced body]
  | expression expr _ | paren expr _ => by simp [unplaced, pieces, pieces_unplaced expr]
  | var declarators _ => by simp [unplaced, pieces, declaratorPieces_unplaced declarators]
  | chain branches _ => by simp [unplaced, pieces, branchPieces_unplaced branches]
  | comma exprs _ => by simp [unplaced, pieces, itemPieces_unplaced exprs]
  | prefixed _ operand _ | postfixed _ operand _ => by
      simp [unplaced, pieces, pieces_unplaced operand, precedence_unplaced]
  | binary _ lhs rhs _ => by
      simp [unplaced, pieces, pieces_unplaced lhs, pieces_unplaced rhs, precedence_unplaced]
  | ternary condition yes no _ => by
      simp [unplaced, pieces, pieces_unplaced condition, pieces_unplaced yes, pieces_unplaced no,
        precedence_unplaced]
  | call callee args _ => by
      simp [unplaced, pieces, pieces_unplaced callee, itemPieces_unplaced args,
        precedence_unplaced]
  | access _ object property _ => by
      simp [unplaced, pieces, pieces_unplaced object, pieces_unplaced property,
        precedence_unplaced, isNew_unplaced]

theorem bodyPieces_unplaced : ∀ ns : List Node, bodyPieces (unplacedAll ns) = bodyPieces ns
  | [] => rfl
  | n :: rest => by
      simp [unplacedAll, bodyPieces, pieces_unplaced n, bodyPieces_unplaced rest]

theorem itemPieces_unplaced : ∀ (ns : List Node) (lead sep : List Piece),
    itemPieces lead sep (unplacedAll ns) = itemPieces lead sep ns
  | [], _, _ => rfl
  | n :: rest, lead, sep => by
      simp [unplacedAll, itemPieces, pieces_unplaced n, isCommaLoose_unplaced,
        itemPieces_unplaced rest]

theorem declaratorPieces_unplaced : ∀ (xs : List (Declarator Node)) (lead : List Piece),
    declaratorPieces lead (unplacedDeclarators xs) = declaratorPieces lead xs
  | [], _ => rfl
  | ⟨name, some v, _⟩ :: rest, lead => by
      simp [unplacedDeclarators, declaratorPieces, pieces_unplaced v, isCommaLoose_unplaced,
        declaratorPieces_unplaced rest]
  | ⟨name, none, _⟩ :: rest, lead => by
      simp [unplacedDeclarators, declaratorPieces, declaratorPieces_unplaced rest]

theorem branchPieces_unplaced : ∀ (bs : List (Branch Node)) (lead : List Piece),
    branchPieces lead (unplacedBranches bs) = branchPieces lead bs
  | [], _ => rfl
  | ⟨word, some c, body⟩ :: rest, lead => by
      simp [unplacedBranches, branchPieces, pieces_unplaced c, pieces_unplaced body,
        branchPieces_unplaced rest]
  | ⟨word, none, body⟩ :: rest, lead => by
      simp [unplacedBranches, branchPieces, pieces_unplaced body, branchPieces_unplaced rest]

end

end Node

end Scriptlet
