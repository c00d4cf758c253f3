import Scriptlet.Node

/-! # Trees as text

A tree is written as a row of pieces: lexemes, and blanks where the layout wants
them. `render` puts pieces side by side and keeps operators apart that would
otherwise run into one.
-/

namespace Scriptlet

/-- What a written tree consists of. -/
inductive Piece where
  | blank
  | lexeme (l : Lexeme)
  deriving Repr, DecidableEq

namespace Piece

def operator (text : String) : Piece := .lexeme (.operator text)

def symbol (text : String) : Piece := .lexeme (.symbol text)

def separator (c : Char) : Piece := .lexeme (.separator c)

def characters : Piece → List Char
  | blank => [' ']
  | lexeme l => l.text.toList

/-- The lexemes among pieces, in order. -/
def lexemes (pieces : List Piece) : List Lexeme :=
  pieces.filterMap fun
    | blank => none
    | lexeme l => some l

/-- Would two characters side by side belong to one operator? -/
def touch (last next : Option Char) : Bool :=
  last.any CharClass.isOperator && next.any CharClass.isOperator

/-- Write pieces behind a text that ends in `last`. -/
def renderAfter (last : Option Char) : List Piece → List Char
  | [] => []
  | piece :: rest =>
      let cs := piece.characters
      let gap := if touch last cs.head? then [' '] else []
      gap ++ cs ++ renderAfter (cs.getLast?.or last) rest

/-- Write pieces. -/
def render (pieces : List Piece) : String :=
  String.ofList (renderAfter none pieces)

/-- Put pieces in parentheses. -/
def parenthesized (pieces : List Piece) : List Piece :=
  separator '(' :: pieces ++ [separator ')']

/-- Put pieces in parentheses if `needed`. -/
def guarded (needed : Bool) (pieces : List Piece) : List Piece :=
  if needed then parenthesized pieces else pieces

/-- An operator between its operands, set apart if it is spelled with letters. -/
def between (symbol : String) : List Piece :=
  let l := operatorLexeme symbol
  if l.kind = .symbol then [blank, lexeme l, blank] else [lexeme l]

/-- An operator before its operand, set apart if it is spelled with letters. -/
def before (symbol : String) : List Piece :=
  let l := operatorLexeme symbol
  if l.kind = .symbol then [lexeme l, blank] else [lexeme l]

end Piece

/-- The words that introduce an arm, as pieces. -/
def BranchWord.pieces : BranchWord → List Piece
  | .elseIf => [.symbol "else", .blank, .symbol "if"]
  | word => [.symbol word.text]

/-- How an access begins: the bracket of an index is a separator. -/
def AccessOp.piece : AccessOp → Piece
  | .index => .separator '['
  | op => .operator op.symbol

namespace Node

open Piece

/-- Must a node stand in parentheses where only one expression of a list fits? -/
def isCommaLoose (n : Node) : Bool :=
  n.precedence ≥ Precedence.comma

mutual

/-- The pieces that a node is written with. An operand stands in parentheses if it
    would be read otherwise without them. -/
def pieces : Node → List Piece
  | empty _ => [separator ';']
  | block body _ => separator '\x7b' :: bodyPieces body ++ [separator '\x7d']
  | expression expr _ => expr.pieces ++ [separator ';']
  | var declarators _ =>
      Piece.symbol "var" :: blank :: declaratorPieces [] declarators ++ [separator ';']
  | chain branches _ => branchPieces [] branches
  | comma exprs _ => itemPieces [] [operator ","] exprs
  | paren expr _ => parenthesized expr.pieces
  | prefixed op operand _ =>
      Piece.before op.symbol ++ guarded (operand.precedence > op.operandLimit) operand.pieces
  | postfixed op operand _ =>
      guarded (operand.precedence > Precedence.call) operand.pieces ++ [operator op.symbol]
  | binary op lhs rhs _ =>
      let right := op.isRightAssociative
      let looseLeft := lhs.precedence > op.precedence ||
        (lhs.precedence == op.precedence && right)
      let looseRight := rhs.precedence > op.precedence ||
        (rhs.precedence == op.precedence && !right)
      guarded looseLeft lhs.pieces ++ between op.symbol ++ guarded looseRight rhs.pieces
  | ternary condition yes no _ =>
      guarded (condition.precedence ≥ Precedence.conditional) condition.pieces ++
        operator "?" :: guarded (yes.precedence > Precedence.conditional) yes.pieces ++
        operator ":" :: guarded (no.precedence > Precedence.conditional) no.pieces
  | call callee args _ =>
      guarded (callee.precedence > Precedence.call) callee.pieces ++
        parenthesized (itemPieces [] [operator ",", blank] args)
  | access op object property _ =>
      guarded (object.isNew || object.precedence > Precedence.call) object.pieces ++
        op.piece :: property.pieces ++ (if op = .index then [separator ']'] else [])
  | number _ text _ => [lexeme ⟨.number, text⟩]
  | string _ text _ => [lexeme ⟨.string, text⟩]
  | symbol name _ => [Piece.symbol name]

/-- Statements one after the other, each followed by a blank. -/
def bodyPieces : List Node → List Piece
  | [] => []
  | n :: rest => n.pieces ++ blank :: bodyPieces rest

/-- Expressions of a list, `lead` before the first and `sep` before the others. -/
def itemPieces (lead sep : List Piece) : List Node → List Piece
  | [] => []
  | n :: rest => lead ++ guarded n.isCommaLoose n.pieces ++ itemPieces sep sep rest

/-- Declared names and their values, `lead` before the first of them. -/
def declaratorPieces (lead : List Piece) : List (Declarator Node) → List Piece
  | [] => []
  | ⟨name, value, _⟩ :: rest =>
      lead ++ Piece.symbol name ::
        (match value with
          | some v => blank :: operator "=" :: blank :: guarded v.isCommaLoose v.pieces
          | none => []) ++
        declaratorPieces [operator ",", blank] rest

/-- The arms of an `if` statement, `lead` before the first of them. -/
def branchPieces (lead : List Piece) : List (Branch Node) → List Piece
  | [] => []
  | ⟨word, condition, body⟩ :: rest =>
      lead ++ word.pieces ++
        (match condition with
          | some c => blank :: parenthesized c.pieces
          | none => []) ++
        blank :: body.pieces ++ branchPieces [blank] rest

end

/-- The text of a node. -/
def text (n : Node) : String :=
  render n.pieces

end Node

/-- The statements of a whole text. -/
abbrev Program := List Node

/-- A program is written one statement on a line. -/
def Program.text (program : Program) : String :=
  String.join (program.map fun n => n.text ++ "\n")

end Scriptlet
