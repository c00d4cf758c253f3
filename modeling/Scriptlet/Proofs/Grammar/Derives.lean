import Scriptlet.Grammar.Expression
import Scriptlet.Proofs.Parse

/-! # The grammar of expressions as a relation

`Derives` says which rows of tokens are expressions, and with which tree, without any
reference to the parsers. Repetitions are written as left recursion, so that the tree of
a row of operands is joined from the left. The number of levels bounds the nesting of a
derivation just as it bounds the parsers; a row is an expression without a bound if it is
one for some number of levels.

As it is usually written down, the grammar lets a member behind an operand of `new`
belong to the operand or to the whole `new` expression. The flag `ambiguous` admits both
readings; without it the member belongs to the operand.
-/

namespace Scriptlet

/-- Does this token open an access of the kind `op`? -/
def Token.Opens (t : Token) (op : AccessOp) : Prop :=
  (t.kind = .operator ∨ t.kind = .separator) ∧ AccessOp.ofSymbol? t.text = some op

namespace Grammar

open Parse

/-- Does this token open an access to a member? -/
def OpensMember (t : Token) : Prop :=
  ∃ op, t.Opens op

/-- The parts of the grammar of expressions, the loosest first. -/
inductive Phrase where
  | expression
  /-- Assignments with commas between them, which a comma node holds together. -/
  | list
  | assignment
  | conditional
  /-- Operands joined by the operators of some levels. -/
  | chain (levels : List (List BinaryOp))
  | operand
  | update
  | call
  | access
  /-- An atom and its members. -/
  | object
  | atom
  deriving DecidableEq

/-- The parts that members can follow. -/
def Phrase.TakesMembers (X : Phrase) : Prop :=
  X = .object ∨ X = .call

/-- The row of tokens is a phrase with this tree, with at most so many levels of nesting
    further in. -/
inductive Derives (ambiguous : Bool) : Nat → Phrase → List Token → Node → Prop where
  | single {d ts n} (only : Derives ambiguous d .assignment ts n) :
      Derives ambiguous d .expression ts n
  | several {d ts ns place} (all : Derives ambiguous d .list ts (.comma ns place))
      (two : 2 ≤ ns.length) : Derives ambiguous d .expression ts (.comma ns place)
  | first {d ts n} (item : Derives ambiguous d .assignment ts n) :
      Derives ambiguous d .list ts (.comma [n] n.location)
  | further {d ts ns place comma us n} (items : Derives ambiguous d .list ts (.comma ns place))
      (separated : comma.isOperator "," = true) (item : Derives ambiguous d .assignment us n) :
      Derives ambiguous d .list (ts ++ comma :: us) (.comma (ns ++ [n]) place)
  | unassigned {d ts n} (value : Derives ambiguous d .conditional ts n) :
      Derives ambiguous d .assignment ts n
  | assigned {d ts n op t us m} (target : Derives ambiguous (d + 1) .conditional ts n)
      (mem : op ∈ BinaryOp.assignments ++ [.lambda]) (spelled : t.Spells op.symbol)
      (value : Derives ambiguous d .assignment us m) :
      Derives ambiguous (d + 1) .assignment (ts ++ t :: us) (.binary op n m t.location)
  | unconditional {d ts n} (value : Derives ambiguous d (.chain binaryLevels) ts n) :
      Derives ambiguous d .conditional ts n
  | ternary {d ts n question us y colon vs z}
      (condition : Derives ambiguous (d + 1) (.chain binaryLevels) ts n)
      (asked : question.isOperator "?" = true) (yes : Derives ambiguous d .conditional us y)
      (divided : colon.isOperator ":" = true) (no : Derives ambiguous d .conditional vs z) :
      Derives ambiguous (d + 1) .conditional (ts ++ question :: us ++ colon :: vs)
        (.ternary n y z question.location)
  | default {d ts n op t us m} (value : Derives ambiguous (d + 1) (.chain binaryLevels) ts n)
      (mem : op ∈ [BinaryOp.elvis, .coalesce]) (spelled : t.Spells op.symbol)
      (other : Derives ambiguous d .conditional us m) :
      Derives ambiguous (d + 1) .conditional (ts ++ t :: us) (.binary op n m t.location)
  | unjoined {d ts n} (value : Derives ambiguous d .operand ts n) :
      Derives ambiguous (d + 1) (.chain []) ts n
  | tighter {d ops levels ts n} (value : Derives ambiguous d (.chain levels) ts n) :
      Derives ambiguous d (.chain (ops :: levels)) ts n
  | joined {d ops levels ts n op t us m} (lhs : Derives ambiguous d (.chain (ops :: levels)) ts n)
      (mem : op ∈ ops) (spelled : t.Spells op.symbol)
      (rhs : Derives ambiguous d (.chain levels) us m) :
      Derives ambiguous d (.chain (ops :: levels)) (ts ++ t :: us) (.binary op n m t.location)
  | unprefixed {d ts n} (value : Derives ambiguous d .update ts n) :
      Derives ambiguous d .operand ts n
  | prefixed {d op t ts n} (mem : op ∈ PrefixOp.unary) (spelled : t.Spells op.symbol)
      (value : Derives ambiguous d .operand ts n) :
      Derives ambiguous (d + 1) .operand (t :: ts) (.prefixed op n t.location)
  | unstepped {d ts n} (value : Derives ambiguous d .call ts n) : Derives ambiguous d .update ts n
  | steppedBefore {d op t ts n} (mem : op ∈ PrefixOp.steps) (spelled : t.Spells op.symbol)
      (value : Derives ambiguous d .call ts n) :
      Derives ambiguous d .update (t :: ts) (.prefixed op n t.location)
  | steppedBehind {d op ts n t} (value : Derives ambiguous d .call ts n)
      (spelled : t.isOperator (Step.symbol op) = true) :
      Derives ambiguous d .update (ts ++ [t]) (.postfixed op n t.location)
  | uncalled {d ts n} (value : Derives ambiguous d .access ts n) : Derives ambiguous d .call ts n
  | calledEmpty {d ts n opening closing} (callee : Derives ambiguous d .call ts n)
      (opens : opening.isSeparator '(' = true) (closes : closing.isSeparator ')' = true) :
      Derives ambiguous d .call (ts ++ [opening, closing]) (.call n [] opening.location)
  | called {d ts n opening us args place closing} (callee : Derives ambiguous d .call ts n)
      (opens : opening.isSeparator '(' = true)
      (all : Derives ambiguous d .list us (.comma args place))
      (closes : closing.isSeparator ')' = true) :
      Derives ambiguous d .call (ts ++ opening :: us ++ [closing]) (.call n args opening.location)
  | new {d t ts n} (word : t.isSymbol "new" = true) (value : Derives ambiguous d .access ts n) :
      Derives ambiguous (d + 1) .access (t :: ts) (.prefixed .new n t.location)
  | reached {d ts n} (value : Derives ambiguous d .object ts n) : Derives ambiguous d .access ts n
  | bare {d ts n} (value : Derives ambiguous d .atom ts n) : Derives ambiguous d .object ts n
  | member {d X ts n op t name} (takes : X.TakesMembers) (object : Derives ambiguous d X ts n)
      (reading : n.isNew = true → ambiguous = true) (opens : t.Opens op) (named : op ≠ .index)
      (isName : isName name = true) :
      Derives ambiguous d X (ts ++ [t, name])
        (.access op n (.symbol name.text name.location) t.location)
  | index {d X ts n t us m closing} (takes : X.TakesMembers) (object : Derives ambiguous d X ts n)
      (reading : n.isNew = true → ambiguous = true) (opens : t.Opens .index)
      (property : Derives ambiguous d .expression us m) (closes : closing.isSeparator ']' = true) :
      Derives ambiguous d X (ts ++ t :: us ++ [closing]) (.access .index n m t.location)
  | paren {d opening ts n closing} (opens : opening.isSeparator '(' = true)
      (inside : Derives ambiguous d .expression ts n) (closes : closing.isSeparator ')' = true) :
      Derives ambiguous d .atom (opening :: ts ++ [closing]) (enclose opening.location n)
  | number {d t} (kind : t.kind = .number) :
      Derives ambiguous d .atom [t] (.number (Numeral.value t.text.toList) t.text t.location)
  | string {d t} (kind : t.kind = .string) :
      Derives ambiguous d .atom [t] (.string (Text.Quoted.decode t.text) t.text t.location)
  | name {d t} (isName : isName t = true) :
      Derives ambiguous d .atom [t] (.symbol t.text t.location)

namespace Derives

variable {ambiguous : Bool} {d : Nat} {X : Phrase} {ts : List Token} {n : Node}

/-- Another level of nesting does no harm. -/
theorem succ (h : Derives ambiguous d X ts n) : Derives ambiguous (d + 1) X ts n := by
  induction h with
  | single _ ih => exact .single ih
  | several _ two ih => exact .several ih two
  | first _ ih => exact .first ih
  | further _ separated _ ihs ih => exact .further ihs separated ih
  | unassigned _ ih => exact .unassigned ih
  | assigned _ mem spelled _ iht ihv => exact .assigned iht mem spelled ihv
  | unconditional _ ih => exact .unconditional ih
  | ternary _ asked _ divided _ ihc ihy ihn => exact .ternary ihc asked ihy divided ihn
  | default _ mem spelled _ ihv iho => exact .default ihv mem spelled iho
  | unjoined _ ih => exact .unjoined ih
  | tighter _ ih => exact .tighter ih
  | joined _ mem spelled _ ihl ihr => exact .joined ihl mem spelled ihr
  | unprefixed _ ih => exact .unprefixed ih
  | prefixed mem spelled _ ih => exact .prefixed mem spelled ih
  | unstepped _ ih => exact .unstepped ih
  | steppedBefore mem spelled _ ih => exact .steppedBefore mem spelled ih
  | steppedBehind _ spelled ih => exact .steppedBehind ih spelled
  | uncalled _ ih => exact .uncalled ih
  | calledEmpty _ opens closes ih => exact .calledEmpty ih opens closes
  | called _ opens _ closes ihc iha => exact .called ihc opens iha closes
  | new word _ ih => exact .new word ih
  | reached _ ih => exact .reached ih
  | bare _ ih => exact .bare ih
  | member takes _ reading opens named isName ih =>
      exact .member takes ih reading opens named isName
  | index takes _ reading opens _ closes iho ihp =>
      exact .index takes iho reading opens ihp closes
  | paren opens _ closes ih => exact .paren opens ih closes
  | number kind => exact .number kind
  | string kind => exact .string kind
  | name isName => exact .name isName

theorem mono {e : Nat} (h : Derives ambiguous d X ts n) (le : d ≤ e) :
    Derives ambiguous e X ts n := by
  induction le with
  | refl => exact h
  | step _ ih => exact ih.succ

/-- A single operand is a chain of operands. -/
theorem chain_of_operand (h : Derives ambiguous d .operand ts n) (levels : List (List BinaryOp)) :
    Derives ambiguous (d + 1) (.chain levels) ts n := by
  induction levels with
  | nil => exact .unjoined h
  | cons ops levels ih => exact .tighter ih

theorem expression_of_call (h : Derives ambiguous d .call ts n) :
    Derives ambiguous (d + 1) .expression ts n :=
  .single (.unassigned (.unconditional
    (chain_of_operand (.unprefixed (.unstepped h)) binaryLevels)))

end Derives

end Grammar

end Scriptlet
