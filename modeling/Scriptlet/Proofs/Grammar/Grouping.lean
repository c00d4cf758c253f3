import Scriptlet.Proofs.Grammar.StatesPrinting
import Scriptlet.Proofs.Grammar.StatesSoundness
import Scriptlet.Proofs.Node.Names
import Scriptlet.Proofs.RoundTrip.Tokens

/-! # Parsed trees need no further parentheses

In a tree that was parsed every operand holds together tightly enough to stand where it does.
So when the tree is written, the only parentheses are those that stand in the tree, those of
calls and those of conditions.
-/

namespace Scriptlet

namespace Node

/-- Is there a call among the objects that a member belongs to? Parentheses and indices are
    not looked into. -/
def chainsCall : Node → Bool
  | .call _ _ _ => true
  | .access _ object _ _ => object.chainsCall
  | _ => false

/-- The parts of a node hold together tightly enough to stand where they do. -/
def Grouped : Node → Prop
  | .binary op lhs rhs _ =>
      if op.isRightAssociative then
        lhs.precedence < op.precedence ∧ rhs.precedence ≤ op.precedence
      else lhs.precedence ≤ op.precedence ∧ rhs.precedence < op.precedence
  | .ternary condition yes no _ =>
      condition.precedence < Precedence.conditional ∧
        yes.precedence ≤ Precedence.conditional ∧ no.precedence ≤ Precedence.conditional
  | .comma exprs _ => ∀ n ∈ exprs, n.precedence ≤ Precedence.assignment
  | .call callee args _ =>
      callee.precedence ≤ Precedence.call ∧ ∀ n ∈ args, n.precedence ≤ Precedence.assignment
  | .var declarators _ =>
      ∀ x ∈ declarators, ∀ v ∈ x.value, v.precedence ≤ Precedence.assignment
  | .postfixed _ operand _ | .prefixed (.step _) operand _ =>
      operand.precedence ≤ Precedence.call
  | .prefixed .new operand _ =>
      operand.precedence ≤ Precedence.member ∧ operand.chainsCall = false
  | .prefixed _ operand _ => operand.precedence ≤ Precedence.unary
  | .access _ object _ _ => object.precedence ≤ Precedence.call ∧ object.isNew = false
  | _ => True

/-! ## Counting parentheses -/

/-- How many parentheses a node opens itself: those that it consists of, those of a call, and
    those of conditions. -/
def ownParens : Node → Nat
  | .paren _ _ | .call _ _ _ => 1
  | .chain branches _ => branches.countP (·.condition.isSome)
  | _ => 0

end Node

namespace Piece

/-- How many parentheses are opened. -/
def opened (ps : List Piece) : Nat :=
  ps.count (separator '(')

@[simp] theorem opened_nil : opened [] = 0 := rfl

@[simp] theorem opened_append (ps qs : List Piece) : opened (ps ++ qs) = opened ps + opened qs :=
  List.count_append

@[simp] theorem opened_blank (ps : List Piece) : opened (blank :: ps) = opened ps := by
  simp [opened, separator]

theorem opened_lexeme {l : Lexeme} (apart : l ≠ .separator '(') (ps : List Piece) :
    opened (lexeme l :: ps) = opened ps :=
  List.count_cons_of_ne (by simpa [separator] using apart)

@[simp] theorem opened_operator (text : String) (ps : List Piece) :
    opened (operator text :: ps) = opened ps :=
  opened_lexeme (l := .operator text) nofun ps

@[simp] theorem opened_symbol (text : String) (ps : List Piece) :
    opened (symbol text :: ps) = opened ps :=
  opened_lexeme (l := .symbol text) nofun ps

theorem opened_separator {c : Char} (apart : c ≠ '(') (ps : List Piece) :
    opened (separator c :: ps) = opened ps := by
  refine opened_lexeme (fun same => apart ?_) ps
  have text := congrArg Lexeme.text same
  simpa only [Lexeme.separator, Char.toString, String.singleton_inj] using text

@[simp] theorem opened_parenthesized (ps : List Piece) :
    opened (parenthesized ps) = opened ps + 1 := by
  simp [parenthesized, opened, List.count_append, separator, Lexeme.separator]

theorem operatorLexeme_ne_separator (text : String) (c : Char) :
    operatorLexeme text ≠ .separator c := by
  unfold operatorLexeme
  split <;> nofun

@[simp] theorem opened_between (text : String) : opened (between text) = 0 := by
  have apart := operatorLexeme_ne_separator text '('
  simp only [between]
  split <;> simp [opened_lexeme apart]

@[simp] theorem opened_before (text : String) : opened (before text) = 0 := by
  have apart := operatorLexeme_ne_separator text '('
  simp only [before]
  split <;> simp [opened_lexeme apart]

@[simp] theorem opened_word (word : BranchWord) : opened word.pieces = 0 := by
  cases word <;> simp [BranchWord.pieces]

@[simp] theorem opened_access (op : AccessOp) (ps : List Piece) :
    opened (op.piece :: ps) = opened ps := by
  cases op with
  | index => exact opened_separator (by decide) ps
  | _ => exact opened_operator _ ps

end Piece

namespace Node

open Piece

variable {P : Node → Prop}

/-- How many parentheses the nodes open themselves. -/
def parens : List Node → Nat
  | [] => 0
  | n :: ns => n.ownParens + parens ns

@[simp] theorem parens_nil : parens [] = 0 := rfl

@[simp] theorem parens_cons (n : Node) (ns : List Node) :
    parens (n :: ns) = n.ownParens + parens ns := rfl

@[simp] theorem parens_append (ns ms : List Node) : parens (ns ++ ms) = parens ns + parens ms := by
  induction ns with
  | nil => simp
  | cons n ns ih => simp [ih, Nat.add_assoc]

mutual

/-- Where all nodes are grouped, they alone open the parentheses that a tree is written
    with. -/
theorem opened_pieces : ∀ n : Node, (∀ m ∈ n.subnodes, m.Grouped) →
    opened n.pieces = parens n.subnodes
  | .empty _, _ => opened_separator (by decide) _
  | .number _ text _, _ => opened_lexeme (l := ⟨.number, text⟩) nofun _
  | .string _ text _, _ => opened_lexeme (l := ⟨.string, text⟩) nofun _
  | .symbol _ _, _ => opened_symbol _ _
  | .block body _, h => by
      simp only [subnodes, List.forall_mem_cons] at h
      simp [pieces, subnodes, ownParens, opened_separator, opened_bodyPieces body h.2]
  | .expression expr _, h => by
      simp only [subnodes, List.forall_mem_cons] at h
      simp [pieces, subnodes, ownParens, opened_separator, opened_pieces expr h.2]
  | .var declarators _, h => by
      simp only [subnodes, List.forall_mem_cons] at h
      simp [pieces, subnodes, ownParens, opened_separator,
        opened_declaratorPieces declarators [] rfl h.1 h.2]
  | .chain branches _, h => by
      simp only [subnodes, List.forall_mem_cons] at h
      simp [pieces, subnodes, ownParens, opened_branchPieces branches [] rfl h.2]
  | .comma exprs _, h => by
      simp only [subnodes, List.forall_mem_cons] at h
      simp [pieces, subnodes, ownParens,
        opened_itemPieces exprs [] [operator ","] rfl (by simp) h.1 h.2]
  | .paren expr _, h => by
      simp only [subnodes, List.forall_mem_cons] at h
      simp [pieces, subnodes, ownParens, opened_pieces expr h.2, Nat.add_comm]
  | .prefixed op operand _, h => by
      simp only [subnodes, List.forall_mem_cons] at h
      have tight : operand.precedence ≤ op.operandLimit := by
        cases op with
        | new => exact h.1.1
        | _ => exact h.1
      simp [pieces_prefixed tight, subnodes, ownParens, opened_pieces operand h.2]
  | .postfixed op operand _, h => by
      simp only [subnodes, List.forall_mem_cons] at h
      simp [pieces_postfixed h.1, subnodes, ownParens, opened_pieces operand h.2]
  | .binary op lhs rhs place, h => by
      simp only [subnodes, List.forall_mem_cons, List.forall_mem_append] at h
      have written : (binary op lhs rhs place).pieces =
          lhs.pieces ++ between op.symbol ++ rhs.pieces := by
        have own := h.1
        rw [Grouped] at own
        split at own
        · next groups => exact pieces_binary_right own.1 own.2 groups
        · next groups => exact pieces_binary_left own.1 own.2 (by simpa using groups)
      simp [written, subnodes, ownParens, opened_pieces lhs h.2.1, opened_pieces rhs h.2.2]
  | .ternary condition yes no _, h => by
      simp only [subnodes, List.forall_mem_cons, List.forall_mem_append] at h
      simp [pieces_ternary h.1.1 h.1.2.1 h.1.2.2, subnodes, ownParens,
        opened_pieces condition h.2.1.1, opened_pieces yes h.2.1.2, opened_pieces no h.2.2]
  | .call callee args _, h => by
      simp only [subnodes, List.forall_mem_cons, List.forall_mem_append] at h
      simp [pieces_call h.1.1, subnodes, ownParens, opened_pieces callee h.2.1,
        opened_itemPieces args [] [operator ",", blank] rfl (by simp) h.1.2 h.2.2]
      omega
  | .access op object property _, h => by
      simp only [subnodes, List.forall_mem_cons, List.forall_mem_append] at h
      have closing : opened (if op = .index then [separator ']'] else []) = 0 := by
        split <;> simp [opened_separator]
      simp [pieces_access h.1.2 h.1.1, subnodes, ownParens, closing, opened_pieces object h.2.1,
        opened_pieces property h.2.2]

theorem opened_bodyPieces : ∀ ns : List Node, (∀ m ∈ subnodesAll ns, m.Grouped) →
    opened (bodyPieces ns) = parens (subnodesAll ns)
  | [], _ => rfl
  | n :: rest, h => by
      simp only [subnodesAll, List.forall_mem_append] at h
      simp [bodyPieces, subnodesAll, opened_pieces n h.1, opened_bodyPieces rest h.2]

theorem opened_itemPieces : ∀ (ns : List Node) (lead sep : List Piece), opened lead = 0 →
    opened sep = 0 → (∀ n ∈ ns, n.precedence ≤ Precedence.assignment) →
    (∀ m ∈ subnodesAll ns, m.Grouped) →
    opened (itemPieces lead sep ns) = parens (subnodesAll ns)
  | [], _, _, _, _, _, _ => rfl
  | n :: rest, lead, sep, noneLeads, noneBetween, tight, h => by
      simp only [subnodesAll, List.forall_mem_append] at h
      simp only [List.forall_mem_cons] at tight
      simp [itemPieces, subnodesAll, Grammar.isCommaLoose_of_le tight.1, noneLeads,
        opened_pieces n h.1, opened_itemPieces rest sep sep noneBetween noneBetween tight.2 h.2]

theorem opened_declaratorPieces : ∀ (xs : List (Declarator Node)) (lead : List Piece),
    opened lead = 0 → (∀ x ∈ xs, ∀ v ∈ x.value, v.precedence ≤ Precedence.assignment) →
    (∀ m ∈ subnodesDeclarators xs, m.Grouped) →
    opened (declaratorPieces lead xs) = parens (subnodesDeclarators xs)
  | [], _, _, _, _ => rfl
  | ⟨name, none, _⟩ :: rest, lead, noneLeads, tight, h => by
      simp only [List.forall_mem_cons] at tight
      simp [declaratorPieces, subnodesDeclarators, noneLeads,
        opened_declaratorPieces rest [operator ",", blank] (by simp) tight.2 h]
  | ⟨name, some v, _⟩ :: rest, lead, noneLeads, tight, h => by
      simp only [subnodesDeclarators, List.forall_mem_append] at h
      simp only [List.forall_mem_cons] at tight
      simp [declaratorPieces, subnodesDeclarators, noneLeads,
        Grammar.isCommaLoose_of_le (tight.1 v rfl), opened_pieces v h.1,
        opened_declaratorPieces rest [operator ",", blank] (by simp) tight.2 h.2]

theorem opened_branchPieces : ∀ (bs : List (Branch Node)),
    ∀ lead : List Piece, opened lead = 0 → (∀ m ∈ subnodesBranches bs, m.Grouped) →
    opened (branchPieces lead bs) =
      bs.countP (·.condition.isSome) + parens (subnodesBranches bs)
  | [], _, _, _ => rfl
  | ⟨word, none, body⟩ :: rest, lead, noneLeads, h => by
      simp only [subnodesBranches, List.forall_mem_append] at h
      simp [branchPieces, subnodesBranches, noneLeads, opened_pieces body h.1,
        opened_branchPieces rest [blank] (by simp) h.2]
      omega
  | ⟨word, some c, body⟩ :: rest, lead, noneLeads, h => by
      simp only [subnodesBranches, List.forall_mem_append] at h
      simp [branchPieces, subnodesBranches, noneLeads, opened_pieces c h.1.1,
        opened_pieces body h.1.2, opened_branchPieces rest [blank] (by simp) h.2]
      omega

end

end Node

namespace Grammar

open Node

variable {d : Nat} {X : Phrase} {ts : List Token} {n : Node}

/-! ## Derived expressions -/

/-- The parts of the grammar that no call belongs to. -/
def Phrase.Uncalled (X : Phrase) : Prop :=
  X ∈ [.access, .object, .atom]

theorem Derives.chainsCall_eq_false (h : Derives false d X ts n) (uncalled : X.Uncalled) :
    n.chainsCall = false := by
  induction h with
  | reached _ ih => exact ih (by simp [Phrase.Uncalled])
  | bare _ ih => exact ih (by simp [Phrase.Uncalled])
  | member takes _ _ _ _ _ ih | index takes _ _ _ _ _ ih _ => exact ih uncalled
  | paren =>
      unfold enclose
      split <;> rfl
  | new | number | string | name => rfl
  | _ => simp [Phrase.Uncalled] at uncalled

theorem grouped_prefixed_unary {op : PrefixOp} {place : Location} (mem : op ∈ PrefixOp.unary)
    (tight : n.precedence ≤ Precedence.unary) : (prefixed op n place).Grouped := by
  cases op with
  | new | step => simp [PrefixOp.unary] at mem
  | _ => exact tight

theorem grouped_prefixed_step {op : PrefixOp} {place : Location} (mem : op ∈ PrefixOp.steps)
    (tight : n.precedence ≤ Precedence.call) : (prefixed op n place).Grouped := by
  cases op with
  | step => exact tight
  | _ => simp [PrefixOp.steps, Step.all] at mem

/-- Every node of a derived tree is grouped. -/
theorem Derives.grouped (h : Derives false d X ts n) (sorted : X.Sorted) :
    ∀ m ∈ n.subnodes, m.Grouped := by
  induction h with
  | single _ ih | unassigned _ ih | unprefixed _ ih | unstepped _ ih | uncalled _ ih
  | reached _ ih | bare _ ih | unjoined _ ih | several _ _ ih => exact ih trivial
  | unconditional _ ih => exact ih ordered_binaryLevels
  | tighter _ ih => exact ih sorted.2.2
  | first item ih =>
      simp only [subnodes, subnodesAll, List.append_nil, List.forall_mem_cons]
      exact ⟨List.forall_mem_singleton.mpr (item.precedence_le trivial), ih trivial⟩
  | further items _ item ihs ih =>
      have all := ihs trivial
      simp only [subnodes, List.forall_mem_cons] at all
      simp only [subnodes, subnodesAll_append, subnodesAll, List.append_nil,
        List.forall_mem_cons, List.forall_mem_append]
      exact ⟨List.forall_mem_append.mpr
        ⟨all.1, List.forall_mem_singleton.mpr (item.precedence_le trivial)⟩, all.2, ih trivial⟩
  | @assigned d ts n op t us m target mem _ value iht ihv =>
      obtain ⟨precedence, groups⟩ := precedence_assignments _ mem
      have left := Nat.lt_of_le_of_lt (target.precedence_le trivial)
        (by decide : Precedence.conditional < Precedence.assignment)
      have right := value.precedence_le trivial
      simp only [subnodes, List.forall_mem_cons, List.forall_mem_append, Grouped, groups, if_true,
        precedence]
      exact ⟨⟨left, right⟩, iht trivial, ihv trivial⟩
  | ternary condition _ yes _ no ihc ihy ihn =>
      have tight := Nat.lt_of_le_of_lt (condition.precedence_le ordered_binaryLevels)
        (by decide : Phrase.limit (.chain binaryLevels) < Precedence.conditional)
      simp only [subnodes, List.forall_mem_cons, List.forall_mem_append]
      exact ⟨⟨tight, yes.precedence_le trivial, no.precedence_le trivial⟩,
        ⟨ihc ordered_binaryLevels, ihy trivial⟩, ihn trivial⟩
  | @default d ts n op t us m value mem _ other ihv iho =>
      obtain ⟨precedence, groups⟩ := precedence_defaults _ mem
      have left := Nat.lt_of_le_of_lt (value.precedence_le ordered_binaryLevels)
        (by decide : Phrase.limit (.chain binaryLevels) < Precedence.conditional)
      have right := other.precedence_le trivial
      simp only [subnodes, List.forall_mem_cons, List.forall_mem_append, Grouped, groups, if_true,
        precedence]
      exact ⟨⟨left, right⟩, ihv ordered_binaryLevels, iho trivial⟩
  | @joined d ops levels ts n op t us m lhs mem _ rhs ihl ihr =>
      obtain ⟨precedence, groups⟩ := sorted.2.1 _ mem
      have left := lhs.precedence_le sorted
      have right := Nat.lt_of_le_of_lt (rhs.precedence_le sorted.2.2) sorted.1
      simp only [subnodes, List.forall_mem_cons, List.forall_mem_append, Grouped, groups,
        Bool.false_eq_true, if_false, precedence]
      exact ⟨⟨left, right⟩, ihl sorted, ihr sorted.2.2⟩
  | prefixed mem _ value ih =>
      exact List.forall_mem_cons.mpr
        ⟨grouped_prefixed_unary mem (value.precedence_le trivial), ih trivial⟩
  | steppedBefore mem _ value ih =>
      exact List.forall_mem_cons.mpr
        ⟨grouped_prefixed_step mem (value.precedence_le trivial), ih trivial⟩
  | steppedBehind value _ ih =>
      exact List.forall_mem_cons.mpr ⟨value.precedence_le trivial, ih trivial⟩
  | calledEmpty callee _ _ ih =>
      simp only [subnodes, subnodesAll, List.append_nil, List.forall_mem_cons]
      exact ⟨⟨callee.precedence_le trivial, nofun⟩, ih trivial⟩
  | called callee _ _ _ ihc iha =>
      have all := iha trivial
      simp only [subnodes, List.forall_mem_cons] at all
      simp only [subnodes, List.forall_mem_cons, List.forall_mem_append]
      exact ⟨⟨callee.precedence_le trivial, all.1⟩, ihc trivial, all.2⟩
  | new _ value ih =>
      exact List.forall_mem_cons.mpr ⟨⟨value.precedence_le trivial,
        value.chainsCall_eq_false (by simp [Phrase.Uncalled])⟩, ih trivial⟩
  | member takes object reading _ _ _ ih =>
      have tight := Nat.le_trans (object.precedence_le takes.sorted) takes.limit_le
      simp only [subnodes, List.forall_mem_cons, List.forall_mem_append]
      exact ⟨⟨tight, by simpa using reading⟩, ih takes.sorted, by simp [Grouped]⟩
  | index takes object reading _ _ _ iho ihp =>
      have tight := Nat.le_trans (object.precedence_le takes.sorted) takes.limit_le
      simp only [subnodes, List.forall_mem_cons, List.forall_mem_append]
      exact ⟨⟨tight, by simpa using reading⟩, iho takes.sorted, ihp trivial⟩
  | paren _ _ _ ih =>
      unfold enclose
      split
      · exact ih trivial
      · exact List.forall_mem_cons.mpr ⟨trivial, ih trivial⟩
  | number | string | name => simp [subnodes, Grouped]

/-! ## Statements and programs -/

theorem Declares.grouped {x : Declarator Node} (h : Declares d ts x) :
    (∀ v ∈ x.value, v.precedence ≤ Precedence.assignment) ∧
      ∀ m ∈ subnodesDeclarators [x], m.Grouped := by
  cases h with
  | bare => exact ⟨nofun, nofun⟩
  | valued _ _ value =>
      have tight : _ ≤ Precedence.assignment := value.precedence_le trivial
      simpa [subnodesDeclarators] using And.intro tight (value.grouped trivial)

theorem Conditions.grouped {c : Node} (h : Conditions d ts c) : ∀ m ∈ c.subnodes, m.Grouped := by
  cases h with
  | paren _ inside _ => exact inside.grouped trivial

/-- Every node of a statement is grouped. -/
theorem States.grouped {strict : Bool} {X : Form} (h : States strict d X ts n) :
    ∀ m ∈ n.subnodes, m.Grouped := by
  induction h with
  | empty | none => simp [subnodes, subnodesAll, Grouped]
  | block _ _ _ ih =>
      simp only [subnodes, List.forall_mem_cons] at ih ⊢
      exact ih
  | next _ _ ihb ihs =>
      simp only [subnodes, subnodesAll_append, subnodesAll, List.append_nil,
        List.forall_mem_cons, List.forall_mem_append] at ihb ⊢
      exact ⟨trivial, ihb.2, ihs⟩
  | var _ _ _ ih =>
      simp only [subnodes, List.forall_mem_cons] at ih ⊢
      exact ih
  | declared item =>
      simp only [subnodes, List.forall_mem_cons]
      exact ⟨by simpa [Grouped] using item.grouped.1, item.grouped.2⟩
  | alsoDeclared _ _ item ih =>
      obtain ⟨tight, all⟩ := item.grouped
      simp only [subnodes, subnodesDeclarators_append, List.forall_mem_cons,
        List.forall_mem_append] at ih ⊢
      refine ⟨?_, ih.2, all⟩
      simpa only [Grouped, List.forall_mem_append, List.forall_mem_singleton] using
        And.intro ih.1 tight
  | ifArm _ condition _ ih =>
      simp only [subnodes, subnodesBranches, List.append_nil, List.forall_mem_cons,
        List.forall_mem_append]
      exact ⟨trivial, condition.grouped, ih⟩
  | elseArm _ _ _ _ condition _ iha ihb =>
      simp only [subnodes, subnodesBranches_append, subnodesBranches, List.append_nil,
        List.forall_mem_cons, List.forall_mem_append] at iha ⊢
      exact ⟨trivial, iha.2, condition.grouped, ihb⟩
  | armed _ ih => exact ih
  | otherwise _ _ _ _ _ iha ihb =>
      simp only [subnodes, subnodesBranches_append, subnodesBranches, List.append_nil,
        List.forall_mem_cons, List.forall_mem_append] at iha ⊢
      exact ⟨trivial, iha.2, ihb⟩
  | expression value _ => exact List.forall_mem_cons.mpr ⟨trivial, value.grouped trivial⟩

end Grammar

/-- In an accepted program every node is grouped: no part of a node is looser than its place
    allows. So each parenthesis that the program is written with is that of a node in
    parentheses, of a call or of a condition. -/
theorem Parse.program_grouped {source : Source} {p : Program} {rest : Tokens}
    (accepted : Parse.program (.ofSource source) = .ok p rest) :
    ∀ n ∈ p, (∀ m ∈ n.subnodes, m.Grouped) ∧
      Piece.opened n.pieces = Node.parens n.subnodes := by
  intro n mem
  have all := (Grammar.program_takes accepted).2.grouped
  simp only [Node.subnodes, List.forall_mem_cons] at all
  have grouped := Node.forall_mem_subnodesAll.mp all.2 n mem
  exact ⟨grouped, n.opened_pieces grouped⟩

/-- Four parentheses: of a condition, of two calls, one of them inside an index behind `new`,
    and of an expression. -/
theorem Parse.program_grouped_new :
    let source := Source.ofString "if (a) new new b[c()].d(e)++ - (f, g) ?: h ? -k : l = m"
    ∃ p rest, Parse.program (.ofSource source) = .ok p rest ∧
      (∀ n ∈ p, (∀ m ∈ n.subnodes, m.Grouped) ∧
        Piece.opened n.pieces = Node.parens n.subnodes) ∧
      p.map (fun n => Piece.opened n.pieces) = [4] := by
  intro source
  obtain ⟨p, rest, accepted, opened⟩ := Parse.exists_of_accepts (s := .ofSource source)
    (fun p => p.map (fun n => Piece.opened n.pieces) = [4]) (by decide +kernel)
  exact ⟨p, rest, accepted, Parse.program_grouped accepted, by simpa using opened⟩

end Scriptlet
