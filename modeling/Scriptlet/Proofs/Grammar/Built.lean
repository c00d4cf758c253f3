import Scriptlet.Proofs.Grammar.Expression
import Scriptlet.Proofs.Grammar.Regrouped

/-! # Reading what built trees are written as

A program may put a tree together that no text is parsed to. With all parentheses in place it is
one that a text is parsed to: every operand is a phrase that can stand where it does. So what the
tree is written as is parsed to a tree that is the same apart from parentheses and places,
unless a `new` in it loses a call.
-/

namespace Scriptlet

open Grammar Parse

namespace Grammar

/-! ## The order of phrases -/

/-- The phrases that single expressions are, each of which the next one includes. -/
def ladder : List Phrase :=
  [.atom, .object, .access, .call, .update, .operand] ++
    (binaryLevels.tails.reverse.map .chain ++ [.conditional, .assignment, .expression])

/-- What is an `X` is a `Y`, with some levels of nesting more. -/
def Lifts (X Y : Phrase) : Prop :=
  ∃ k, ∀ ⦃d ts n⦄, Derives false d X ts n → Derives false (d + k) Y ts n

theorem Lifts.of_same {X Y : Phrase}
    (step : ∀ ⦃d ts n⦄, Derives false d X ts n → Derives false d Y ts n) : Lifts X Y :=
  ⟨0, step⟩

theorem Lifts.refl (X : Phrase) : Lifts X X :=
  .of_same fun _ _ _ => id

theorem Lifts.trans {X Y Z : Phrase} (first : Lifts X Y) (second : Lifts Y Z) : Lifts X Z := by
  obtain ⟨k, first⟩ := first
  obtain ⟨l, second⟩ := second
  exact ⟨k + l, fun d ts n derived => Nat.add_assoc d k l ▸ second (first derived)⟩

instance : Trans Lifts Lifts Lifts := ⟨Lifts.trans⟩

theorem isChain_levels (levels : List (List BinaryOp)) :
    (levels.tails.reverse.map Phrase.chain).IsChain Lifts := by
  induction levels with
  | nil => simp
  | cons ops levels ih =>
      have last : (levels.tails.reverse.map Phrase.chain).getLast? = some (.chain levels) := by
        cases levels <;> simp
      simp only [List.tails, List.reverse_cons, List.map_append, List.map_cons, List.map_nil]
      refine ih.append (.singleton _) fun X mem Y mem' => ?_
      cases last.symm.trans mem
      cases mem'
      exact .of_same fun _ _ _ => .tighter

theorem isChain_ladder : ladder.IsChain Lifts := by
  have inner : [Phrase.atom, .object, .access, .call, .update, .operand].IsChain Lifts :=
    .cons_cons (.of_same fun _ _ _ => .bare) <| .cons_cons (.of_same fun _ _ _ => .reached) <|
    .cons_cons (.of_same fun _ _ _ => .uncalled) <|
    .cons_cons (.of_same fun _ _ _ => .unstepped) <|
    .cons_cons (.of_same fun _ _ _ => .unprefixed) <| .singleton _
  have outer : [Phrase.conditional, .assignment, .expression].IsChain Lifts :=
    .cons_cons (.of_same fun _ _ _ => .unassigned) <|
    .cons_cons (.of_same fun _ _ _ => .single) <| .singleton _
  refine inner.append ((isChain_levels binaryLevels).append outer fun X mem Y mem' => ?_)
    fun X mem Y mem' => ?_
  · cases mem
    cases mem'
    exact .of_same fun _ _ _ => .unconditional
  · cases mem
    cases mem'
    exact ⟨1, fun _ _ _ => .unjoined⟩

theorem pairwise_ladder : ladder.Pairwise Lifts :=
  isChain_ladder.pairwise

/-- Apart from two pairs of phrases that are equally loose, the limits order the phrases. -/
theorem sublist_ladder : ∀ X ∈ ladder, ∀ Y ∈ ladder, X ≠ .chain [] → Y ≠ .object →
    X.limit ≤ Y.limit → X = Y ∨ [X, Y].Sublist ladder := by
  decide +kernel

theorem lifts_of_limit_le {X Y : Phrase} (memX : X ∈ ladder) (memY : Y ∈ ladder)
    (notChain : X ≠ .chain []) (notObject : Y ≠ .object) (le : X.limit ≤ Y.limit) :
    Lifts X Y := by
  obtain rfl | sub := sublist_ladder X memX Y memY notChain notObject le
  · exact .refl X
  · exact List.rel_of_pairwise_cons (pairwise_ladder.sublist sub) (.head _)

end Grammar

/-! ## The phrase of a node -/

/-- The levels of operators from that of this operator on. -/
def BinaryOp.levels (op : BinaryOp) : List (List BinaryOp) :=
  binaryLevels.dropWhile (op ∉ ·)

/-- The phrase that two operands joined by this operator are. -/
def BinaryOp.phrase (op : BinaryOp) : Phrase :=
  match op with
  | .assign _ | .lambda => .assignment
  | .elvis | .coalesce => .conditional
  | .arith _ | .rel _ | .and | .or => .chain op.levels

/-- The phrase that an operator and its operand behind it are. -/
def PrefixOp.phrase : PrefixOp → Phrase
  | .new => .access
  | .step _ => .update
  | _ => .operand

/-- The phrase that an expression is where all parentheses are in place. -/
def Node.phrase : Node → Phrase
  | .comma _ _ => .expression
  | .prefixed op _ _ => op.phrase
  | .postfixed _ _ _ => .update
  | .binary op _ _ _ => op.phrase
  | .ternary _ _ _ _ => .conditional
  | .call _ _ _ => .call
  | .access _ object _ _ => if object.chainsCall then .call else .object
  | .paren _ _ | .number _ _ _ | .string _ _ _ | .symbol _ _ | .empty _ | .block _ _
  | .expression _ _ | .var _ _ | .chain _ _ => .atom

theorem BinaryOp.phrase_consistent : ∀ op ∈ BinaryOp.all,
    op.phrase ∈ ladder ∧ op.phrase ≠ .chain [] ∧ op.phrase.limit = op.precedence := by
  decide +kernel

theorem PrefixOp.phrase_consistent : ∀ op ∈ PrefixOp.all,
    op.phrase ∈ ladder ∧ op.phrase ≠ .chain [] ∧ op.phrase.limit = op.precedence := by
  decide +kernel

/-- An operator that groups to the left is among those of the first level of its chain, and
    what is tighter is an operand of the levels behind. -/
theorem BinaryOp.levels_consistent : ∀ op ∈ BinaryOp.all, op.isRightAssociative = false →
    op.phrase = .chain op.levels ∧ op ∈ op.levels.headD [] ∧ .chain op.levels.tail ∈ ladder ∧
      ∀ X ∈ ladder, X.limit < op.precedence → X.limit ≤ (Phrase.chain op.levels.tail).limit := by
  decide +kernel

theorem BinaryOp.phrase_of_right : ∀ op ∈ BinaryOp.all, op.isRightAssociative = true →
    (op ∈ [BinaryOp.elvis, .coalesce] ∧ op.phrase = .conditional) ∨
    (op ∈ BinaryOp.assignments ++ [.lambda] ∧ op.phrase = .assignment) := by
  decide +kernel

namespace Node

theorem phrase_mem_ladder (n : Node) : n.phrase ∈ ladder ∧ n.phrase ≠ .chain [] := by
  have fixed : ∀ X ∈ [Phrase.atom, .object, .call, .update, .conditional, .expression],
      X ∈ ladder ∧ X ≠ .chain [] := by
    decide
  cases n with
  | prefixed op => exact ⟨(op.phrase_consistent op.mem_all).1, (op.phrase_consistent op.mem_all).2.1⟩
  | binary op => exact ⟨(op.phrase_consistent op.mem_all).1, (op.phrase_consistent op.mem_all).2.1⟩
  | access op object =>
      rw [phrase]
      split <;> exact fixed _ (by decide)
  | _ =>
      simp only [phrase]
      exact fixed _ (by decide)

/-- What takes no member of what a call returns is a phrase as tight as itself. -/
theorem limit_phrase_le_of_not_chainsCall {n : Node} (free : n.chainsCall = false) :
    n.phrase.limit ≤ n.precedence := by
  cases n with
  | prefixed op => exact Nat.le_of_eq (op.phrase_consistent op.mem_all).2.2
  | binary op => exact Nat.le_of_eq (op.phrase_consistent op.mem_all).2.2
  | access op object =>
      rw [chainsCall] at free
      simp only [phrase, precedence, free]
      decide
  | _ => simp only [phrase, precedence]; decide

theorem phrase_of_chainsCall {n : Node} (chains : n.chainsCall = true) : n.phrase = .call := by
  cases n with
  | call => rfl
  | access op object => exact if_pos chains
  | _ => cases chains

theorem limit_phrase_le (n : Node) : n.phrase.limit ≤ max n.precedence Precedence.call := by
  cases chains : n.chainsCall with
  | true =>
      rw [phrase_of_chainsCall chains]
      exact Nat.le_max_right _ _
  | false => exact Nat.le_trans (limit_phrase_le_of_not_chainsCall chains) (Nat.le_max_left _ _)

theorem isNew_of_phrase {n : Node} (same : n.phrase = .access) : n.isNew = true := by
  cases n with
  | prefixed op => cases op <;> first | rfl | cases same
  | binary op =>
      have apart : ∀ op ∈ BinaryOp.all, op.phrase ≠ .access := by decide +kernel
      exact absurd same (apart op op.mem_all)
  | access op object =>
      rw [phrase] at same
      split at same <;> cases same
  | _ => cases same

/-- What a member belongs to is an object, or what calls can follow. -/
theorem lifts_object {n : Node} (notNew : n.isNew = false)
    (tight : n.precedence ≤ Precedence.call) :
    Lifts n.phrase (if n.chainsCall then .call else .object) := by
  cases chains : n.chainsCall with
  | true =>
      rw [phrase_of_chainsCall chains]
      exact .refl _
  | false =>
      have tighter : n.phrase.limit ≤ Precedence.member := by
        refine Nat.le_trans (limit_phrase_le_of_not_chainsCall chains) (precedence_le_member tight ?_)
        rintro _ _ _ rfl
        cases chains
      have choice : ∀ X ∈ ladder, X.limit ≤ Precedence.member →
          X = .atom ∨ X = .object ∨ X = .access := by
        decide +kernel
      obtain same | same | same := choice _ n.phrase_mem_ladder.1 tighter
      · rw [same]
        exact .of_same fun _ _ _ => .bare
      · rw [same]
        exact .refl _
      · rw [isNew_of_phrase same] at notNew
        cases notNew

end Node

/-! ## Reading back -/

namespace Grammar

variable {X Y : Phrase} {n m : Node} {place : Location} {d : Nat}

/-- With enough levels of nesting, what the tree is written as reads back as this phrase, apart
    from parentheses and places. -/
def Reads (X : Phrase) (n : Node) : Prop :=
  ∃ d, ReadsBack Node.stripped d X n

theorem ReadsBack.mono {e : Nat} (back : ReadsBack Node.stripped d X n) (le : d ≤ e) :
    ReadsBack Node.stripped e X n :=
  back.imp fun _ _ derived => derived.mono le

theorem Reads.lift (reads : Reads X n) (lifts : Lifts X Y) : Reads Y n := by
  obtain ⟨d, back⟩ := reads
  obtain ⟨k, lift⟩ := lifts
  exact ⟨d + k, back.imp fun _ _ => @lift d _ _⟩

/-- Two trees read back with the same levels of nesting. -/
theorem Reads.both (first : Reads X n) (second : Reads Y m) :
    ∃ d, ReadsBack Node.stripped d X n ∧ ReadsBack Node.stripped d Y m := by
  obtain ⟨d, first⟩ := first
  obtain ⟨e, second⟩ := second
  exact ⟨max d e, first.mono (Nat.le_max_left d e), second.mono (Nat.le_max_right d e)⟩

theorem Reads.at (reads : Reads n.phrase n) (mem : Y ∈ ladder) (notObject : Y ≠ .object)
    (le : n.phrase.limit ≤ Y.limit) : Reads Y n :=
  reads.lift (lifts_of_limit_le n.phrase_mem_ladder.1 mem n.phrase_mem_ladder.2 notObject le)

/-- In a phrase that calls belong to, precedence alone decides what reads back. -/
theorem Reads.of_le (reads : Reads n.phrase n) (mem : Y ∈ ladder)
    (loose : Precedence.call ≤ Y.limit) (tight : n.precedence ≤ Y.limit) : Reads Y n := by
  refine reads.at mem ?_ (Nat.le_trans n.limit_phrase_le (Nat.max_le.mpr ⟨tight, loose⟩))
  rintro rfl
  exact absurd loose (by decide)

/-- The same for an operand that is tighter than some `p`. -/
theorem Reads.of_lt {p : Nat} (reads : Reads n.phrase n) (mem : Y ∈ ladder)
    (loose : Precedence.call < p) (tight : n.precedence < p)
    (below : ∀ X ∈ ladder, X.limit < p → X.limit ≤ Y.limit) : Reads Y n := by
  have bound := Nat.lt_of_le_of_lt n.limit_phrase_le (Nat.max_lt.mpr ⟨tight, loose⟩)
  refine reads.at mem ?_ (below _ n.phrase_mem_ladder.1 bound)
  rintro rfl
  exact absurd (below .call (by decide) loose) (by decide)

theorem Reads.paren (inside : Reads .expression n) : Reads .atom (.paren n place) := by
  obtain ⟨d, back⟩ := inside
  refine ⟨d, fun us spells => ?_⟩
  rw [Node.pieces] at spells
  obtain ⟨opening, _, rfl, opens, rest⟩ := spell_lexeme.mp spells
  obtain ⟨us, _, rfl, spellsInside, rest⟩ := spell_append.mp rest
  obtain ⟨closing, rfl, closes⟩ := spell_single.mp rest
  obtain ⟨m, derived, same, -⟩ := back us spellsInside
  have stripped : (enclose opening.location m).stripped = m.stripped := by
    unfold enclose
    split <;> simp [Node.stripped]
  have notNew : (enclose opening.location m).isNew = false := by
    unfold enclose
    split <;> rfl
  exact ⟨_, .paren (beq_iff_eq.mpr opens) derived (beq_iff_eq.mpr closes),
    by rw [stripped, same, Node.stripped], notNew⟩

theorem Reads.prefixed {op : PrefixOp} (tight : n.precedence ≤ op.operandLimit)
    (operand : Reads Y n)
    (step : ∀ d t us n', t.toLexeme = operatorLexeme op.symbol → Derives false d Y us n' →
      Derives false (d + 1) X (t :: us) (.prefixed op n' t.location)) :
    Reads X (.prefixed op n place) := by
  obtain ⟨d, back⟩ := operand
  exact ⟨d + 1, .prefixed Node.view_stripped tight back (step d)⟩

theorem Reads.new (tight : n.precedence ≤ Precedence.member) (free : n.chainsCall = false)
    (operand : Reads n.phrase n) : Reads .access (.prefixed .new n place) := by
  have le := Nat.le_trans (Node.limit_phrase_le_of_not_chainsCall free) tight
  have operand : Reads .access n := operand.at (by decide) (by decide) le
  exact .prefixed tight operand fun _ _ _ _ same value => .new (beq_iff_eq.mpr same) value

theorem Reads.step {op : Step} (tight : n.precedence ≤ Precedence.call)
    (operand : Reads n.phrase n) : Reads .update (.prefixed (.step op) n place) := by
  have operand : Reads .call n := operand.of_le (by decide) (by decide) tight
  have mem : PrefixOp.step op ∈ PrefixOp.steps := by cases op <;> decide
  exact .prefixed tight operand fun _ _ _ _ same value =>
    (Derives.steppedBefore mem (spells_of_toLexeme same) value).succ

theorem Reads.unary {op : PrefixOp} (mem : op ∈ PrefixOp.unary)
    (tight : n.precedence ≤ Precedence.unary) (operand : Reads n.phrase n) :
    Reads .operand (.prefixed op n place) := by
  have operand : Reads .operand n := operand.of_le (by decide) (by decide) tight
  refine .prefixed ?_ operand fun _ _ _ _ same value =>
    .prefixed mem (spells_of_toLexeme same) value
  rwa [(precedence_unary op mem).2]

theorem reads_list {ns : List Node} (some_item : ns ≠ [])
    (all : ∀ n ∈ ns, n.precedence ≤ Precedence.assignment ∧ Reads .assignment n) :
    Reads .list (.comma ns place) := by
  induction ns using List.reverseRecOn with
  | nil => exact absurd rfl some_item
  | append_singleton ns n ih =>
      obtain ⟨others, last⟩ := List.forall_mem_append.mp all
      obtain ⟨tight, item⟩ := last n (.head _)
      cases ns with
      | nil =>
          obtain ⟨d, item⟩ := item
          exact ⟨d, .first Node.view_stripped tight item⟩
      | cons first ns =>
          obtain ⟨d, items, item⟩ := (ih (List.cons_ne_nil _ _) others).both item
          exact ⟨d, .further Node.view_stripped tight items item⟩

theorem Reads.comma {ns : List Node} (two : 2 ≤ ns.length)
    (all : ∀ n ∈ ns, n.precedence ≤ Precedence.assignment ∧ Reads .assignment n) :
    Reads .expression (.comma ns place) := by
  have some_item : ns ≠ [] := by
    rintro rfl
    exact absurd two (by decide)
  obtain ⟨d, items⟩ : Reads .list (.comma ns place) := reads_list some_item all
  exact ⟨d, .several Node.view_stripped items two⟩

theorem Reads.call {args : List Node} (tight : n.precedence ≤ Precedence.call)
    (callee : Reads .call n)
    (all : ∀ n ∈ args, n.precedence ≤ Precedence.assignment ∧ Reads .assignment n) :
    Reads .call (.call n args place) := by
  by_cases none : args = []
  · subst none
    obtain ⟨d, back⟩ := callee
    exact ⟨d, .calledEmpty Node.view_stripped tight back⟩
  · have items : Reads .list (.comma args place) := reads_list none all
    obtain ⟨d, back, items⟩ := callee.both items
    exact ⟨d, .called Node.view_stripped tight back items⟩

theorem Reads.ternary {y z : Node} (tight : n.precedence < Precedence.conditional)
    (tightYes : y.precedence ≤ Precedence.conditional)
    (tightNo : z.precedence ≤ Precedence.conditional)
    (condition : Reads (.chain binaryLevels) n) (yes : Reads .conditional y)
    (no : Reads .conditional z) : Reads .conditional (.ternary n y z place) := by
  obtain ⟨c, condition⟩ := condition
  obtain ⟨d, yes, no⟩ := yes.both no
  have left := Nat.le_max_left c d
  have right := Nat.le_max_right c d
  exact ⟨max c d + 1, .ternary Node.view_stripped tight tightYes tightNo
    (condition.mono (Nat.le_succ_of_le left)) (yes.mono right) (no.mono right)⟩

/-- Operands of an operator that groups to the left. -/
theorem Reads.joined {op : BinaryOp} (groups : op.isRightAssociative = false)
    (left : n.precedence ≤ op.precedence) (right : m.precedence < op.precedence)
    (lhs : Reads n.phrase n) (rhs : Reads m.phrase m) :
    Reads op.phrase (.binary op n m place) := by
  obtain ⟨mem, -, limit⟩ := op.phrase_consistent op.mem_all
  obtain ⟨chain, first, memTail, below⟩ := op.levels_consistent op.mem_all groups
  have loose := op.call_lt_precedence
  have lhs : Reads op.phrase n :=
    lhs.of_le mem (by rw [limit]; exact Nat.le_of_lt loose) (by rwa [limit])
  have rhs : Reads (.chain op.levels.tail) m := rhs.of_lt memTail loose right below
  rw [chain] at lhs ⊢
  cases levels : op.levels with
  | nil =>
      rw [levels] at first
      cases first
  | cons ops levels' =>
      rw [levels] at first lhs rhs
      obtain ⟨d, lhs, rhs⟩ := lhs.both rhs
      exact ⟨d, .binary Node.view_stripped (Node.pieces_binary_left left right groups) lhs rhs
        fun _ _ _ _ _ lhs spelled rhs => .joined lhs first spelled rhs⟩

/-- Operands of an operator that groups to the right. -/
theorem Reads.assigned {op : BinaryOp} (groups : op.isRightAssociative = true)
    (left : n.precedence < op.precedence) (right : m.precedence ≤ op.precedence)
    (lhs : Reads n.phrase n) (rhs : Reads m.phrase m) :
    Reads op.phrase (.binary op n m place) := by
  have written : (Node.binary op n m place).pieces = _ :=
    Node.pieces_binary_right left right groups
  have loose := op.call_lt_precedence
  obtain ⟨mem, phrase⟩ | ⟨mem, phrase⟩ := op.phrase_of_right op.mem_all groups
  · rw [(precedence_defaults op mem).1] at left right loose
    have lhs : Reads (.chain binaryLevels) n :=
      lhs.of_lt (by decide +kernel) loose left (by decide +kernel)
    have rhs : Reads .conditional m := rhs.of_le (by decide) (by decide) right
    obtain ⟨d, lhs, rhs⟩ := lhs.both rhs
    rw [phrase]
    exact ⟨d + 1, .binary Node.view_stripped written (lhs.mono (Nat.le_succ d)) rhs
      fun _ _ _ _ _ lhs spelled rhs => .default lhs mem spelled rhs⟩
  · rw [(precedence_assignments op mem).1] at left right loose
    have lhs : Reads .conditional n := lhs.of_lt (by decide) loose left (by decide +kernel)
    have rhs : Reads .assignment m := rhs.of_le (by decide) (by decide) right
    obtain ⟨d, lhs, rhs⟩ := lhs.both rhs
    rw [phrase]
    exact ⟨d + 1, .binary Node.view_stripped written (lhs.mono (Nat.le_succ d)) rhs
      fun _ _ _ _ _ lhs spelled rhs => .assigned lhs mem spelled rhs⟩

theorem Reads.expression (reads : Reads n.phrase n) (wellFormed : n.WellFormed) :
    Reads .expression n := by
  refine reads.of_le (by decide) (by decide) ?_
  obtain le | same := wellFormed.precedence_le
  · exact Nat.le_trans le (by decide)
  · exact Nat.le_of_eq same

theorem Reads.access {op : AccessOp} (notNew : n.isNew = false)
    (tight : n.precedence ≤ Precedence.call) (object : Reads n.phrase n)
    (reached : ∀ X : Phrase, X.TakesMembers → Reads X n → Reads X (.access op n m place)) :
    Reads (Node.access op n m place).phrase (.access op n m place) := by
  have object := object.lift (Node.lifts_object notNew tight)
  rw [Node.phrase]
  refine reached _ ?_ object
  split
  · exact .inr rfl
  · exact .inl rfl

/-- Every well-formed tree whose nodes are grouped reads back. -/
theorem reads_phrase (wellFormed : n.WellFormed) (grouped : n.AllGrouped) :
    Reads n.phrase n := by
  -- Induction on the tree: each operand reads back as its own phrase, and where it is grouped
  -- that phrase lifts to the one its place asks for.
  have items {ns : List Node} (tight : ∀ n ∈ ns, n.precedence ≤ Precedence.assignment)
      (inner : ∀ m ∈ Node.subnodesAll ns, m.Grouped)
      (ih : ∀ n ∈ ns, n.AllGrouped → Reads n.phrase n) :
      ∀ n ∈ ns, n.precedence ≤ Precedence.assignment ∧ Reads .assignment n := fun n mem =>
    ⟨tight n mem, (ih n mem (Node.forall_mem_subnodesAll.mp inner n mem)).of_le (by decide)
      (by decide) (tight n mem)⟩
  induction wellFormed with
  | number lexical decoded =>
      subst decoded
      exact ⟨0, .number Node.view_stripped⟩
  | string lexical decoded =>
      subst decoded
      exact ⟨0, .string Node.view_stripped⟩
  | symbol lexical free => exact ⟨0, .name Node.view_stripped free⟩
  | comma two _ ih =>
      obtain ⟨own, inner⟩ := List.forall_mem_cons.mp grouped
      exact .comma two (items own inner ih)
  | paren wellFormed ih =>
      obtain ⟨-, inner⟩ := List.forall_mem_cons.mp grouped
      exact .paren ((ih inner).expression wellFormed)
  | @prefixed op operand _ _ ih =>
      obtain ⟨own, inner⟩ := List.forall_mem_cons.mp grouped
      cases op with
      | new => exact .new own.1 own.2 (ih inner)
      | step => exact .step own (ih inner)
      | _ => exact .unary (by decide) own (ih inner)
  | postfixed _ ih =>
      obtain ⟨own, inner⟩ := List.forall_mem_cons.mp grouped
      obtain ⟨d, back⟩ := (ih inner).of_le (Y := .call) (by decide) (by decide) own
      exact ⟨d, .steppedBehind Node.view_stripped own back⟩
  | @binary op lhs rhs _ _ _ ihl ihr =>
      obtain ⟨own, inner⟩ := List.forall_mem_cons.mp grouped
      obtain ⟨left, right⟩ := List.forall_mem_append.mp inner
      rw [Node.Grouped] at own
      split at own
      · next groups => exact .assigned groups own.1 own.2 (ihl left) (ihr right)
      · next groups =>
          exact .joined (eq_false_of_ne_true groups) own.1 own.2 (ihl left) (ihr right)
  | ternary _ _ _ ihc ihy ihn =>
      obtain ⟨⟨tight, tightYes, tightNo⟩, inner⟩ := List.forall_mem_cons.mp grouped
      obtain ⟨inner, second⟩ := List.forall_mem_append.mp inner
      obtain ⟨asked, first⟩ := List.forall_mem_append.mp inner
      exact .ternary tight tightYes tightNo
        ((ihc asked).of_lt (by decide +kernel) (by decide) tight (by decide +kernel))
        ((ihy first).of_le (by decide) (by decide) tightYes)
        ((ihn second).of_le (by decide) (by decide) tightNo)
  | call _ _ ihc iha =>
      obtain ⟨⟨tight, tightArgs⟩, inner⟩ := List.forall_mem_cons.mp grouped
      obtain ⟨called, args⟩ := List.forall_mem_append.mp inner
      exact .call tight ((ihc called).of_le (by decide) (by decide) tight)
        (items tightArgs args iha)
  | member named _ known ih _ =>
      obtain ⟨⟨tight, notNew⟩, inner⟩ := List.forall_mem_cons.mp grouped
      obtain ⟨object, -⟩ := List.forall_mem_append.mp inner
      cases known with | symbol _ free
      refine .access notNew tight (ih object) ?_
      rintro X takes ⟨d, back⟩
      exact ⟨d, .member Node.view_stripped takes notNew tight back named free⟩
  | index _ wellFormed iho ihp =>
      obtain ⟨⟨tight, notNew⟩, inner⟩ := List.forall_mem_cons.mp grouped
      obtain ⟨object, property⟩ := List.forall_mem_append.mp inner
      have property := (ihp property).expression wellFormed
      refine .access notNew tight (iho object) fun X takes object => ?_
      obtain ⟨d, object, property⟩ := object.both property
      exact ⟨d, .index Node.view_stripped takes notNew tight object property⟩

end Grammar

/-! ## Parsing what is written -/

/-- What a well-formed tree is written with is tidy. -/
theorem Node.WellFormed.tidy {n : Node} (wellFormed : n.WellFormed) : Tidy n.pieces := by
  induction wellFormed with
  | number lexical _ | string lexical _ =>
      rw [pieces]
      exact .lexeme (.other lexical (by simp)) (by simp [Lexeme.operator])
  | symbol lexical _ =>
      rw [pieces]
      exact .word (.other lexical (by simp [Lexeme.symbol])) rfl
  | comma two _ ih =>
      rw [pieces]
      refine .itemPieces .comma Tidy.softStart_operator Tidy.softEnd_operator ?_ ih
      rintro rfl
      exact absurd two (by decide)
  | paren _ ih =>
      rw [pieces]
      exact .parenthesized (.inr ih)
  | prefixed _ ih => exact .prefixed ih
  | postfixed _ ih => exact .postfixed ih
  | binary _ _ ihl ihr => exact .binary ihl ihr
  | ternary _ _ _ ihc ihy ihn => exact .ternary ihc ihy ihn
  | call _ _ ihc iha => exact .call ihc iha
  | member named _ known ih _ =>
      cases known with | symbol lexical _
      exact .member ih named (.other lexical (by simp [Lexeme.symbol]))
  | index _ _ iho ihp => exact .index iho ihp

theorem Node.WellFormed.lexical_of_spell {n : Node} (wellFormed : n.WellFormed) {ts : List Token}
    (spells : Spell ts n.pieces) : ∀ t ∈ ts, t.Lexical := by
  intro t mem
  have among : t.toLexeme ∈ Piece.lexemes n.pieces := spells ▸ List.mem_map_of_mem mem
  exact (wellFormed.tidy.written _ among).lexical

namespace Grammar

/-- A row of tokens that is an expression with enough levels of nesting is parsed, unless it is
    nested too deeply. -/
theorem Derives.parses {levels : Nat} {ts : List Token} {n : Node}
    (derived : Derives false levels .expression ts n) (lexical : ∀ t ∈ ts, t.Lexical)
    (stop : Location) :
    parseExpression nested ⟨ts, stop⟩ = .ok (some n) ⟨[], stop⟩ ∨
      ∃ e rest, parseExpression nested ⟨ts, stop⟩ = .error e rest ∧ e.cause = .tooDeep := by
  have enough := derived.mono (Nat.le_max_left levels maxNesting)
  have ran : parseExpression (within _) ⟨ts, stop⟩ = .ok (some n) ⟨[], stop⟩ :=
    (parseExpression_eq_ok_iff lexical).mpr enough
  obtain same | deep := rises_parseExpression.below (Nat.le_max_right levels maxNesting) ⟨ts, stop⟩
  · exact .inl (same.trans ran)
  · exact .inr deep

/-- The tokens that a well-formed tree is written with are parsed as one expression, unless they
    are nested too deeply. Apart from parentheses and places it is the tree with all parentheses
    in place; and it is the tree that was written exactly if no `new` in this tree has an
    operand, without parentheses, that takes a member of what a call returns. -/
theorem parseExpression_built {n : Node} (wellFormed : n.WellFormed) {ts : List Token}
    (spells : Spell ts n.pieces) (stop : Location) :
    (∃ e rest, parseExpression nested ⟨ts, stop⟩ = .error e rest ∧ e.cause = .tooDeep) ∨
    ∃ m, parseExpression nested ⟨ts, stop⟩ = .ok (some m) ⟨[], stop⟩ ∧
      m.stripped = n.regroup.stripped ∧
      (m.stripped = n.stripped ↔ ∀ k ∈ n.subnodes, k.losesCall = false) := by
  have reads := (reads_phrase wellFormed.regroup wellFormed.grouped_regroup).expression
    wellFormed.regroup
  obtain ⟨levels, back⟩ := reads
  obtain ⟨m, derived, same, -⟩ := back ts (by rwa [Node.pieces_regroup])
  obtain parsed | deep := derived.parses (wellFormed.lexical_of_spell spells) stop
  · refine .inr ⟨m, parsed, same, ?_⟩
    rw [same]
    exact wellFormed.stripped_regroup_iff
  · exact .inl deep

/-- A `new` before a member of what `a` returns is written without parentheses, and read as a
    member of what the call of `new a` returns. -/
theorem parseExpression_built_newCall :
    let place : Location := ⟨1, 1⟩
    let n : Node := .prefixed .new
      (.access .dot (.call (.symbol "a" place) [] place) (.symbol "b" place) place) place
    let ts := (Source.ofString "new a().b").tokens.1
    n.WellFormed ∧ Spell ts n.pieces ∧
    ∃ m, parseExpression nested ⟨ts, ⟨1, 10⟩⟩ = .ok (some m) ⟨[], ⟨1, 10⟩⟩ ∧
      m.stripped = .access .dot (.call (.prefixed .new (.symbol "a" .start) .start) [] .start)
        (.symbol "b" .start) .start ∧
      m.stripped ≠ n.stripped := by
  intro place n ts
  have wellFormed : n.WellFormed :=
    .prefixed (.member (by decide) (.call (.symbol ⟨['a'], by decide⟩ (by decide)) nofun)
      (.symbol ⟨['b'], by decide⟩ (by decide)))
  have spells : Spell ts n.pieces := by
    unfold Spell
    decide +kernel
  refine ⟨wellFormed, spells, ?_⟩
  -- The depth limit is not reached: this rules the first alternative out.
  have shallow : (match parseExpression nested ⟨ts, ⟨1, 10⟩⟩ with
      | .ok _ _ => true
      | .error _ _ => false) = true := by
    decide +kernel
  obtain ⟨e, rest, failed, -⟩ | ⟨m, parsed, same, exact_⟩ :=
    parseExpression_built wellFormed spells ⟨1, 10⟩
  · rw [failed] at shallow
    cases shallow
  · refine ⟨m, parsed, same.trans rfl, fun kept => ?_⟩
    have loses := exact_.mp kept n n.self_mem_subnodes
    revert loses
    decide

end Grammar

end Scriptlet
