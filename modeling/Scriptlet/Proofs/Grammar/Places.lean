import Scriptlet.Proofs.Gap
import Scriptlet.Proofs.Grammar.StatesCompleteness
import Scriptlet.Proofs.Node.Names
import Scriptlet.Proofs.Session.Rounds

/-! # Where nodes and faults stand

Every token stands in the text where its place says. A node stands where its own token does,
and a fault that is laid to a token stands where this token does.
-/

namespace Scriptlet

/-- The node stands where its own token does. `stands` says where words stand, and `begins`
    where expressions begin. -/
def Node.Placed (stands : String → Location → Prop) (begins : Node → Location → Prop) :
    Node → Prop
  | .empty place => stands ";" place
  | .block _ place => stands "\x7b" place
  | .expression expr place => begins expr place
  | .var declarators place => stands "var" place ∧ ∀ x ∈ declarators, stands x.name x.location
  | .chain _ place => stands "if" place
  | .comma exprs place => exprs.head?.map location = some place
  | .paren _ place | .call _ _ place => stands "(" place
  | .prefixed op _ place => stands op.symbol place
  | .postfixed op _ place => stands op.symbol place
  | .binary op _ _ place => stands op.symbol place
  | .ternary _ _ _ place => stands "?" place
  | .access op _ _ place => stands op.symbol place
  | .number _ word place | .string _ word place | .symbol word place => stands word place

namespace Grammar

open Parse Node

variable {stands : String → Location → Prop} {begins : Node → Location → Prop}
  {ambiguous strict : Bool} {d : Nat} {X : Phrase} {ts : List Token} {n : Node}

theorem stands_of_text {t : Token} {word : String} (own : stands t.text t.location)
    (same : t.text = word) : stands word t.location :=
  same ▸ own

/-- Where the tokens stand, there the nodes of a derived tree stand. -/
theorem Derives.placed (h : Derives ambiguous d X ts n)
    (all : ∀ t ∈ ts, stands t.text t.location) : ∀ m ∈ n.subnodes, m.Placed stands begins := by
  induction h with
  | single _ ih | unassigned _ ih | unconditional _ ih | tighter _ ih | unprefixed _ ih
  | unstepped _ ih | uncalled _ ih | reached _ ih | bare _ ih | unjoined _ ih
  | several _ _ ih => exact ih all
  | first _ ih =>
      simp only [subnodes, subnodesAll, List.append_nil, List.forall_mem_cons]
      exact ⟨rfl, ih all⟩
  | @further d ts ns place comma us n items _ _ ihs ih =>
      simp only [List.forall_mem_append, List.forall_mem_cons] at all
      have before := ihs all.1
      simp only [subnodes, subnodesAll_append, subnodesAll, List.append_nil,
        List.forall_mem_cons, List.forall_mem_append, Placed] at before ⊢
      refine ⟨?_, before.2, ih all.2.2⟩
      cases ns with
      | nil => cases before.1
      | cons n ns => exact before.1
  | assigned _ _ spelled _ ihl ihr | default _ _ spelled _ ihl ihr
  | joined _ _ spelled _ ihl ihr =>
      simp only [List.forall_mem_append, List.forall_mem_cons] at all
      simp only [subnodes, List.forall_mem_cons, List.forall_mem_append, Placed]
      exact ⟨stands_of_text all.2.1 spelled.2, ihl all.1, ihr all.2.2⟩
  | ternary _ asked _ _ _ ihc ihy ihn =>
      simp only [List.forall_mem_append, List.forall_mem_cons] at all
      simp only [subnodes, List.forall_mem_cons, List.forall_mem_append, Placed]
      exact ⟨stands_of_text all.1.2.1 (Token.isOperator_iff.mp asked).2, ⟨ihc all.1.1, ihy all.1.2.2⟩,
        ihn all.2.2⟩
  | prefixed _ spelled _ ih | steppedBefore _ spelled _ ih =>
      simp only [List.forall_mem_cons] at all
      simp only [subnodes, List.forall_mem_cons, Placed]
      exact ⟨stands_of_text all.1 spelled.2, ih all.2⟩
  | steppedBehind _ spelled ih =>
      simp only [List.forall_mem_append, List.forall_mem_singleton] at all
      simp only [subnodes, List.forall_mem_cons, Placed]
      exact ⟨stands_of_text all.2 (Token.isOperator_iff.mp spelled).2, ih all.1⟩
  | calledEmpty _ opens _ ih =>
      simp only [List.forall_mem_append, List.forall_mem_cons] at all
      simp only [subnodes, subnodesAll, List.append_nil, List.forall_mem_cons, Placed]
      exact ⟨stands_of_text all.2.1 (Token.isSeparator_iff.mp opens).2, ih all.1⟩
  | called _ opens _ _ ihc iha =>
      simp only [List.forall_mem_append, List.forall_mem_cons] at all
      have args := iha all.1.2.2
      simp only [subnodes, List.forall_mem_cons, List.forall_mem_append, Placed] at args ⊢
      exact ⟨stands_of_text all.1.2.1 (Token.isSeparator_iff.mp opens).2, ihc all.1.1, args.2⟩
  | new word _ ih =>
      simp only [List.forall_mem_cons] at all
      simp only [subnodes, List.forall_mem_cons, Placed]
      exact ⟨stands_of_text all.1 (Token.isSymbol_iff.mp word).2, ih all.2⟩
  | member _ _ _ opens _ _ ih =>
      simp only [List.forall_mem_append, List.forall_mem_cons] at all
      simp only [subnodes, List.forall_mem_cons, List.forall_mem_append, Placed]
      exact ⟨stands_of_text all.2.1 (AccessOp.symbol_of_ofSymbol? opens.2), ih all.1, all.2.2.1,
        List.forall_mem_nil _⟩
  | index _ _ _ opens _ _ iho ihp =>
      simp only [List.forall_mem_append, List.forall_mem_cons] at all
      simp only [subnodes, List.forall_mem_cons, List.forall_mem_append, Placed]
      exact ⟨stands_of_text all.1.2.1 (AccessOp.symbol_of_ofSymbol? opens.2), iho all.1.1, ihp all.1.2.2⟩
  | paren opens _ _ ih =>
      simp only [List.forall_mem_append, List.forall_mem_cons] at all
      -- Parentheses in parentheses stand where the inner ones do.
      unfold enclose
      split
      · exact ih all.1.2
      · simp only [subnodes, List.forall_mem_cons, Placed]
        exact ⟨stands_of_text all.1.1 (Token.isSeparator_iff.mp opens).2, ih all.1.2⟩
  | number | string | name => simpa [subnodes, Placed] using all

theorem Declares.placed {x : Declarator Node} (h : Declares d ts x)
    (all : ∀ t ∈ ts, stands t.text t.location) :
    stands x.name x.location ∧ ∀ m ∈ subnodesDeclarators [x], m.Placed stands begins := by
  cases h with
  | bare => exact ⟨all _ (.head _), nofun⟩
  | valued _ _ value =>
      simp only [List.forall_mem_cons] at all
      simp only [subnodesDeclarators, List.append_nil]
      exact ⟨all.1, value.placed all.2.2⟩

theorem Conditions.placed {c : Node} (h : Conditions d ts c)
    (all : ∀ t ∈ ts, stands t.text t.location) : ∀ m ∈ c.subnodes, m.Placed stands begins := by
  cases h with
  | paren _ inside _ =>
      simp only [List.forall_mem_append, List.forall_mem_cons] at all
      exact inside.placed all.1.2

/-! ## Statements

Of parentheses in parentheses only the inner ones are kept in a tree, so the tree alone does not
tell where an expression begins. But no statement begins right behind an opening parenthesis.
-/

/-- The row ends with a token that opens no parenthesis. -/
def Shuts (ts : List Token) : Prop :=
  ∃ front t, ts = front ++ [t] ∧ t.isSeparator '(' = false

theorem Shuts.append {us : List Token} (h : Shuts us) (ts : List Token) : Shuts (ts ++ us) := by
  obtain ⟨front, t, rfl, shut⟩ := h
  exact ⟨ts ++ front, t, (List.append_assoc ts front [t]).symm, shut⟩

theorem Shuts.cons (h : Shuts ts) (t : Token) : Shuts (t :: ts) :=
  h.append [t]

theorem Shuts.behind {us : List Token} (h : Shuts ts) (more : us = [] ∨ Shuts us) :
    Shuts (ts ++ us) := by
  obtain rfl | shut := more
  · simpa using h
  · exact shut.append ts

theorem shuts_of_kind {t : Token} (kind : t.kind ≠ .separator) : Shuts [t] :=
  ⟨[], t, rfl, Bool.eq_false_iff.mpr (not_isSeparator_of_kind kind)⟩

theorem shuts_of_isSeparator {t : Token} {c : Char} (separator : t.isSeparator c = true)
    (other : c ≠ '(') : Shuts [t] :=
  ⟨[], t, rfl, isSeparator_of_ne separator other⟩

theorem shuts_of_isName {t : Token} (isName : isName t = true) : Shuts [t] := by
  simp only [Parse.isName, Bool.and_eq_true, decide_eq_true_eq] at isName
  exact shuts_of_kind (by simp [isName.1])

theorem shuts_of_isSymbol {t : Token} {word : String} (isWord : t.isSymbol word = true) :
    Shuts [t] :=
  ⟨[], t, rfl, isSeparator_of_isSymbol isWord⟩

theorem Derives.shuts (h : Derives ambiguous d X ts n) : Shuts ts := by
  induction h with
  | single _ ih | unassigned _ ih | unconditional _ ih | tighter _ ih | unprefixed _ ih
  | unstepped _ ih | uncalled _ ih | reached _ ih | bare _ ih | unjoined _ ih
  | several _ _ ih | first _ ih => exact ih
  | further _ _ _ _ ih | assigned _ _ _ _ _ ih | default _ _ _ _ _ ih | joined _ _ _ _ _ ih
  | ternary _ _ _ _ _ _ _ ih => exact (ih.cons _).append _
  | prefixed _ _ _ ih | steppedBefore _ _ _ ih | new _ _ ih => exact ih.cons _
  | steppedBehind _ spelled _ =>
      exact (shuts_of_kind (by simp [(Token.isOperator_iff.mp spelled).1])).append _
  | calledEmpty _ _ closes => exact ((shuts_of_isSeparator closes (by decide)).cons _).append _
  | called _ _ _ closes | index _ _ _ _ _ closes | paren _ _ closes =>
      exact (shuts_of_isSeparator closes (by decide)).append _
  | member _ _ _ _ _ isName => exact ((shuts_of_isName isName).cons _).append _
  | number kind | string kind => exact shuts_of_kind (by simp [kind])
  | name isName => exact shuts_of_isName isName

theorem Declares.shuts {x : Declarator Node} (h : Declares d ts x) : Shuts ts := by
  cases h with
  | bare isName => exact shuts_of_isName isName
  | valued _ _ value => exact (value.shuts.cons _).cons _

theorem Conditions.shuts {c : Node} (h : Conditions d ts c) : Shuts ts := by
  cases h with
  | paren _ _ closes => exact (shuts_of_isSeparator closes (by decide)).append _

/-- A row may end with what can be missing there. -/
theorem Ends.shuts {c : Char} {us : List Token} (h : Ends strict c us) (other : c ≠ '(')
    (before : Shuts ts) : Shuts (ts ++ us) := by
  refine before.behind ?_
  obtain ⟨t, rfl, separator⟩ | ⟨-, rfl⟩ := h
  · exact .inr (shuts_of_isSeparator separator other)
  · exact .inl rfl

theorem States.shuts {X : Form} (h : States strict d X ts n) : ts = [] ∨ Shuts ts := by
  induction h with
  | empty ends => exact .inr (shuts_of_isSeparator ends (by decide))
  | block opens _ ending ih =>
      have opened := shuts_of_isSeparator opens (by decide)
      exact .inr (ending.shuts (by decide) (opened.behind ih))
  | none => exact .inl rfl
  | next _ statement _ ih => exact .inr ((ih.resolve_left statement.ne_nil).append _)
  | var isVar _ ending ih =>
      exact .inr (ending.shuts (by decide) ((shuts_of_isSymbol isVar).behind ih))
  | declared item => exact .inr item.shuts
  | alsoDeclared _ _ item _ => exact .inr ((item.shuts.cons _).append _)
  | ifArm _ _ body ih => exact .inr ((ih.resolve_left body.ne_nil).append _)
  | elseArm _ _ _ _ _ body _ ih =>
      exact .inr (((ih.resolve_left body.ne_nil).append _).append _)
  | armed _ ih => exact ih
  | otherwise _ _ _ body _ _ ih => exact .inr (((ih.resolve_left body.ne_nil).cons _).append _)
  | expression value ending => exact .inr (ending.shuts (by decide) value.shuts)

/-- In this row of tokens every word stands at the place of its token. So does every expression
    begin that is not behind an opening parenthesis. -/
structure Located (stands : String → Location → Prop) (begins : Node → Location → Prop)
    (ts : List Token) : Prop where
  tokens : ∀ t ∈ ts, stands t.text t.location
  expressions : ∀ ⦃d before t row after n⦄, ts = before ++ t :: row ++ after →
    before = [] ∨ Shuts before → Derives false d .expression (t :: row) n → begins n t.location

theorem Located.before {us : List Token} (h : Located stands begins (ts ++ us)) :
    Located stands begins ts where
  tokens t mem := h.tokens t (List.mem_append_left us mem)
  expressions d before t row after n same shut derived := by
    have whole : ts ++ us = before ++ t :: row ++ (after ++ us) := by simp [same]
    exact h.expressions whole shut derived

theorem Located.behind {us : List Token} (h : Located stands begins (ts ++ us))
    (shut : ts = [] ∨ Shuts ts) : Located stands begins us where
  tokens t mem := h.tokens t (List.mem_append_right ts mem)
  expressions d before t row after n same shut' derived := by
    have whole : ts ++ us = (ts ++ before) ++ t :: row ++ after := by simp [same]
    refine h.expressions whole ?_ derived
    obtain rfl | shut := shut
    · simpa using shut'
    · exact .inr (shut.behind shut')

/-- What is known of the node of a form itself. That of a body has no place of its own yet, nor
    has that of declarations, but the declared names have. -/
def Form.Placed (stands : String → Location → Prop) (begins : Node → Location → Prop)
    (n : Node) : Form → Prop
  | .statement | .arms => n.Placed stands begins
  | .body => True
  | .declarations => ∀ xs place, n = .var xs place → ∀ x ∈ xs, stands x.name x.location

/-- Where the tokens stand, there the nodes of a statement stand. -/
theorem States.placed {X : Form} (h : States strict d X ts n)
    (located : Located stands begins ts) :
    X.Placed stands begins n ∧ ∀ m ∈ n.subnodes.tail, m.Placed stands begins := by
  -- A part behind another one is located because no row ends with an opening parenthesis.
  induction h with
  | @empty _ t ends =>
      have own := located.tokens t (.head _)
      exact ⟨stands_of_text own (Token.isSeparator_iff.mp ends).2, nofun⟩
  | @block _ opening ts _ _ us opens _ _ ih =>
      have own := located.tokens opening (.head _)
      have opened : Located stands begins ([opening] ++ ts) := located.before
      have inside := opened.behind (.inr (shuts_of_isSeparator opens (by decide)))
      exact ⟨stands_of_text own (Token.isSeparator_iff.mp opens).2, (ih inside).2⟩
  | none => exact ⟨trivial, nofun⟩
  | next before _ ihb ihs =>
      have statements := (ihb located.before).2
      have statement := ihs (located.behind before.shuts)
      refine ⟨trivial, ?_⟩
      simp only [subnodes, List.tail_cons, subnodesAll_append, subnodesAll, List.append_nil,
        List.forall_mem_append] at statements ⊢
      exact ⟨statements, forall_mem_subnodes.mpr statement⟩
  | @var _ word ts _ _ us isVar _ _ ih =>
      have own := located.tokens word (.head _)
      have announced : Located stands begins ([word] ++ ts) := located.before
      obtain ⟨names, values⟩ := ih (announced.behind (.inr (shuts_of_isSymbol isVar)))
      exact ⟨⟨stands_of_text own (Token.isSymbol_iff.mp isVar).2, names _ _ rfl⟩, values⟩
  | declared item =>
      obtain ⟨name, value⟩ := item.placed located.tokens
      refine ⟨?_, value⟩
      rintro _ _ ⟨⟩
      exact List.forall_mem_singleton.mpr name
  | alsoDeclared _ _ item ih =>
      obtain ⟨names, values⟩ := ih located.before
      have behind := (List.forall_mem_append.mp located.tokens).2
      obtain ⟨name, value⟩ := item.placed (List.forall_mem_cons.mp behind).2
      refine ⟨?_, ?_⟩
      · rintro _ _ ⟨⟩
        exact List.forall_mem_append.mpr ⟨names _ _ rfl, List.forall_mem_singleton.mpr name⟩
      · simp only [subnodes, List.tail_cons, subnodesDeclarators_append,
          List.forall_mem_append] at values ⊢
        exact ⟨values, value⟩
  | ifArm isIf condition _ ih =>
      obtain ⟨own, guard⟩ := List.forall_mem_cons.mp located.before.tokens
      have body := ih (located.behind (.inr (condition.shuts.cons _)))
      refine ⟨stands_of_text own (Token.isSymbol_iff.mp isIf).2, ?_⟩
      simp only [subnodes, List.tail_cons, subnodesBranches, List.append_nil,
        List.forall_mem_append]
      exact ⟨condition.placed guard, forall_mem_subnodes.mpr body⟩
  | elseArm arms _ _ _ condition _ iha ihb =>
      obtain ⟨own, others⟩ := iha located.before
      have arm := located.behind arms.shuts
      have guard := (List.forall_mem_append.mp arm.before.tokens).2
      have body := ihb (arm.behind (.inr (condition.shuts.append _)))
      refine ⟨own, ?_⟩
      simp only [subnodes, List.tail_cons, subnodesBranches_append, subnodesBranches,
        List.append_nil, List.forall_mem_append] at others ⊢
      exact ⟨others, condition.placed guard, forall_mem_subnodes.mpr body⟩
  | armed _ ih => exact ih located
  | @otherwise _ ts _ _ word us _ arms _ isElse _ _ iha ihb =>
      obtain ⟨own, others⟩ := iha located.before
      have arm : Located stands begins ([word] ++ us) := located.behind arms.shuts
      have body := ihb (arm.behind (.inr (shuts_of_isSymbol isElse)))
      refine ⟨own, ?_⟩
      simp only [subnodes, List.tail_cons, subnodesBranches_append, subnodesBranches,
        List.append_nil, List.forall_mem_append] at others ⊢
      exact ⟨others, forall_mem_subnodes.mpr body⟩
  | @expression _ t ts _ us value _ =>
      have first : t :: ts ++ us = [] ++ t :: ts ++ us := rfl
      exact ⟨located.expressions first (.inl rfl) value, value.placed located.before.tokens⟩

end Grammar

/-! ## Tokens in a text -/

namespace Source

/-- The text has this word at this place. -/
def Spelled (text : String) (word : String) (place : Location) : Prop :=
  word.toList <+: place.seek .start text.toList

theorem Takes.spelled {text : String} {s s' : Source} {gap : List Char} {comments : List Comment}
    {t : Token} (takes : s.Takes gap comments t s') (within : s.Within text.toList) :
    Spelled text t.text t.location := by
  have whole : text.toList = (s.before ++ gap) ++ (t.text.toList ++ s'.remaining) := by
    rw [← within.whole, takes.split, List.append_assoc]
  rw [Spelled, takes.place, whole, Location.seek_behind]
  exact List.prefix_append _ _

/-- Every token stands in the text where its place says. -/
theorem Within.spelled_tokens {text : String} {s : Source} (within : s.Within text.toList) :
    ∀ t ∈ s.tokens.1, Spelled text t.text t.location := by
  fun_induction tokens s with
  | case1 s t rest taken more last same ih =>
      obtain ⟨further, gap, comments, ⟨u, s', found, -, takes⟩ | ⟨tail, s', nothing, -⟩⟩ :=
        within.tokenAfter_cases []
      · cases taken.symm.trans found
        rw [found] at further
        rw [same] at ih
        exact List.forall_mem_cons.mpr ⟨takes.spelled within, ih further⟩
      · cases taken.symm.trans nothing
  | case2 => exact List.forall_mem_nil _

end Source

/-! ## Faults -/

namespace Parse

variable {α β : Type}

/-- The parser takes tokens off the front. A fault that it lays to a token is laid to one of the
    row, and stands where this token does. -/
structure Accuses (p : Parse α) : Prop where
  forward : Forward p
  fault : ∀ ⦃s e s' t⦄, p s = .error e s' → e.token = some t →
    t ∈ s.pending ∧ e.location = t.location

theorem Accuses.of_ok {p : Parse α} (forward : Forward p) (h : ∀ s, ∃ a s', p s = .ok a s') :
    Accuses p where
  forward := forward
  fault s e s' t failed _ := by
    obtain ⟨a, s'', ran⟩ := h s
    cases ran.symm.trans failed

theorem Accuses.bind {p : Parse α} {f : α → Parse β} (first : Accuses p)
    (second : ∀ a, Accuses (f a)) : Accuses (p >>= f) where
  forward := first.forward.bind fun a => (second a).forward
  fault s e s' t failed accused := by
    cases ran : p s with
    | error e₁ s₁ =>
        rw [bind_of_error ran] at failed
        cases failed
        exact first.fault ran accused
    | ok a s₁ =>
        rw [bind_of_ok ran] at failed
        obtain ⟨ts, taken⟩ := first.forward s
        rw [leaves_of_ok ran] at taken
        obtain ⟨mem, place⟩ := (second a).fault failed accused
        rw [taken, Tokens.pending_prepend]
        exact ⟨List.mem_append_right ts mem, place⟩

/-- To fail for want of a token accuses none. -/
theorem accuses_failAtEnd (cause : ParseError.Cause) : Accuses (failAt cause none : Parse α) where
  forward := composes_forward.failAtEnd cause
  fault s e s' t failed accused := by
    cases failed
    cases accused

theorem accuses_of_failAt {p : Parse α} (cause : Tokens → ParseError.Cause)
    (fails : ∀ s, p s = failAt (cause s) s.pending.head? s) : Accuses p where
  forward := .of_leaves fun s => by rw [leaves, fails, ← leaves, leaves_failAt]
  fault s e s' t failed accused := by
    rw [fails] at failed
    obtain nothing | ⟨u, rest, rfl⟩ := s.eq_prepend
    · rw [nothing] at failed
      exact (accuses_failAtEnd _).fault failed accused
    · cases failed
      cases accused
      exact ⟨.head _, rfl⟩

/-- A token may be taken before it is accused. -/
theorem accuses_next_bind {f : Option Token → Parse α} (ended : Accuses (f none))
    (found : ∀ t, Accuses (f (some t)) ∨ ∃ cause, f (some t) = failAt cause (some t)) :
    Accuses (next >>= f) where
  forward := by
    refine forward_next.bind fun r => ?_
    cases r with
    | none => exact ended.forward
    | some t =>
        obtain accuses | ⟨cause, fails⟩ := found t
        · exact accuses.forward
        · rw [fails]
          exact .of_leaves (leaves_failAt cause (some t))
  fault s e s' t failed accused := by
    obtain nothing | ⟨u, rest, rfl⟩ := s.eq_prepend
    · obtain ⟨_, stop⟩ := s
      cases nothing
      exact ended.fault failed accused
    · rw [bind_of_ok (next_prepend rest u [])] at failed
      obtain accuses | ⟨cause, fails⟩ := found u
      · obtain ⟨mem, place⟩ := accuses.fault failed accused
        exact ⟨.tail u mem, place⟩
      · rw [fails] at failed
        cases failed
        cases accused
        exact ⟨.head _, rfl⟩

/-- All parsers of the grammar accuse tokens of the row, at their places. -/
theorem composes_accuses : Composes Accuses where
  pure a := .of_ok (composes_forward.pure a) fun s => ⟨a, s, rfl⟩
  bind := Accuses.bind
  get := .of_ok composes_forward.get fun s => ⟨s, s, rfl⟩
  next := .of_ok forward_next fun s => by
    obtain nothing | ⟨t, rest, rfl⟩ := s.eq_prepend
    · obtain ⟨_, stop⟩ := s
      cases nothing
      exact ⟨none, _, rfl⟩
    · exact ⟨some t, rest, rfl⟩
  failNext _ := accuses_of_failAt (fun _ => _) fun _ => rfl
  refuseNext {_ cause} _ := accuses_of_failAt
    (fun s => if s.pending.head?.any isUnknownOperator then .unknownOperator else cause)
    fun _ => rfl
  failAtEnd := accuses_failAtEnd
  memberName op := by
    refine accuses_next_bind (accuses_failAtEnd _) fun t => ?_
    by_cases named : isName t = true
    · simp only [named, if_true]
      exact .inl (.of_ok (composes_forward.pure _) fun s => ⟨_, s, rfl⟩)
    · simp only [named]
      exact .inr ⟨_, rfl⟩

theorem accuses_expectEnd : Accuses expectEnd :=
  accuses_next_bind (composes_accuses.pure ()) fun _ => .inr ⟨_, rfl⟩

theorem accuses_program : Accuses program := by
  have all := composes_accuses.within (maxNesting + 1)
  exact (composes_accuses.many all.statement).bind fun _ =>
    accuses_expectEnd.bind fun _ => composes_accuses.pure _

end Parse

/-! ## Nodes and faults in a text -/

namespace Source

/-- A token of this row is this word at this place, and the text has the word there. -/
def Stands (text : String) (ts : List Token) (word : String) (place : Location) : Prop :=
  (∃ t ∈ ts, t.text = word ∧ t.location = place) ∧ Spelled text word place

end Source

namespace Grammar

/-- The expression is derived from tokens of this row, the first of which stands at this place
    and not behind an opening parenthesis. -/
def BeginsAt (ts : List Token) (expr : Node) (place : Location) : Prop :=
  ∃ d before t row after, ts = before ++ t :: row ++ after ∧ (before = [] ∨ Shuts before) ∧
    Derives false d .expression (t :: row) expr ∧ t.location = place

end Grammar

namespace Parse

variable {α : Type} {text : String} {ts : Tokens}

/-- The parser leaves the end of the row. If it lays a fault to a token, the token is one of
    the row, the fault stands where the token does, and the text has the token there. -/
structure Faithful (text : String) (ts : Tokens) (p : Parse α) : Prop where
  leaves : (leaves p ts).pending <:+ ts.pending
  fault : ∀ e ts' t, p ts = .error e ts' → e.token = some t →
    t ∈ ts.pending ∧ e.location = t.location ∧ Source.Spelled text t.text e.location

/-- In a row whose tokens stand in the text, faults are faithful. -/
theorem Accuses.faithful {p : Parse α} (accuses : Accuses p)
    (spelled : ∀ t ∈ ts.pending, Source.Spelled text t.text t.location) : Faithful text ts p where
  leaves := by
    obtain ⟨taken, same⟩ := accuses.forward ts
    have pending := congrArg Tokens.pending same
    rw [Tokens.pending_prepend] at pending
    exact ⟨taken, pending.symm⟩
  fault e ts' t failed accused := by
    obtain ⟨mem, place⟩ := accuses.fault failed accused
    rw [place]
    exact ⟨mem, rfl, spelled t mem⟩

/-- Wherever a parser stands in a text, the places it gives are those of the text. Each node of a
    statement stands where its own token does, an expression as a statement where it begins, and
    a list where its first part does. Each fault that is laid to a token stands where this token
    does. Whatever comes of it, the parser stands in the text again, also behind the end of a
    faulty statement. -/
theorem places_faithful {name : Option String}
    (behind : ts.pending <:+ (Tokens.ofSource (.ofString text name)).pending) (d : Nat) :
    (∀ n ts', Grammar.parseStatement (Grammar.within d) ts = .ok (some n) ts' →
      ∀ m ∈ n.subnodes,
        m.Placed (Source.Stands text ts.pending) (Grammar.BeginsAt ts.pending)) ∧
    Faithful text ts (Grammar.parseStatement (Grammar.within d)) ∧
    Faithful text ts (Grammar.parseBlock (Grammar.within d)) ∧
    Faithful text ts (Grammar.parseExpression (Grammar.within d)) ∧
    Faithful text ts expectEnd ∧ Faithful text ts program ∧
    ts.synchronize.pending <:+ ts.pending := by
  have spelled : ∀ t ∈ ts.pending, Source.Spelled text t.text t.location :=
    fun t mem => (Source.within_ofString text name).spelled_tokens t (behind.subset mem)
  have all := composes_accuses.within d
  obtain ⟨passed, same, -⟩ := Tokens.exists_append_afterStatement ts.pending
  refine ⟨?_, (composes_accuses.parseStatement all).faithful spelled,
    (composes_accuses.parseBlock all).faithful spelled,
    (composes_accuses.parseExpression all).faithful spelled,
    accuses_expectEnd.faithful spelled, accuses_program.faithful spelled, passed, same.symm⟩
  intro n ts' parsed
  obtain ⟨taken, rfl, stated, -⟩ :=
    Grammar.parseStatement_takes (Grammar.soundStatements_within d) parsed
  have located : Grammar.Located (Source.Stands text (ts'.prepend taken).pending)
      (Grammar.BeginsAt (ts'.prepend taken).pending) (ts'.prepend taken).pending :=
    { tokens := fun t mem => ⟨⟨t, mem, rfl, rfl⟩, spelled t mem⟩
      expressions := fun d before t row after n same shut derived =>
        ⟨d, before, t, row, after, same, shut, derived, rfl⟩ }
  rw [Tokens.pending_prepend] at located ⊢
  exact Node.forall_mem_subnodes.mpr (stated.placed located.before)

/-- The statement in braces stands where the outer parenthesis does, the node in it where the
    inner one does. Behind it, a semicolon stands for the name of a member. -/
theorem places_faithful_parens :
    let text := "\x7b ((b))\n\x7d\nc.;"
    let ts := Tokens.ofSource (.ofString text)
    ∃ n ts' e ts'' t, statement ts = .ok (some n) ts' ∧ statement ts' = .error e ts'' ∧
      e.token = some t ∧
      n.subnodes.map (·.location) = [⟨1, 1⟩, ⟨1, 3⟩, ⟨1, 4⟩, ⟨1, 5⟩] ∧
      (∀ m ∈ n.subnodes,
        m.Placed (Source.Stands text ts.pending) (Grammar.BeginsAt ts.pending)) ∧
      ts'.pending <:+ ts.pending ∧ e.location = ⟨3, 3⟩ ∧ e.location = t.location ∧
      Source.Spelled text t.text e.location := by
  intro text ts
  have found : (match statement ts with
      | .error _ _ => false
      | .ok r _ => decide (r.map (fun n => n.subnodes.map (·.location)) =
          some [⟨1, 1⟩, ⟨1, 3⟩, ⟨1, 4⟩, ⟨1, 5⟩])) = true := by
    decide +kernel
  have fault : (match statement (leaves statement ts) with
      | .error e _ => decide (e.location = ⟨3, 3⟩ ∧ e.token.isSome = true)
      | .ok _ _ => false) = true := by
    decide +kernel
  cases parsed : statement ts with
  | error => simp [parsed] at found
  | ok r ts' =>
      simp only [parsed, decide_eq_true_eq] at found
      obtain ⟨n, rfl, places⟩ := Option.map_eq_some_iff.mp found
      obtain ⟨placed, faithful, -⟩ := places_faithful (List.suffix_refl ts.pending) maxNesting
      have left : (leaves statement ts).pending <:+ ts.pending := faithful.leaves
      rw [leaves_of_ok parsed] at fault left
      cases failed : statement ts' with
      | ok => simp [failed] at fault
      | error e ts'' =>
          simp only [failed, decide_eq_true_eq] at fault
          obtain ⟨place, accused⟩ := fault
          obtain ⟨t, accused⟩ := Option.isSome_iff_exists.mp accused
          obtain ⟨-, again, -⟩ := places_faithful left maxNesting
          obtain ⟨-, located, spelled⟩ := again.fault e ts'' t failed accused
          exact ⟨n, ts', e, ts'', t, rfl, failed, accused, places, placed n ts' parsed, left,
            place, located, spelled⟩

end Parse

end Scriptlet
