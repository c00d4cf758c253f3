import Scriptlet.Grammar.Statement
import Scriptlet.Proofs.Grammar.Derives

/-! # The parsers of expressions find only what the grammar derives

Every parser takes a row of tokens that derives its result, within the levels of nesting
that are open to it. An access also takes all members that follow, which settles what
members behind an operand of `new` belong to.
-/

namespace Scriptlet.Grammar

open Parse

variable {d : Nat} {inner : Grammar}

/-- A derivation one level further in, if there is such a level. -/
def Inner (d : Nat) (X : Phrase) (ts : List Token) (n : Node) : Prop :=
  ∃ e, d = e + 1 ∧ Derives false e X ts n

/-- The parsers of the level inside take what is derived there. -/
structure Sound (d : Nat) (inner : Grammar) : Prop where
  assignment : Takes inner.assignment fun ts n _ => Inner d .assignment ts n
  conditional : Takes inner.conditional fun ts n _ => Inner d .conditional ts n
  operand : Takes inner.operand fun ts n _ => Inner d .operand ts n
  access : Takes inner.access fun ts n s => Inner d .access ts n ∧ ¬s.Next OpensMember

/-! ## Operands joined by operators -/

theorem link_takes {ops : List BinaryOp} {operand : Parse (Option Node)}
    {D : List Token → Node → Prop} (sound : Takes operand fun ts n _ => D ts n) :
    Takes (link ops operand) fun ts l _ => ∃ t us, ts = t :: us ∧ l.1 ∈ ops ∧
      t.Spells l.1.symbol ∧ l.2.1 = t.location ∧ D us l.2.2 := by
  intro s l s' h
  obtain ⟨r, s₁, taken, done⟩ := bind_eq_ok.mp h
  obtain ⟨op, mem, t, rfl, spelled, rfl⟩ | ⟨rfl, -, -⟩ := takeOneOf_cases taken
  · obtain ⟨rhs, s₂, required, done⟩ := bind_eq_ok.mp done
    cases done
    obtain ⟨us, rfl, derived⟩ := sound (require_eq_ok.mp required)
    exact ⟨t :: us, (Tokens.prepend_cons _ _ _).symm, t, us, rfl, mem, spelled, rfl, derived⟩
  · cases done

theorem link_idle (ops : List BinaryOp) (operand : Parse (Option Node)) :
    Idle (link ops operand) := by
  intro s s' h
  obtain ⟨r, s₁, taken, done⟩ := bind_eq_ok.mp h
  obtain ⟨op, mem, t, rfl, spelled, rfl⟩ | ⟨rfl, rfl, -⟩ := takeOneOf_cases taken
  · obtain ⟨rhs, s₂, required, done⟩ := bind_eq_ok.mp done
    cases done
  · cases done
    rfl

theorem leftChain_takes {ops : List BinaryOp} {levels : List (List BinaryOp)}
    {operand : Parse (Option Node)}
    (sound : Takes operand fun ts n _ => Derives false d (.chain levels) ts n) :
    Takes (leftChain ops operand) fun ts n _ => Derives false d (.chain (ops :: levels)) ts n := by
  intro s n s' h
  obtain ⟨r, s₁, ran, done⟩ := bind_eq_ok.mp h
  cases r with
  | none => cases done
  | some first =>
      obtain ⟨links, s₂, repeated, done⟩ := bind_eq_ok.mp done
      cases done
      obtain ⟨ts, rfl, derived⟩ := sound ran
      have round : ∀ ts links s l s',
          Derives false d (.chain (ops :: levels)) ts (joinLeft first links) →
          link ops operand s = .ok (some l) s' → ∃ us, s = s'.prepend us ∧
            Derives false d (.chain (ops :: levels)) (ts ++ us)
              (joinLeft first (links ++ [l])) := by
        intro ts links s l s' lhs linked
        obtain ⟨_, rfl, t, us, rfl, mem, spelled, place, rhs⟩ := link_takes sound linked
        refine ⟨t :: us, rfl, ?_⟩
        simpa [joinLeft, place] using Derives.joined lhs mem spelled rhs
      obtain ⟨us, rfl, last⟩ := many_keeps (I := fun ts links _ =>
        Derives false d (.chain (ops :: levels)) ts (joinLeft first links)) round
        (link_idle ops operand) (.tighter derived) repeated
      exact ⟨ts ++ us, (Tokens.prepend_append _ _ _).symm, last⟩

theorem foldr_leftChain_takes (sound : Sound d inner) (levels : List (List BinaryOp)) :
    Takes (levels.foldr leftChain inner.operand) fun ts n _ =>
      Derives false d (.chain levels) ts n := by
  induction levels with
  | nil =>
      intro s n s' h
      obtain ⟨ts, rfl, e, rfl, derived⟩ := sound.operand h
      exact ⟨ts, rfl, .unjoined derived⟩
  | cons ops levels ih => exact leftChain_takes ih

theorem parseChain_takes (sound : Sound d inner) :
    Takes (parseChain inner) fun ts n _ => Derives false d (.chain binaryLevels) ts n :=
  foldr_leftChain_takes sound binaryLevels

/-! ## Conditions, assignments and commas -/

theorem parseConditional_takes (sound : Sound d inner) :
    Takes (parseConditional inner) fun ts n _ => Derives false d .conditional ts n := by
  intro s n s' h
  obtain ⟨r, s₁, ran, rest⟩ := bind_eq_ok.mp h
  cases r with
  | none => cases rest
  | some condition =>
      obtain ⟨ts, rfl, derived⟩ := parseChain_takes sound ran
      obtain ⟨r, s₂, taken, choice⟩ := bind_eq_ok.mp rest
      obtain ⟨question, rfl, asked, rfl⟩ | ⟨rfl, rfl, -⟩ := takeIf_cases taken
      · obtain ⟨yes, s₃, required, more⟩ := bind_eq_ok.mp choice
        obtain ⟨us, rfl, e, rfl, yesDerived⟩ := sound.conditional (require_eq_ok.mp required)
        obtain ⟨r, s₄, taken, last⟩ := bind_eq_ok.mp more
        obtain ⟨colon, rfl, divided, rfl⟩ | ⟨rfl, rfl, -⟩ := takeIf_cases taken
        · obtain ⟨no, s₅, required, done⟩ := bind_eq_ok.mp last
          obtain ⟨vs, rfl, e', same, noDerived⟩ := sound.conditional (require_eq_ok.mp required)
          cases same
          cases done
          exact ⟨ts ++ question :: us ++ colon :: vs, by simp [Tokens.prepend],
            .ternary derived asked yesDerived divided noDerived⟩
        · obtain ⟨_, _, refused, -⟩ := bind_eq_ok.mp last
          exact absurd refused (refuseNext_ne_ok _ _)
      · obtain ⟨r, s₃, linked, done⟩ := bind_eq_ok.mp choice
        cases r with
        | none =>
            cases done
            cases link_idle _ _ linked
            exact ⟨ts, rfl, .unconditional derived⟩
        | some l =>
            cases done
            obtain ⟨_, rfl, t, us, rfl, mem, spelled, place, e, rfl, other⟩ :=
              link_takes sound.conditional linked
            refine ⟨ts ++ t :: us, (Tokens.prepend_append _ _ _).symm, ?_⟩
            rw [place]
            exact .default derived mem spelled other

theorem parseAssignment_takes (sound : Sound d inner) :
    Takes (parseAssignment inner) fun ts n _ => Derives false d .assignment ts n := by
  intro s n s' h
  obtain ⟨r, s₁, ran, rest⟩ := bind_eq_ok.mp h
  cases r with
  | none => cases rest
  | some target =>
      obtain ⟨ts, rfl, derived⟩ := parseConditional_takes sound ran
      obtain ⟨r, s₂, linked, done⟩ := bind_eq_ok.mp rest
      cases r with
      | none =>
          cases done
          cases link_idle _ _ linked
          exact ⟨ts, rfl, .unassigned derived⟩
      | some l =>
          cases done
          obtain ⟨_, rfl, t, us, rfl, mem, spelled, place, e, rfl, value⟩ :=
            link_takes sound.assignment linked
          refine ⟨ts ++ t :: us, (Tokens.prepend_append _ _ _).symm, ?_⟩
          rw [place]
          exact .assigned derived mem spelled value

theorem furtherItem_takes (sound : Sound d inner) (after : String) :
    Takes (furtherItem after inner) fun ts n _ => ∃ t us, ts = t :: us ∧
      t.isOperator "," = true ∧ Derives false d .assignment us n := by
  intro s n s' h
  obtain ⟨r, s₁, taken, rest⟩ := bind_eq_ok.mp h
  obtain ⟨comma, rfl, separated, rfl⟩ | ⟨rfl, rfl, -⟩ := takeIf_cases taken
  · obtain ⟨m, required, same⟩ := map_eq_ok.mp rest
    cases same
    obtain ⟨us, rfl, derived⟩ := parseAssignment_takes sound (require_eq_ok.mp required)
    exact ⟨comma :: us, rfl, comma, us, rfl, separated, derived⟩
  · cases rest

theorem furtherItem_idle (after : String) : Idle (furtherItem after inner) := by
  intro s s' h
  obtain ⟨r, s₁, taken, rest⟩ := bind_eq_ok.mp h
  obtain ⟨comma, rfl, separated, rfl⟩ | ⟨rfl, rfl, -⟩ := takeIf_cases taken
  · obtain ⟨m, required, same⟩ := map_eq_ok.mp rest
    cases same
  · cases rest
    rfl

/-- An assignment and those behind commas make a list. -/
theorem list_takes (sound : Sound d inner) (after : String) {first : Node} {ts : List Token}
    (derived : Derives false d .assignment ts first) {s s' : Tokens} {others : List Node}
    (h : many (furtherItem after inner) s = .ok others s') :
    ∃ us, s = s'.prepend us ∧
      Derives false d .list (ts ++ us) (.comma (first :: others) first.location) := by
  have round : ∀ ts others s n s',
      Derives false d .list ts (.comma (first :: others) first.location) →
      furtherItem after inner s = .ok (some n) s' → ∃ us, s = s'.prepend us ∧
        Derives false d .list (ts ++ us) (.comma (first :: (others ++ [n])) first.location) := by
    intro ts others s n s' items ran
    obtain ⟨_, rfl, t, us, rfl, separated, item⟩ := furtherItem_takes sound after ran
    exact ⟨t :: us, rfl, .further items separated item⟩
  exact many_keeps (I := fun ts others _ =>
    Derives false d .list ts (.comma (first :: others) first.location)) round
    (furtherItem_idle after) (.first derived) h

theorem parseExpression_takes (sound : Sound d inner) :
    Takes (parseExpression inner) fun ts n _ => Derives false d .expression ts n := by
  intro s n s' h
  obtain ⟨r, s₁, ran, rest⟩ := bind_eq_ok.mp h
  cases r with
  | none => cases rest
  | some first =>
      obtain ⟨ts, rfl, derived⟩ := parseAssignment_takes sound ran
      obtain ⟨others, s₂, repeated, done⟩ := bind_eq_ok.mp rest
      cases others with
      | nil =>
          cases done
          cases eq_of_many_nil (furtherItem_idle _) repeated
          exact ⟨ts, rfl, .single derived⟩
      | cons second more =>
          cases done
          obtain ⟨us, rfl, all⟩ := list_takes sound _ derived repeated
          exact ⟨ts ++ us, (Tokens.prepend_append _ _ _).symm, .several all (by simp)⟩

/-! ## Atoms and members -/

theorem parseAtom_takes (sound : Sound d inner) :
    Takes (parseAtom inner) fun ts n _ => Derives false d .atom ts n := by
  intro s n s' h
  obtain ⟨r, s₁, peeked, rest⟩ := bind_eq_ok.mp h
  cases peeked
  obtain nothing | ⟨t, s₁, rfl⟩ := s.eq_prepend
  · rw [nothing] at rest
    cases rest
  · simp only [Tokens.pending_prepend, List.cons_append, List.head?_cons] at rest
    split at rest
    · next opens =>
        replace rest := (bind_of_ok (skip_prepend s₁ t [])).symm.trans rest
        rw [Tokens.prepend_nil] at rest
        obtain ⟨m, s₂, required, more⟩ := bind_eq_ok.mp rest
        obtain ⟨closing, s₃, expected, done⟩ := bind_eq_ok.mp more
        cases done
        obtain ⟨us, rfl, inside⟩ := parseExpression_takes sound (require_eq_ok.mp required)
        obtain ⟨closes, rfl⟩ := expectSeparator_eq_ok.mp expected
        exact ⟨t :: us ++ [closing], by simp [Tokens.prepend], .paren opens inside closes⟩
    split at rest
    · next kind =>
        cases rest
        exact ⟨[t], rfl, .number kind⟩
    split at rest
    · next kind =>
        cases rest
        exact ⟨[t], rfl, .string kind⟩
    split at rest
    · next isName =>
        cases rest
        exact ⟨[t], rfl, .name isName⟩
    · cases rest

theorem peekAccess_of_next {t : Token} {op : AccessOp} (opens : t.Opens op) (s : Tokens)
    (ts : List Token) : peekAccess (s.prepend (t :: ts)) = .ok (some op) (s.prepend (t :: ts)) := by
  refine (bind_of_ok (peek_apply _)).trans ?_
  simp [opens.1, opens.2]

theorem peekAccess_of_not_next {s : Tokens} (h : ¬s.Next OpensMember) :
    peekAccess s = .ok none s := by
  refine (bind_of_ok (peek_apply _)).trans ?_
  obtain nothing | ⟨t, s, rfl⟩ := s.eq_prepend
  · rw [nothing]
    rfl
  · simp only [Tokens.pending_prepend, List.cons_append, List.head?_cons]
    split
    · next kind =>
        cases found : AccessOp.ofSymbol? t.text with
        | none => rfl
        | some op => exact absurd ⟨t, rfl, op, by simpa using kind, found⟩ h
    · rfl

theorem peekAccess_cases {s s' : Tokens} {r : Option AccessOp} (h : peekAccess s = .ok r s') :
    (∃ (t : Token) (s₁ : Tokens) (op : AccessOp),
        r = some op ∧ t.Opens op ∧ s = s₁.prepend [t] ∧ s' = s) ∨
      (r = none ∧ s' = s ∧ ¬s.Next OpensMember) := by
  by_cases next : s.Next OpensMember
  · obtain ⟨t, s₁, rfl, op, opens⟩ := Tokens.next_iff.mp next
    rw [peekAccess_of_next opens] at h
    cases h
    exact .inl ⟨t, s₁, op, rfl, opens, rfl, rfl⟩
  · rw [peekAccess_of_not_next next] at h
    cases h
    exact .inr ⟨rfl, rfl, next⟩

theorem memberName_eq_ok {op : AccessOp} {s s' : Tokens} {n : Node} :
    memberName op s = .ok n s' ↔
      ∃ t, isName t = true ∧ s = s'.prepend [t] ∧ n = .symbol t.text t.location := by
  constructor
  · intro h
    obtain ⟨r, s₁, taken, rest⟩ := bind_eq_ok.mp h
    obtain ⟨t, rfl, rfl⟩ | ⟨rfl, -, -⟩ := next_cases taken
    · simp only at rest
      split at rest
      · next isName =>
          cases rest
          exact ⟨t, isName, rfl, rfl⟩
      · exact absurd rest (failAt_ne_ok _ _ _)
    · exact absurd rest (failAt_ne_ok _ _ _)
  · rintro ⟨t, isName, rfl, rfl⟩
    refine (bind_of_ok (next_prepend s' t [])).trans ?_
    simp [isName]

/-- A suffix with the tokens `us` can follow what the phrase `X` derives. -/
def Extends (d : Nat) (X : Phrase) (us : List Token) (x : Suffix) : Prop :=
  ∀ ts n, Derives false d X ts n → n.isNew = false → Derives false d X (ts ++ us) (x.apply n)

theorem parseMember_takes (sound : Sound d inner) :
    Takes (parseMember inner) fun us x _ => ∃ t vs, us = t :: vs ∧ OpensMember t ∧
      ∀ X, X.TakesMembers → Extends d X us x := by
  intro s x s' h
  obtain ⟨r, s₁, peeked, rest⟩ := bind_eq_ok.mp h
  obtain ⟨t, s₁, op, rfl, opens, rfl, rfl⟩ | ⟨rfl, rfl, -⟩ := peekAccess_cases peeked
  · replace rest := (here_skip_prepend s₁ t [] _).symm.trans rest
    rw [Tokens.prepend_nil] at rest
    split at rest
    · next index =>
        subst index
        obtain ⟨m, s₂, required, more⟩ := bind_eq_ok.mp rest
        obtain ⟨closing, s₃, expected, done⟩ := bind_eq_ok.mp more
        cases done
        obtain ⟨us, rfl, property⟩ := parseExpression_takes sound (require_eq_ok.mp required)
        obtain ⟨closes, rfl⟩ := expectSeparator_eq_ok.mp expected
        refine ⟨t :: us ++ [closing], by simp [Tokens.prepend], t, us ++ [closing], rfl,
          ⟨_, opens⟩, ?_⟩
        intro X takes ts n object notNew
        simpa [Suffix.apply] using Derives.index takes object (by simp [notNew]) opens property closes
    · next named =>
        obtain ⟨m, s₂, read, done⟩ := bind_eq_ok.mp rest
        cases done
        obtain ⟨name, isName, rfl, rfl⟩ := memberName_eq_ok.mp read
        refine ⟨[t, name], rfl, t, [name], rfl, ⟨_, opens⟩, ?_⟩
        intro X takes ts n object notNew
        exact .member takes object (by simp [notNew]) opens named isName
  · cases rest

theorem parseMember_idle : Idle (parseMember inner) := by
  intro s s' h
  obtain ⟨r, s₁, peeked, rest⟩ := bind_eq_ok.mp h
  obtain ⟨t, s₁, op, rfl, opens, rfl, rfl⟩ | ⟨rfl, rfl, -⟩ := peekAccess_cases peeked
  · obtain ⟨_, _, located, rest⟩ := bind_eq_ok.mp rest
    obtain ⟨_, _, skipped, rest⟩ := bind_eq_ok.mp rest
    split at rest
    · obtain ⟨m, s₂, required, more⟩ := bind_eq_ok.mp rest
      obtain ⟨closing, s₃, expected, done⟩ := bind_eq_ok.mp more
      cases done
    · obtain ⟨m, s₂, read, done⟩ := bind_eq_ok.mp rest
      cases done
  · cases rest
    rfl

theorem parseMember_progresses (sound : Sound d inner) : Progresses (parseMember inner) :=
  (parseMember_takes sound).progresses fun ⟨_, _, same, _⟩ => by simp [same]

theorem not_next_of_parseMember {s s' : Tokens} (h : parseMember inner s = .ok none s') :
    ¬s.Next OpensMember := by
  obtain ⟨r, s₁, peeked, rest⟩ := bind_eq_ok.mp h
  obtain ⟨t, s₁, op, rfl, opens, rfl, rfl⟩ | ⟨-, -, absent⟩ := peekAccess_cases peeked
  · obtain ⟨_, _, located, rest⟩ := bind_eq_ok.mp rest
    obtain ⟨_, _, skipped, rest⟩ := bind_eq_ok.mp rest
    split at rest
    · obtain ⟨m, s₂, required, more⟩ := bind_eq_ok.mp rest
      obtain ⟨closing, s₃, expected, done⟩ := bind_eq_ok.mp more
      cases done
    · obtain ⟨m, s₂, read, done⟩ := bind_eq_ok.mp rest
      cases done
  · exact absent

theorem isNew_apply (n : Node) (x : Suffix) : (x.apply n).isNew = false := by
  cases x <;> rfl

/-! ## Objects, calls and operators before them -/

theorem isNew_of_atom {ambiguous : Bool} {ts : List Token} {n : Node}
    (h : Derives ambiguous d .atom ts n) : n.isNew = false := by
  cases h with
  | member takes | index takes => simp [Phrase.TakesMembers] at takes
  | paren =>
      unfold enclose
      split <;> rfl
  | number | string | name => rfl

theorem parseAccess_takes (sound : Sound d inner) :
    Takes (parseAccess inner) fun ts n s => Derives false d .access ts n ∧ ¬s.Next OpensMember := by
  intro s n s' h
  obtain ⟨r, s₁, taken, rest⟩ := bind_eq_ok.mp h
  obtain ⟨word, rfl, isNew, rfl⟩ | ⟨rfl, rfl, -⟩ := takeIf_cases taken
  · obtain ⟨operand, s₂, required, done⟩ := bind_eq_ok.mp rest
    cases done
    obtain ⟨ts, rfl, ⟨e, rfl, derived⟩, closed⟩ := sound.access (require_eq_ok.mp required)
    exact ⟨word :: ts, rfl, .new isNew derived, closed⟩
  · obtain ⟨r, s₂, ran, more⟩ := bind_eq_ok.mp rest
    cases r with
    | none => cases more
    | some first =>
        obtain ⟨ts, rfl, derived⟩ := parseAtom_takes sound ran
        obtain ⟨suffixes, s₃, repeated, done⟩ := bind_eq_ok.mp more
        cases done
        have round : ∀ ts xs s x s',
            Derives false d .object ts (applyAll first xs) ∧ (applyAll first xs).isNew = false →
            parseMember inner s = .ok (some x) s' → ∃ us, s = s'.prepend us ∧
              Derives false d .object (ts ++ us) (applyAll first (xs ++ [x])) ∧
              (applyAll first (xs ++ [x])).isNew = false := by
          rintro ts xs s x s' ⟨object, notNew⟩ ran
          obtain ⟨us, rfl, _, _, _, _, extends_⟩ := parseMember_takes sound ran
          refine ⟨us, rfl, ?_⟩
          simpa [applyAll, isNew_apply] using extends_ .object (.inl rfl) _ _ object notNew
        obtain ⟨us, rfl, last, -⟩ := many_keeps (I := fun ts xs _ =>
          Derives false d .object ts (applyAll first xs) ∧ (applyAll first xs).isNew = false)
          round parseMember_idle ⟨.bare derived, isNew_of_atom derived⟩ repeated
        exact ⟨ts ++ us, (Tokens.prepend_append _ _ _).symm, .reached last,
          not_next_of_parseMember (many_ends (parseMember_progresses sound) parseMember_idle repeated)⟩

/-- Arguments, through the closing parenthesis, turn what stands before them into a
    call. -/
theorem parseArguments_takes (sound : Sound d inner) {s s' : Tokens} {args : List Node}
    (h : parseArguments inner s = .ok args s') :
    ∃ us, s = s'.prepend us ∧ ∀ ts n (opening : Token), Derives false d .call ts n →
      opening.isSeparator '(' = true →
      Derives false d .call (ts ++ opening :: us) (.call n args opening.location) := by
  obtain ⟨r, s₁, taken, rest⟩ := bind_eq_ok.mp h
  obtain ⟨closing, rfl, closes, rfl⟩ | ⟨rfl, rfl, -⟩ := takeIf_cases taken
  · cases rest
    exact ⟨[closing], rfl, fun ts n opening callee opens => .calledEmpty callee opens closes⟩
  · obtain ⟨first, s₁, required, more⟩ := bind_eq_ok.mp rest
    obtain ⟨us, rfl, derived⟩ := parseAssignment_takes sound (require_eq_ok.mp required)
    obtain ⟨others, s₂, repeated, end_⟩ := bind_eq_ok.mp more
    obtain ⟨vs, rfl, all⟩ := list_takes sound _ derived repeated
    obtain ⟨r, s₃, taken, last⟩ := bind_eq_ok.mp end_
    obtain ⟨closing, rfl, closes, rfl⟩ | ⟨rfl, rfl, -⟩ := takeIf_cases taken
    · cases last
      refine ⟨us ++ vs ++ [closing], by simp [Tokens.prepend], ?_⟩
      intro ts n opening callee opens
      simpa using Derives.called callee opens all closes
    · exact absurd last (refuseNext_ne_ok _ _)

theorem parseSuffix_takes (sound : Sound d inner) :
    Takes (parseSuffix inner) fun us x _ => ∃ t vs, us = t :: vs ∧
      (OpensMember t ∧ Extends d .call us x ∨
        ∀ ts n, Derives false d .call ts n → Derives false d .call (ts ++ us) (x.apply n)) := by
  intro s x s' h
  obtain ⟨r, s₁, taken, rest⟩ := bind_eq_ok.mp h
  obtain ⟨opening, rfl, opens, rfl⟩ | ⟨rfl, rfl, -⟩ := takeIf_cases taken
  · obtain ⟨args, s₂, ran, done⟩ := bind_eq_ok.mp rest
    cases done
    obtain ⟨us, rfl, calls⟩ := parseArguments_takes sound ran
    exact ⟨opening :: us, rfl, opening, us, rfl,
      .inr fun ts n callee => calls ts n opening callee opens⟩
  · obtain ⟨us, rfl, t, vs, rfl, opens, extends_⟩ := parseMember_takes sound rest
    exact ⟨t :: vs, rfl, t, vs, rfl, .inl ⟨opens, extends_ .call (.inr rfl)⟩⟩

theorem parseSuffix_idle : Idle (parseSuffix inner) := by
  intro s s' h
  obtain ⟨r, s₁, taken, rest⟩ := bind_eq_ok.mp h
  obtain ⟨opening, rfl, opens, rfl⟩ | ⟨rfl, rfl, -⟩ := takeIf_cases taken
  · obtain ⟨args, s₂, ran, done⟩ := bind_eq_ok.mp rest
    cases done
  · exact parseMember_idle rest

theorem parseCall_takes (sound : Sound d inner) :
    Takes (parseCall inner) fun ts n _ => Derives false d .call ts n := by
  intro s n s' h
  obtain ⟨r, s₁, ran, rest⟩ := bind_eq_ok.mp h
  cases r with
  | none => cases rest
  | some first =>
      obtain ⟨ts, rfl, derived, closed⟩ := parseAccess_takes sound ran
      obtain ⟨suffixes, s₂, repeated, done⟩ := bind_eq_ok.mp rest
      cases done
      -- a member never follows a `new` expression: its operand took all there were
      have round : ∀ ts xs s x s',
          Derives false d .call ts (applyAll first xs) ∧
            ((applyAll first xs).isNew = true → ¬s.Next OpensMember) →
          parseSuffix inner s = .ok (some x) s' → ∃ us, s = s'.prepend us ∧
            Derives false d .call (ts ++ us) (applyAll first (xs ++ [x])) ∧
            ((applyAll first (xs ++ [x])).isNew = true → ¬s'.Next OpensMember) := by
        rintro ts xs s x s' ⟨callee, closed⟩ ran
        obtain ⟨us, rfl, t, vs, rfl, follows⟩ := parseSuffix_takes sound ran
        have same : applyAll first (xs ++ [x]) = x.apply (applyAll first xs) := by simp [applyAll]
        rw [same, isNew_apply]
        refine ⟨t :: vs, rfl, ?_, by simp⟩
        obtain ⟨opens, extends_⟩ | calls := follows
        · refine extends_ _ _ callee (Bool.eq_false_iff.mpr fun isNew => ?_)
          exact closed isNew ((Tokens.next_prepend_cons _ _ _ _).mpr opens)
        · exact calls _ _ callee
      obtain ⟨us, rfl, last, -⟩ := many_keeps (I := fun ts xs s =>
        Derives false d .call ts (applyAll first xs) ∧
          ((applyAll first xs).isNew = true → ¬s.Next OpensMember))
        round parseSuffix_idle ⟨.uncalled derived, fun _ => closed⟩ repeated
      exact ⟨ts ++ us, (Tokens.prepend_append _ _ _).symm, last⟩

theorem takeStep_cases {s s' : Tokens} {r : Option (Step × Location)}
    (h : takeStep s = .ok r s') :
    (∃ t op, r = some (op, t.location) ∧ t.isOperator (Step.symbol op) = true ∧
        s = s'.prepend [t]) ∨
      (r = none ∧ s' = s) := by
  obtain ⟨r, s₁, taken, rest⟩ := bind_eq_ok.mp h
  obtain ⟨t, rfl, passes, rfl⟩ | ⟨rfl, rfl, -⟩ := takeIf_cases taken
  · simp only [Bool.and_eq_true, decide_eq_true_eq] at passes
    obtain ⟨op, found⟩ := Option.isSome_iff_exists.mp passes.2
    simp only [found, Option.map_some] at rest
    cases rest
    have spelled : Step.symbol op = t.text := by
      simpa using List.find?_some found
    refine .inl ⟨t, op, rfl, ?_, rfl⟩
    simp [Token.isOperator, Lexeme.operator, ← passes.1, spelled]
  · cases rest
    exact .inr ⟨rfl, rfl⟩

theorem parseUpdate_takes (sound : Sound d inner) :
    Takes (parseUpdate inner) fun ts n _ => Derives false d .update ts n := by
  intro s n s' h
  obtain ⟨r, s₁, taken, rest⟩ := bind_eq_ok.mp h
  obtain ⟨op, mem, t, rfl, spelled, rfl⟩ | ⟨rfl, rfl, -⟩ := takeOneOf_cases taken
  · obtain ⟨operand, s₂, required, done⟩ := bind_eq_ok.mp rest
    cases done
    obtain ⟨ts, rfl, derived⟩ := parseCall_takes sound (require_eq_ok.mp required)
    exact ⟨t :: ts, rfl, .steppedBefore mem spelled derived⟩
  · obtain ⟨r, s₂, ran, more⟩ := bind_eq_ok.mp rest
    cases r with
    | none => cases more
    | some operand =>
        obtain ⟨ts, rfl, derived⟩ := parseCall_takes sound ran
        obtain ⟨r, s₃, taken, last⟩ := bind_eq_ok.mp more
        obtain ⟨t, op, rfl, spelled, rfl⟩ | ⟨rfl, rfl⟩ := takeStep_cases taken
        · cases last
          exact ⟨ts ++ [t], (Tokens.prepend_append _ _ _).symm, .steppedBehind derived spelled⟩
        · cases last
          exact ⟨ts, rfl, .unstepped derived⟩

theorem parseOperand_takes (sound : Sound d inner) :
    Takes (parseOperand inner) fun ts n _ => Derives false d .operand ts n := by
  intro s n s' h
  obtain ⟨r, s₁, taken, rest⟩ := bind_eq_ok.mp h
  obtain ⟨op, mem, t, rfl, spelled, rfl⟩ | ⟨rfl, rfl, -⟩ := takeOneOf_cases taken
  · obtain ⟨operand, s₂, required, done⟩ := bind_eq_ok.mp rest
    cases done
    obtain ⟨ts, rfl, e, rfl, derived⟩ := sound.operand (require_eq_ok.mp required)
    exact ⟨t :: ts, rfl, .prefixed mem spelled derived⟩
  · obtain ⟨ts, rfl, derived⟩ := parseUpdate_takes sound rest
    exact ⟨ts, rfl, .unprefixed derived⟩

/-! ## All levels -/

theorem takes_tooDeep {α : Type} (D : List Token → α → Tokens → Prop) : Takes tooDeep D := by
  intro s a s' h
  exact absurd h (tooDeep_ne_ok _)

/-- At every level, the parsers of expressions take what the grammar derives there. -/
theorem sound_within : ∀ d, Sound d (within d)
  | 0 => ⟨takes_tooDeep _, takes_tooDeep _, takes_tooDeep _, takes_tooDeep _⟩
  | d + 1 => by
      have sound := sound_within d
      constructor
      · intro s n s' h
        obtain ⟨ts, rfl, derived⟩ := parseAssignment_takes sound h
        exact ⟨ts, rfl, d, rfl, derived⟩
      · intro s n s' h
        obtain ⟨ts, rfl, derived⟩ := parseConditional_takes sound h
        exact ⟨ts, rfl, d, rfl, derived⟩
      · intro s n s' h
        obtain ⟨ts, rfl, derived⟩ := parseOperand_takes sound h
        exact ⟨ts, rfl, d, rfl, derived⟩
      · intro s n s' h
        obtain ⟨ts, rfl, derived, closed⟩ := parseAccess_takes sound h
        exact ⟨ts, rfl, ⟨d, rfl, derived⟩, closed⟩

end Scriptlet.Grammar
