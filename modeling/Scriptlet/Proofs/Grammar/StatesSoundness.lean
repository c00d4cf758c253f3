import Scriptlet.Proofs.Grammar.Follow
import Scriptlet.Proofs.Grammar.Soundness
import Scriptlet.Proofs.Grammar.States

/-! # The parsers of statements find only what the grammar states

As for expressions, every parser takes a row of tokens that has its result as a tree.
A statement that ends in an open chain of arms is never followed by the word of an arm:
the chain would have taken it.
-/

namespace Scriptlet.Grammar

open Parse

variable {d : Nat} {inner : Grammar} {s s' : Tokens}

/-- A parser of statements takes what is stated with `d` levels open to it. -/
def TakesStatements (d : Nat) (p : Parse (Option Node)) : Prop :=
  Takes p fun ts n s => States false d .statement ts n ∧ (n.endsOpen = true → ¬s.Next ArmWord)

/-- The parsers of the level inside take what is derived and stated there. -/
structure SoundStatements (d : Nat) (inner : Grammar) : Prop extends Sound d inner where
  statement : Takes inner.statement fun ts n s => ∃ e, d = e + 1 ∧
    States false e .statement ts n ∧ (n.endsOpen = true → ¬s.Next ArmWord)
  idle : ∀ ⦃s s'⦄, inner.statement s = .ok none s' → s' = s ∧ 0 < d

/-! ## Blocks -/

theorem many_statement_takes (sound : SoundStatements d inner) (place : Location) {ns : List Node}
    (h : many inner.statement s = .ok ns s') :
    ∃ ts, s = s'.prepend ts ∧ States false d .body ts (.block ns place) := by
  have round : ∀ ts ns s n s', States false d .body ts (.block ns place) →
      inner.statement s = .ok (some n) s' → ∃ us, s = s'.prepend us ∧
        States false d .body (ts ++ us) (.block (ns ++ [n]) place) := by
    intro ts ns s n s' before ran
    obtain ⟨us, rfl, e, rfl, stated, -⟩ := sound.statement ran
    exact ⟨us, rfl, .next before stated⟩
  -- the parser of statements is asked once at least, so there is a level for them
  have nonempty : States false d .body [] (.block [] place) := by
    obtain ⟨r, s₁, ran, -⟩ := bind_eq_ok.mp h
    cases r with
    | none =>
        obtain ⟨e, rfl⟩ := Nat.exists_eq_add_of_lt (sound.idle ran).2
        exact .none
    | some n =>
        obtain ⟨_, _, e, rfl, -⟩ := sound.statement ran
        exact .none
  obtain ⟨us, rfl, all⟩ := many_keeps (I := fun ts ns _ => States false d .body ts (.block ns place))
    round (fun _ _ ran => (sound.idle ran).1) nonempty h
  exact ⟨us, rfl, all⟩

theorem ends_of_takeIf {c : Char} {r : Option Token}
    (h : takeSeparator c s = .ok r s') : ∃ ts, s = s'.prepend ts ∧ Ends false c ts := by
  obtain ⟨t, -, separator, rfl⟩ | ⟨-, rfl, -⟩ := takeIf_cases h
  · exact ⟨[t], rfl, .inl ⟨t, rfl, separator⟩⟩
  · exact ⟨[], rfl, .inr ⟨rfl, rfl⟩⟩

/-- What a block is made of. -/
theorem parseBlock_cases {n : Node} (h : parseBlock inner s = .ok n s') :
    ∃ opening s₁ ns s₂ r, opening.isSeparator '\x7b' = true ∧ s = s₁.prepend [opening] ∧
      many inner.statement s₁ = .ok ns s₂ ∧ takeSeparator '\x7d' s₂ = .ok r s' ∧
      n = .block ns opening.location := by
  obtain ⟨opening, s₁, expected, rest⟩ := bind_eq_ok.mp h
  obtain ⟨opens, rfl⟩ := expectSeparator_eq_ok.mp expected
  obtain ⟨ns, s₂, repeated, more⟩ := bind_eq_ok.mp rest
  obtain ⟨r, s₃, taken, last⟩ := bind_eq_ok.mp more
  split at last
  · obtain ⟨_, _, failed, -⟩ := bind_eq_ok.mp last
    exact absurd failed (failAt_ne_ok _ _ _)
  · cases last
    exact ⟨opening, s₁, ns, s₂, r, opens, rfl, repeated, taken, rfl⟩

theorem parseBlock_takes (sound : SoundStatements d inner) {n : Node}
    (h : parseBlock inner s = .ok n s') :
    ∃ ts, s = s'.prepend ts ∧ States false d .statement ts n ∧ n.isChain = false := by
  obtain ⟨opening, s₁, ns, s₂, r, opens, rfl, repeated, taken, rfl⟩ := parseBlock_cases h
  obtain ⟨ts, rfl, all⟩ := many_statement_takes sound .start repeated
  obtain ⟨us, rfl, ending⟩ := ends_of_takeIf taken
  exact ⟨opening :: ts ++ us, by simp [Tokens.prepend], .block opens all ending, rfl⟩

/-! ## Declarations -/

theorem parseDeclarator_takes (sound : Sound d inner) {x : Declarator Node}
    (h : parseDeclarator inner s = .ok x s') : ∃ ts, s = s'.prepend ts ∧ Declares d ts x := by
  obtain ⟨r, s₁, taken, rest⟩ := bind_eq_ok.mp h
  obtain ⟨t, rfl, isName, rfl⟩ | ⟨rfl, rfl, -⟩ := takeIf_cases taken
  · obtain ⟨r, s₂, taken, more⟩ := bind_eq_ok.mp rest
    obtain ⟨sign, rfl, assigned, rfl⟩ | ⟨rfl, rfl, -⟩ := takeIf_cases taken
    · obtain ⟨value, s₃, required, done⟩ := bind_eq_ok.mp more
      cases done
      obtain ⟨ts, rfl, derived⟩ := parseAssignment_takes sound (require_eq_ok.mp required)
      exact ⟨t :: sign :: ts, rfl, .valued isName assigned derived⟩
    · cases more
      exact ⟨[t], rfl, .bare isName⟩
  · obtain ⟨_, _, -, failed⟩ := bind_eq_ok.mp rest
    exact absurd failed (failAt_ne_ok _ _ _)

theorem furtherDeclarator_apply (s : Tokens) (t u : Token) :
    furtherDeclarator inner (s.prepend [t, u]) =
      if t.isOperator "," then (some <$> parseDeclarator inner) (s.prepend [u])
      else .ok none (s.prepend [t, u]) := by
  have peeked : peekTwo (s.prepend [t, u]) = .ok (some t, some u) (s.prepend [t, u]) := rfl
  refine (bind_of_ok peeked).trans ?_
  simp only
  split <;> rfl

/-- Another name is declared where a comma comes next that is not the last token. -/
theorem furtherDeclarator_cases {r : Option (Declarator Node)}
    (h : furtherDeclarator inner s = .ok r s') :
    (∃ (t : Token) (s₁ : Tokens) (x : Declarator Node), r = some x ∧ s = s₁.prepend [t] ∧
        t.isOperator "," = true ∧ parseDeclarator inner s₁ = .ok x s') ∨
      (r = none ∧ s' = s) := by
  obtain ⟨_ | ⟨t, _ | ⟨u, ts⟩⟩, stop⟩ := s
  · cases h
    exact .inr ⟨rfl, rfl⟩
  · cases h
    exact .inr ⟨rfl, rfl⟩
  · replace h := (furtherDeclarator_apply ⟨ts, stop⟩ t u).symm.trans h
    split at h
    · next separated =>
        obtain ⟨x, ran, rfl⟩ := map_eq_ok.mp h
        exact .inl ⟨t, ⟨u :: ts, stop⟩, x, rfl, rfl, separated, ran⟩
    · cases h
      exact .inr ⟨rfl, rfl⟩

theorem furtherDeclarator_takes (sound : Sound d inner) :
    Takes (furtherDeclarator inner) fun ts x _ => ∃ t us, ts = t :: us ∧
      t.isOperator "," = true ∧ Declares d us x := by
  intro s x s' h
  obtain ⟨t, s₁, _, same, rfl, separated, ran⟩ | ⟨absurd, -⟩ := furtherDeclarator_cases h
  · cases same
    obtain ⟨us, rfl, declared⟩ := parseDeclarator_takes sound ran
    exact ⟨t :: us, rfl, t, us, rfl, separated, declared⟩
  · cases absurd

theorem furtherDeclarator_idle : Idle (furtherDeclarator inner) := by
  intro s s' h
  obtain ⟨t, s₁, x, absurd, -⟩ | ⟨-, same⟩ := furtherDeclarator_cases h
  · cases absurd
  · exact same

theorem furtherDeclarator_progresses (sound : Sound d inner) :
    Progresses (furtherDeclarator inner) :=
  (furtherDeclarator_takes sound).progresses fun ⟨_, _, same, _⟩ => by simp [same]

/-- What declarations are made of, behind the word `var`. -/
theorem parseVar_cases {t : Token} {n : Node} (h : parseVar inner (s.prepend [t]) = .ok n s') :
    ∃ first s₁ others s₂ r, parseDeclarator inner s = .ok first s₁ ∧
      many (furtherDeclarator inner) s₁ = .ok others s₂ ∧ takeSeparator ';' s₂ = .ok r s' ∧
      n = .var (first :: others) t.location := by
  replace h := (here_skip_prepend s t [] _).symm.trans h
  rw [Tokens.prepend_nil] at h
  obtain ⟨first, s₁, ran, rest⟩ := bind_eq_ok.mp h
  obtain ⟨others, s₂, repeated, more⟩ := bind_eq_ok.mp rest
  obtain ⟨r, s₃, taken, done⟩ := bind_eq_ok.mp more
  cases done
  exact ⟨first, s₁, others, s₂, r, ran, repeated, taken, rfl⟩

theorem parseVar_takes (sound : Sound d inner) {t : Token} {n : Node}
    (isVar : t.isSymbol "var" = true) (h : parseVar inner (s.prepend [t]) = .ok n s') :
    ∃ ts, s.prepend [t] = s'.prepend ts ∧ States false d .statement ts n ∧ n.isChain = false := by
  obtain ⟨first, s₁, others, s₂, r, ran, repeated, taken, rfl⟩ := parseVar_cases h
  obtain ⟨ts, rfl, declared⟩ := parseDeclarator_takes sound ran
  have round : ∀ ts xs s x s',
      States false d .declarations ts (.var (first :: xs) .start) →
      furtherDeclarator inner s = .ok (some x) s' → ∃ us, s = s'.prepend us ∧
        States false d .declarations (ts ++ us) (.var (first :: (xs ++ [x])) .start) := by
    intro ts xs s x s' items ran
    obtain ⟨_, rfl, comma, us, rfl, separated, item⟩ := furtherDeclarator_takes sound ran
    exact ⟨comma :: us, rfl, .alsoDeclared items separated item⟩
  obtain ⟨us, rfl, all⟩ := many_keeps (I := fun ts xs _ =>
    States false d .declarations ts (.var (first :: xs) .start)) round
    furtherDeclarator_idle (.declared declared) repeated
  obtain ⟨vs, rfl, ending⟩ := ends_of_takeIf taken
  exact ⟨t :: (ts ++ us) ++ vs, by simp [Tokens.prepend], .var isVar all ending, rfl⟩

/-! ## Arms -/

theorem parseBody_eq_ok {word : BranchWord} {n : Node} :
    parseBody inner word s = .ok n s' ↔ inner.statement s = .ok (some n) s' := by
  constructor
  · intro h
    obtain ⟨r, s₁, ran, done⟩ := bind_eq_ok.mp h
    cases r with
    | none => exact absurd done (refuseNext_ne_ok _ _)
    | some m =>
        cases done
        exact ran
  · intro h
    exact bind_of_ok h

/-- What an arm is made of, behind its word. -/
theorem parseArm_cases (sound : Sound d inner) {word : BranchWord} {b : Branch Node}
    (h : parseArm inner word s = .ok b s') :
    ∃ cs c s₁ n, s = s₁.prepend cs ∧ Conditions d cs c ∧ inner.statement s₁ = .ok (some n) s' ∧
      b = ⟨word, some c, n⟩ := by
  obtain ⟨opening, s₁, expected, rest⟩ := bind_eq_ok.mp h
  obtain ⟨opens, rfl⟩ := expectSeparator_eq_ok.mp expected
  obtain ⟨c, s₂, required, more⟩ := bind_eq_ok.mp rest
  obtain ⟨us, rfl, inside⟩ := parseExpression_takes sound (require_eq_ok.mp required)
  obtain ⟨closing, s₃, expected, last⟩ := bind_eq_ok.mp more
  obtain ⟨closes, rfl⟩ := expectSeparator_eq_ok.mp expected
  obtain ⟨n, s₄, body, done⟩ := bind_eq_ok.mp last
  cases done
  exact ⟨opening :: us ++ [closing], c, s₃, n, by simp [Tokens.prepend],
    .paren opens inside closes, parseBody_eq_ok.mp body, rfl⟩

theorem parseArm_takes (sound : SoundStatements d inner) {word : BranchWord} {b : Branch Node}
    (h : parseArm inner word s = .ok b s') :
    ∃ cs c ts n e, s = s'.prepend (cs ++ ts) ∧ b = ⟨word, some c, n⟩ ∧ d = e + 1 ∧
      Conditions d cs c ∧ States false e .statement ts n ∧
      (n.endsOpen = true → ¬s'.Next ArmWord) := by
  obtain ⟨cs, c, s₁, n, rfl, condition, body, rfl⟩ := parseArm_cases sound.toSound h
  obtain ⟨ts, rfl, e, rfl, stated, closed⟩ := sound.statement body
  exact ⟨cs, c, ts, n, e, by simp [Tokens.prepend], rfl, rfl, condition, stated, closed⟩

theorem furtherArm_apply (s : Tokens) (t : Token) :
    furtherArm inner (s.prepend [t]) =
      if t.isSymbol "elseif" then (some <$> parseArm inner .elseif) s
      else if t.isSymbol "elsif" then (some <$> parseArm inner .elsif) s
      else if t.isSymbol "else" && s.pending.head?.any (·.isSymbol "if") then
        (some <$> parseArm inner .elseIf) ⟨s.pending.tail, s.stop⟩
      else .ok none (s.prepend [t]) := by
  have peeked : peekTwo (s.prepend [t]) = .ok (some t, s.pending[0]?) (s.prepend [t]) := rfl
  refine (bind_of_ok peeked).trans ?_
  simp only [List.head?_eq_getElem?]
  split
  · rfl
  split
  · rfl
  split
  · obtain ⟨_ | ⟨u, ts⟩, stop⟩ := s <;> rfl
  · rfl

/-- What comes next where no further arm begins. -/
def NoFurtherArm (s : Tokens) : Prop :=
  ∀ (t : Token) (s₁ : Tokens), s = s₁.prepend [t] → ArmWord t →
    t.isSymbol "else" = true ∧ ¬s₁.Next (·.isSymbol "if" = true)

theorem toLexeme_of_isSymbol {t : Token} {text : String} (h : t.isSymbol text = true) :
    t.toLexeme = .symbol text :=
  beq_iff_eq.mp h

/-- The three ways a further arm begins. -/
theorem furtherArm_splits (inner : Grammar) (s : Tokens) :
    (∃ (word : BranchWord) (ws : List Token) (s₁ : Tokens),
        word ∈ [BranchWord.elseif, .elsif, .elseIf] ∧ word.Introduces ws ∧ s = s₁.prepend ws ∧
        s.Next ArmWord ∧ furtherArm inner s = (some <$> parseArm inner word) s₁) ∨
      (furtherArm inner s = .ok none s ∧ NoFurtherArm s) := by
  obtain nothing | ⟨t, s, rfl⟩ := s.eq_prepend
  · obtain ⟨_, stop⟩ := s
    cases nothing
    exact .inr ⟨rfl, by simp [NoFurtherArm, Tokens.prepend]⟩
  rw [furtherArm_apply]
  split
  · next isWord =>
      exact .inl ⟨.elseif, [t], s, by decide, congrArg (fun l => [l]) (toLexeme_of_isSymbol isWord),
        rfl, ⟨t, rfl, .inl isWord⟩, rfl⟩
  split
  · next isWord =>
      exact .inl ⟨.elsif, [t], s, by decide, congrArg (fun l => [l]) (toLexeme_of_isSymbol isWord),
        rfl, ⟨t, rfl, .inr (.inl isWord)⟩, rfl⟩
  split
  · next words =>
      obtain ⟨isElse, isIf⟩ := Bool.and_eq_true_iff.mp words
      obtain ⟨_ | ⟨u, ts⟩, stop⟩ := s
      · cases isIf
      refine .inl ⟨.elseIf, [t, u], ⟨ts, stop⟩, by decide, ?_, rfl,
        ⟨t, rfl, .inr (.inr isElse)⟩, rfl⟩
      simp only [BranchWord.Introduces, List.map_cons, toLexeme_of_isSymbol isElse,
        toLexeme_of_isSymbol isIf]
      rfl
  · next notElseif notElsif noIf =>
      refine .inr ⟨rfl, ?_⟩
      intro u s₁ same isWord
      obtain ⟨rfl, rfl⟩ := Tokens.prepend_singleton_inj same
      obtain absurd | absurd | isElse := isWord
      · exact (notElseif absurd).elim
      · exact (notElsif absurd).elim
      refine ⟨isElse, ?_⟩
      rintro ⟨u, head, isIf⟩
      rw [Option.mem_def] at head
      simp [isElse, head, isIf] at noIf

theorem furtherArm_cases {r : Option (Branch Node)} (h : furtherArm inner s = .ok r s') :
    (∃ (word : BranchWord) (ws : List Token) (s₁ : Tokens) (b : Branch Node), r = some b ∧
        word ∈ [BranchWord.elseif, .elsif, .elseIf] ∧ word.Introduces ws ∧ s = s₁.prepend ws ∧
        s.Next ArmWord ∧ parseArm inner word s₁ = .ok b s') ∨
      (r = none ∧ s' = s ∧ NoFurtherArm s) := by
  obtain ⟨word, ws, s₁, further, introduced, same, next, ran⟩ | ⟨ran, absent⟩ :=
    furtherArm_splits inner s
  · obtain ⟨b, found, rfl⟩ := map_eq_ok.mp (ran.symm.trans h)
    exact .inl ⟨word, ws, s₁, b, rfl, further, introduced, same, next, found⟩
  · cases ran.symm.trans h
    exact .inr ⟨rfl, rfl, absent⟩

theorem furtherArm_idle : Idle (furtherArm inner) := by
  intro s s' h
  obtain ⟨_, _, _, _, absurd, -⟩ | ⟨-, same, -⟩ := furtherArm_cases h
  · cases absurd
  · exact same

theorem introduces_ne_nil {word : BranchWord} {ws : List Token}
    (introduced : word.Introduces ws) : ws ≠ [] := by
  rintro rfl
  cases word <;> simp [BranchWord.Introduces, BranchWord.pieces, Piece.lexemes,
    Piece.symbol] at introduced

theorem furtherArm_progresses (sound : SoundStatements d inner) :
    Progresses (furtherArm inner) := by
  intro s b s' h
  obtain ⟨word, ws, s₁, b, -, further, introduced, rfl, -, ran⟩ | ⟨absurd, -⟩ :=
    furtherArm_cases h
  · obtain ⟨cs, c, ts, n, e, rfl, -⟩ := parseArm_takes sound ran
    have := List.length_pos_iff.mpr (introduces_ne_nil introduced)
    simp only [Tokens.pending_prepend, List.length_append]
    omega
  · cases absurd

theorem openBody_append (bs : List (Branch Node)) (b : Branch Node) :
    openBody (bs ++ [b]) = b.body.endsOpen := by
  simp [openBody]

theorem endsOpen_append (bs : List (Branch Node)) (b : Branch Node) (place : Location) :
    (Node.chain (bs ++ [b]) place).endsOpen = decide (b.word ≠ .else_) := by
  simp [Node.endsOpen]

/-- A first arm and those behind it make a row of arms, and the body of the last one does
    not go on. -/
theorem arms_take (sound : SoundStatements (d + 1) inner) {t : Token} {first : Branch Node}
    {others : List (Branch Node)} {s₁ : Tokens} (isIf : t.isSymbol "if" = true)
    (ran : parseArm inner .if_ s = .ok first s₁)
    (repeated : many (furtherArm inner) s₁ = .ok others s') :
    ∃ ts, s = s'.prepend ts ∧
      States false (d + 1) .arms (t :: ts) (.chain (first :: others) t.location) ∧
      (openBody (first :: others) = true → ¬s'.Next ArmWord) := by
  obtain ⟨cs, c, ts, n, e, rfl, rfl, same, condition, body, closed⟩ := parseArm_takes sound ran
  cases same
  have round : ∀ ts bs s b s',
      States false (d + 1) .arms ts (.chain (⟨.if_, some c, n⟩ :: bs) t.location) ∧
        (openBody (⟨.if_, some c, n⟩ :: bs) = true → ¬s.Next ArmWord) →
      furtherArm inner s = .ok (some b) s' → ∃ us, s = s'.prepend us ∧
        States false (d + 1) .arms (ts ++ us) (.chain (⟨.if_, some c, n⟩ :: (bs ++ [b])) t.location) ∧
        (openBody (⟨.if_, some c, n⟩ :: (bs ++ [b])) = true → ¬s'.Next ArmWord) := by
    rintro ts bs s b s' ⟨arms, closed⟩ ran
    obtain ⟨word, ws, s₁, b', same, further, introduced, rfl, next, ran⟩ | ⟨absurd, -⟩ :=
      furtherArm_cases ran
    · cases same
      obtain ⟨cs, c', us, m, e, rfl, rfl, same, condition, body, still⟩ := parseArm_takes sound ran
      cases same
      refine ⟨ws ++ cs ++ us, by simp [Tokens.prepend], ?_, ?_⟩
      · exact .elseArm arms (Bool.eq_false_iff.mpr fun opened => closed opened next) further
          introduced condition body
      · rw [← List.cons_append, openBody_append]
        exact still
    · cases absurd
  have start : States false (d + 1) .arms (t :: cs ++ ts)
      (.chain [⟨.if_, some c, n⟩] t.location) ∧
      (openBody [⟨.if_, some c, n⟩] = true → ¬s₁.Next ArmWord) :=
    ⟨.ifArm isIf condition body, closed⟩
  obtain ⟨us, rfl, arms, closed⟩ := many_keeps (I := fun ts bs s =>
    States false (d + 1) .arms ts (.chain (⟨.if_, some c, n⟩ :: bs) t.location) ∧
      (openBody (⟨.if_, some c, n⟩ :: bs) = true → ¬s.Next ArmWord))
    round furtherArm_idle start repeated
  exact ⟨cs ++ ts ++ us, by simp [Tokens.prepend], arms, closed⟩

/-- There is a last arm without a condition exactly where the word `else` comes next. -/
theorem lastArm_cases {bs : List (Branch Node)} (h : lastArm inner s = .ok bs s') :
    (∃ word s₁ n, s = s₁.prepend [word] ∧ word.isSymbol "else" = true ∧
        inner.statement s₁ = .ok (some n) s' ∧ bs = [⟨.else_, none, n⟩]) ∨
      (bs = [] ∧ s' = s ∧ ¬s.Next (·.isSymbol "else" = true)) := by
  obtain ⟨r, s₁, taken, rest⟩ := bind_eq_ok.mp h
  obtain ⟨word, rfl, isElse, rfl⟩ | ⟨rfl, rfl, noElse⟩ := takeIf_cases taken
  · obtain ⟨n, s₂, body, done⟩ := bind_eq_ok.mp rest
    cases done
    exact .inl ⟨word, s₁, n, rfl, isElse, parseBody_eq_ok.mp body, rfl⟩
  · cases rest
    exact .inr ⟨rfl, rfl, noElse⟩

/-- What a chain of arms is made of, behind the word `if`. -/
theorem parseIf_cases {t : Token} {n : Node} (h : parseIf inner (s.prepend [t]) = .ok n s') :
    ∃ first s₁ others s₂ last, parseArm inner .if_ s = .ok first s₁ ∧
      many (furtherArm inner) s₁ = .ok others s₂ ∧ lastArm inner s₂ = .ok last s' ∧
      n = .chain (first :: others ++ last) t.location := by
  replace h := (here_skip_prepend s t [] _).symm.trans h
  rw [Tokens.prepend_nil] at h
  obtain ⟨first, s₁, ran, rest⟩ := bind_eq_ok.mp h
  obtain ⟨others, s₂, repeated, more⟩ := bind_eq_ok.mp rest
  obtain ⟨last, s₃, lastly, done⟩ := bind_eq_ok.mp more
  cases done
  exact ⟨first, s₁, others, s₂, last, ran, repeated, lastly, rfl⟩

theorem parseIf_takes (sound : SoundStatements d inner) {t : Token} {n : Node}
    (isIf : t.isSymbol "if" = true) (h : parseIf inner (s.prepend [t]) = .ok n s') :
    ∃ ts, s.prepend [t] = s'.prepend ts ∧ States false d .statement ts n ∧
      (n.endsOpen = true → ¬s'.Next ArmWord) := by
  obtain ⟨first, s₁, others, s₂, last, ran, repeated, lastly, rfl⟩ := parseIf_cases h
  obtain ⟨_, _, _, _, e, -, -, rfl, -⟩ := parseArm_takes sound ran
  have noFurther : NoFurtherArm s₂ := by
    obtain ⟨_, _, _, _, absurd, -⟩ | ⟨-, -, noFurther⟩ := furtherArm_cases
      (many_ends (furtherArm_progresses sound) furtherArm_idle repeated)
    · cases absurd
    · exact noFurther
  obtain ⟨ts, rfl, arms, closed⟩ := arms_take sound isIf ran repeated
  obtain ⟨word, s₃, n, rfl, isElse, body, rfl⟩ | ⟨rfl, rfl, noElse⟩ := lastArm_cases lastly
  · -- the words `else if` would have introduced a further arm
    obtain ⟨-, notIf⟩ := noFurther word s₃ rfl (.inr (.inr isElse))
    obtain ⟨us, rfl, e, same, stated, -⟩ := sound.statement body
    cases same
    refine ⟨t :: ts ++ word :: us, by simp [Tokens.prepend], ?_, ?_⟩
    · refine .otherwise arms ?_ isElse stated ?_
      · refine Bool.eq_false_iff.mpr fun opened => closed opened ?_
        exact ⟨word, rfl, .inr (.inr isElse)⟩
      · refine Bool.eq_false_iff.mpr fun isChain => notIf ?_
        obtain ⟨v, vs, rfl, isIf⟩ := stated.chain_begins isChain
        exact ⟨v, rfl, isIf⟩
    · rw [endsOpen_append]
      simp
  · refine ⟨t :: ts, by simp [Tokens.prepend], ?_, fun _ next => ?_⟩
    · simpa using States.armed arms
    · obtain ⟨v, s₁, rfl, isWord⟩ := Tokens.next_iff.mp next
      exact noElse ⟨v, rfl, (noFurther v s₁ rfl isWord).1⟩

/-! ## All statements -/

/-- What an expression is made of as a statement. -/
theorem parseExpressionStatement_cases {n : Node}
    (h : parseExpressionStatement inner s = .ok n s') :
    ∃ e s₁ r, parseExpression inner s = .ok (some e) s₁ ∧ takeSeparator ';' s₁ = .ok r s' ∧
      n = .expression e ((s.pending.head?.map (·.location)).getD s.stop) := by
  obtain ⟨place, s₁, located, rest⟩ := bind_eq_ok.mp h
  cases located
  obtain ⟨r, s₁, ran, more⟩ := bind_eq_ok.mp rest
  cases r with
  | none => exact absurd more (by simp)
  | some e =>
      obtain ⟨_, _, peeked, last⟩ := bind_eq_ok.mp more
      cases peeked
      split at last
      · obtain ⟨_, _, refused, -⟩ := bind_eq_ok.mp last
        exact absurd refused (refuseNext_ne_ok _ _)
      · obtain ⟨r, s₂, taken, done⟩ := bind_eq_ok.mp last
        cases done
        exact ⟨e, s₁, r, ran, taken, rfl⟩

theorem parseExpressionStatement_takes (sound : Sound d inner) {n : Node}
    (h : parseExpressionStatement inner s = .ok n s') :
    ∃ ts, s = s'.prepend ts ∧ States false d .statement ts n ∧ n.isChain = false := by
  obtain ⟨e, s₁, r, ran, taken, rfl⟩ := parseExpressionStatement_cases h
  obtain ⟨ts, rfl, derived⟩ := parseExpression_takes sound ran
  obtain ⟨us, rfl, ending⟩ := ends_of_takeIf taken
  obtain ⟨t, vs, rfl, -⟩ := derived.begins
  exact ⟨t :: vs ++ us, by simp [Tokens.prepend], .expression derived ending, rfl⟩

/-- The text ends here, or a brace closes. -/
def Closes (s : Tokens) : Prop :=
  s.pending = [] ∨ s.Next (·.isSeparator '\x7d' = true)

/-- Which parser finds a statement, and where there is none. -/
theorem parseStatement_cases {r : Option Node} (h : parseStatement inner s = .ok r s') :
    (r = none ∧ s' = s ∧ Closes s) ∨
      ∃ (t : Token) (s₁ : Tokens) (n : Node), s = s₁.prepend [t] ∧ r = some n ∧
        (t.isSeparator ';' = true ∧ n = .empty t.location ∧ s' = s₁ ∨
          parseBlock inner s = .ok n s' ∨
          t.isSymbol "var" = true ∧ parseVar inner s = .ok n s' ∨
          t.isSymbol "if" = true ∧ parseIf inner s = .ok n s' ∨
          parseExpressionStatement inner s = .ok n s') := by
  obtain ⟨_, _, peeked, rest⟩ := bind_eq_ok.mp h
  cases peeked
  obtain nothing | ⟨t, s₁, rfl⟩ := s.eq_prepend
  · rw [nothing] at rest
    cases rest
    exact .inl ⟨rfl, rfl, .inl nothing⟩
  simp only [Tokens.pending_prepend, List.cons_append, List.head?_cons] at rest
  split at rest
  · next closing =>
      cases rest
      exact .inl ⟨rfl, rfl, .inr ⟨t, rfl, closing⟩⟩
  split at rest
  · next ends =>
      cases rest
      exact .inr ⟨t, s₁, _, rfl, rfl, .inl ⟨ends, rfl, rfl⟩⟩
  split at rest
  · obtain ⟨n, ran, rfl⟩ := map_eq_ok.mp rest
    exact .inr ⟨t, s₁, n, rfl, rfl, .inr (.inl ran)⟩
  split at rest
  · next isVar =>
      obtain ⟨n, ran, rfl⟩ := map_eq_ok.mp rest
      exact .inr ⟨t, s₁, n, rfl, rfl, .inr (.inr (.inl ⟨isVar, ran⟩))⟩
  split at rest
  · next isIf =>
      obtain ⟨n, ran, rfl⟩ := map_eq_ok.mp rest
      exact .inr ⟨t, s₁, n, rfl, rfl, .inr (.inr (.inr (.inl ⟨isIf, ran⟩)))⟩
  · obtain ⟨n, ran, rfl⟩ := map_eq_ok.mp rest
    exact .inr ⟨t, s₁, n, rfl, rfl, .inr (.inr (.inr (.inr ran)))⟩

theorem parseStatement_of_closes (closes : Closes s) : parseStatement inner s = .ok none s := by
  refine (bind_of_ok (peek_apply s)).trans ?_
  obtain nothing | next := closes
  · rw [nothing]
    rfl
  · obtain ⟨t, s₁, rfl, closing⟩ := Tokens.next_iff.mp next
    simp [closing]

/-- There is no statement exactly where the text ends or a brace closes, and nothing is
    taken then. -/
theorem parseStatement_eq_none :
    parseStatement inner s = .ok none s' ↔ s' = s ∧ Closes s := by
  constructor
  · intro h
    obtain ⟨-, same, closes⟩ | ⟨_, _, _, -, absurd, -⟩ := parseStatement_cases h
    · exact ⟨same, closes⟩
    · cases absurd
  · rintro ⟨rfl, closes⟩
    exact parseStatement_of_closes closes

theorem parseStatement_idle : Idle (parseStatement inner) :=
  fun _ _ h => (parseStatement_eq_none.mp h).1

theorem endsOpen_of_isChain {n : Node} (apart : n.isChain = false) : n.endsOpen = false := by
  cases n <;> first | rfl | cases apart

theorem parseStatement_takes (sound : SoundStatements d inner) :
    TakesStatements d (parseStatement inner) := by
  -- statements that are no chains are never open
  have closed : ∀ {s s' : Tokens} {n : Node},
      (∃ ts, s = s'.prepend ts ∧ States false d .statement ts n ∧ n.isChain = false) →
      ∃ ts, s = s'.prepend ts ∧ States false d .statement ts n ∧
        (n.endsOpen = true → ¬s'.Next ArmWord) := by
    rintro s s' n ⟨ts, same, stated, apart⟩
    exact ⟨ts, same, stated, by simp [endsOpen_of_isChain apart]⟩
  intro s n s' h
  obtain ⟨absurd, -⟩ | ⟨t, s₁, _, rfl, same, found⟩ := parseStatement_cases h
  · cases absurd
  cases same
  obtain ⟨ends, rfl, rfl⟩ | ran | ⟨isVar, ran⟩ | ⟨isIf, ran⟩ | ran := found
  · exact ⟨[t], rfl, .empty ends, by simp [Node.endsOpen]⟩
  · exact closed (parseBlock_takes sound ran)
  · exact closed (parseVar_takes sound.toSound isVar ran)
  · exact parseIf_takes sound isIf ran
  · exact closed (parseExpressionStatement_takes sound.toSound ran)

/-- At every level, the parsers take what the grammar derives and states there. -/
theorem soundStatements_within : ∀ d, SoundStatements d (within d)
  | 0 => ⟨sound_within 0, takes_tooDeep _, fun _ _ h => absurd h (tooDeep_ne_ok _)⟩
  | d + 1 => by
      refine ⟨sound_within (d + 1), ?_, fun _ _ h => ⟨parseStatement_idle h, d.succ_pos⟩⟩
      intro s n s' h
      obtain ⟨ts, rfl, stated⟩ := parseStatement_takes (soundStatements_within d) h
      exact ⟨ts, rfl, d, rfl, stated⟩

theorem States.ne_nil {strict : Bool} {ts : List Token} {n : Node}
    (h : States strict d .statement ts n) : ts ≠ [] := by
  cases h with
  | armed arms =>
      obtain ⟨_, _, rfl, -⟩ := arms.arms_begin
      simp
  | _ => simp

theorem statement_progresses (sound : SoundStatements d inner) : Progresses inner.statement :=
  sound.statement.progresses fun ⟨_, _, stated, _⟩ => stated.ne_nil

theorem expectEnd_cases (s : Tokens) :
    s.pending = [] ∧ expectEnd s = .ok () s ∨
      ∃ t s₁ e, s = s₁.prepend [t] ∧ expectEnd s = .error e s₁ := by
  obtain nothing | ⟨t, s₁, rfl⟩ := s.eq_prepend
  · obtain ⟨_, _⟩ := s
    cases nothing
    exact .inl ⟨rfl, rfl⟩
  · exact .inr ⟨t, s₁, _, rfl, rfl⟩

theorem many_of_program {p : Program} (h : Parse.program s = .ok p s') :
    many Parse.statement s = .ok p s' ∧ s'.pending = [] := by
  obtain ⟨_, s₁, repeated, rest⟩ := bind_eq_ok.mp h
  obtain ⟨_, _, ended, done⟩ := bind_eq_ok.mp rest
  cases done
  obtain ⟨nothing, found⟩ | ⟨_, _, _, -, refused⟩ := expectEnd_cases s₁
  · cases found.symm.trans ended
    exact ⟨repeated, nothing⟩
  · cases refused.symm.trans ended

/-- A whole program is a row of statements. -/
theorem program_takes {p : Program} (h : Parse.program s = .ok p s') :
    s'.pending = [] ∧ States false (maxNesting + 1) .body s.pending (.block p .start) := by
  obtain ⟨repeated, nothing⟩ := many_of_program h
  obtain ⟨ts, rfl, all⟩ := many_statement_takes (soundStatements_within (maxNesting + 1)) .start
    repeated
  exact ⟨nothing, by simpa [nothing] using all⟩

end Scriptlet.Grammar
