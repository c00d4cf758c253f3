import Scriptlet.Proofs.Grammar.Completeness
import Scriptlet.Proofs.Grammar.StatesSoundness

/-! # The parsers of statements find all that the grammar states

For statements with all their semicolons and braces: on a row that begins with such a
statement the parser finds its tree and leaves what follows, provided that an open chain
of arms is not followed by the word of an arm.
-/

namespace Scriptlet.Grammar

open Parse

variable {d : Nat} {inner : Grammar} {s : Tokens} {t : Token} {ts : List Token} {n : Node}

/-! ## First tokens of statements -/

/-- The words that statements and arms begin with. -/
def statementWords : List String := ["var", "if", "else", "elseif", "elsif"]

theorem symbol_not_mem_statementWords (op : PrefixOp) : op.symbol ∉ statementWords := by
  rcases op with op | _ | _ | _ | _ | _ | _ | _ | _ <;> (try cases op) <;> decide

theorem Begins.not_isSymbol {ops : List PrefixOp} {word : String} (begins : Begins ops t)
    (mem : word ∈ statementWords) : ¬t.isSymbol word = true := by
  intro isWord
  obtain ⟨kind, text⟩ := Token.isSymbol_iff.mp isWord
  obtain atom | ⟨op, -, spelled⟩ := begins
  · cases atom with
    | paren opens => simp [(Token.isSeparator_iff.mp opens).1] at kind
    | number same | string same => simp [same] at kind
    | name isName =>
        have keyword : ∀ word ∈ statementWords, isKeyword word = true := by decide
        simp [Parse.isName, text, keyword word mem] at isName
  · rw [← text, spelled.2] at mem
    exact symbol_not_mem_statementWords op mem

/-- The token begins a statement. -/
def BeginsStatement (t : Token) : Prop :=
  t.isSeparator ';' = true ∨ t.isSeparator '\x7b' = true ∨ t.isSymbol "var" = true ∨
    t.isSymbol "if" = true ∨ Begins Phrase.expression.prefixes t

theorem States.begins {strict : Bool} (h : States strict d .statement ts n) :
    ∃ t us, ts = t :: us ∧ BeginsStatement t := by
  cases h with
  | empty ends => exact ⟨_, _, rfl, .inl ends⟩
  | block opens => exact ⟨_, _, rfl, .inr (.inl opens)⟩
  | var isVar => exact ⟨_, _, rfl, .inr (.inr (.inl isVar))⟩
  | armed arms =>
      obtain ⟨t, us, rfl, isIf⟩ := arms.arms_begin
      exact ⟨t, us, rfl, .inr (.inr (.inr (.inl isIf)))⟩
  | otherwise arms =>
      obtain ⟨t, us, rfl, isIf⟩ := arms.arms_begin
      exact ⟨t, _, rfl, .inr (.inr (.inr (.inl isIf)))⟩
  | expression value =>
      obtain ⟨t, us, same, begins⟩ := value.begins
      cases same
      exact ⟨_, _, rfl, .inr (.inr (.inr (.inr begins)))⟩

theorem isSymbol_of_isSeparator {c : Char} {word : String} (separator : t.isSeparator c = true) :
    t.isSymbol word = false := by
  rw [Bool.eq_false_iff]
  intro isWord
  have kind := (Token.isSymbol_iff.mp isWord).1
  simp [(Token.isSeparator_iff.mp separator).1] at kind

theorem isSeparator_of_isSymbol {c : Char} {word : String} (isWord : t.isSymbol word = true) :
    t.isSeparator c = false := by
  rw [Bool.eq_false_iff]
  intro separator
  rw [isSymbol_of_isSeparator separator] at isWord
  cases isWord

theorem isSymbol_of_ne {word word' : String} (isWord : t.isSymbol word = true)
    (ne : word ≠ word') : t.isSymbol word' = false := by
  rw [Bool.eq_false_iff]
  intro isWord'
  exact ne ((Token.isSymbol_iff.mp isWord).2.symm.trans (Token.isSymbol_iff.mp isWord').2)

theorem isSeparator_of_ne {c c' : Char} (separator : t.isSeparator c = true) (ne : c ≠ c') :
    t.isSeparator c' = false := by
  rw [Bool.eq_false_iff]
  intro separator'
  have same := (Token.isSeparator_iff.mp separator).2.symm.trans
    (Token.isSeparator_iff.mp separator').2
  simp only [Char.toString, String.singleton_inj] at same
  exact ne same

/-- No statement begins with the word of an arm. -/
theorem BeginsStatement.not_armWord (begins : BeginsStatement t) : ¬ArmWord t := by
  obtain separator | separator | isWord | isWord | begins := begins
  · simp [ArmWord, isSymbol_of_isSeparator separator]
  · simp [ArmWord, isSymbol_of_isSeparator separator]
  · simp [ArmWord, isSymbol_of_ne isWord]
  · simp [ArmWord, isSymbol_of_ne isWord]
  · rintro (isWord | isWord | isWord) <;> exact begins.not_isSymbol (by decide) isWord

theorem States.not_next_armWord {strict : Bool} (h : States strict d .statement ts n)
    (s : Tokens) : ¬(s.prepend ts).Next ArmWord := by
  obtain ⟨t, us, rfl, begins⟩ := h.begins
  rw [Tokens.next_prepend_cons]
  exact begins.not_armWord

/-- Only chains of arms begin with the word `if`. -/
theorem States.not_next_if {strict : Bool} (h : States strict d .statement ts n)
    (apart : n.isChain = false) (s : Tokens) :
    ¬(s.prepend ts).Next (·.isSymbol "if" = true) := by
  cases h with
  | empty ends | block ends => simp [isSymbol_of_isSeparator ends]
  | var isVar => simp [isSymbol_of_ne isVar]
  | armed | otherwise => cases apart
  | expression value =>
      obtain ⟨t, us, same, begins⟩ := value.begins
      cases same
      rw [List.cons_append, Tokens.next_prepend_cons]
      exact begins.not_isSymbol (by decide)

/-! ## What the parsers do in front of a statement -/

/-- What the parser of a form does on a row that begins with the form. -/
def CompletesForm (d : Nat) : Form → List Token → Node → Prop
  | .statement, ts, n => ∀ s, (n.endsOpen = true → ¬s.Next ArmWord) →
      parseStatement (within d) (s.prepend ts) = .ok (some n) s
  | .body, ts, n => ∃ ns place, n = .block ns place ∧
      ∀ s, ¬s.Next ArmWord → Repeats (within d).statement ns (s.prepend ts) s
  | .declarations, ts, n => ∃ first others place, n = .var (first :: others) place ∧
      ∀ s, Stops Precedence.assignment s → ∃ s₁,
        parseDeclarator (within d) (s.prepend ts) = .ok first s₁ ∧
        Repeats (furtherDeclarator (within d)) others s₁ s
  | .arms, ts, n => ∃ t us first others, ts = t :: us ∧ t.isSymbol "if" = true ∧
      n = .chain (first :: others) t.location ∧ n.endsOpen = true ∧
      ∀ s, (openBody (first :: others) = true → ¬s.Next ArmWord) → ∃ s₁,
        parseArm (within d) .if_ (s.prepend us) = .ok first s₁ ∧
        Repeats (furtherArm (within d)) others s₁ s

/-! ### Which parser is in charge -/

theorem parseStatement_of_empty (ends : t.isSeparator ';' = true) (s : Tokens) :
    parseStatement inner (s.prepend [t]) = .ok (some (.empty t.location)) s := by
  refine (bind_of_ok (peek_apply _)).trans ?_
  simp [isSeparator_of_ne ends, ends, bind_of_ok (skip_prepend s t [])]

theorem parseStatement_of_block (opens : t.isSeparator '\x7b' = true) (s : Tokens) :
    parseStatement inner (s.prepend (t :: ts)) =
      (some <$> parseBlock inner) (s.prepend (t :: ts)) := by
  refine (bind_of_ok (peek_apply _)).trans ?_
  simp [isSeparator_of_ne opens, opens]

theorem parseStatement_of_var (isVar : t.isSymbol "var" = true) (s : Tokens) :
    parseStatement inner (s.prepend (t :: ts)) =
      (some <$> parseVar inner) (s.prepend (t :: ts)) := by
  refine (bind_of_ok (peek_apply _)).trans ?_
  simp [isSeparator_of_isSymbol isVar, isVar]

theorem parseStatement_of_if (isIf : t.isSymbol "if" = true) (s : Tokens) :
    parseStatement inner (s.prepend (t :: ts)) =
      (some <$> parseIf inner) (s.prepend (t :: ts)) := by
  refine (bind_of_ok (peek_apply _)).trans ?_
  simp [isSeparator_of_isSymbol isIf, isSymbol_of_ne isIf, isIf]

theorem parseStatement_of_begins {ops : List PrefixOp} (begins : Begins ops t) (s : Tokens) :
    parseStatement inner (s.prepend (t :: ts)) =
      (some <$> parseExpressionStatement inner) (s.prepend (t :: ts)) := by
  refine (bind_of_ok (peek_apply _)).trans ?_
  simp only [Tokens.pending_prepend, List.cons_append, List.head?_cons]
  rw [if_neg (begins.not_isSeparator (by decide)), if_neg (begins.not_isSeparator (by decide)),
    if_neg (begins.not_isSeparator (by decide)), if_neg (begins.not_isSymbol (by decide)),
    if_neg (begins.not_isSymbol (by decide))]

/-! ### Blocks -/

theorem CompletesForm.block {ns : List Node} {place : Location} {closing : Token}
    (opens : t.isSeparator '\x7b' = true)
    (all : CompletesForm (d + 1) .body ts (.block ns place))
    (closes : closing.isSeparator '\x7d' = true) :
    CompletesForm (d + 1) .statement (t :: ts ++ [closing]) (.block ns t.location) := by
  obtain ⟨_, _, same, runs⟩ := all
  cases same
  intro s _
  have notArm : ¬(s.prepend [closing]).Next ArmWord := by
    simp [ArmWord, isSymbol_of_isSeparator closes]
  have body := (runs _ notArm).ends (parseStatement_of_closes (.inr ⟨closing, rfl, closes⟩))
  rw [← Tokens.prepend_append] at body
  have block : parseBlock (within (d + 1)) (s.prepend (t :: ts ++ [closing])) =
      .ok (.block ns t.location) s := by
    refine (bind_of_ok (expectSeparator_of_next opens s _)).trans ?_
    refine (bind_of_ok body).trans ?_
    exact bind_of_ok (takeIf_of_next closes s [])
  exact (parseStatement_of_block opens s).trans (map_of_ok block)

theorem CompletesForm.next {ns : List Node} {place : Location} {us : List Token}
    (before : CompletesForm (d + 1) .body ts (.block ns place))
    (stated : States true d .statement us n) (statement : CompletesForm d .statement us n) :
    CompletesForm (d + 1) .body (ts ++ us) (.block (ns ++ [n]) place) := by
  obtain ⟨_, _, same, runs⟩ := before
  cases same
  refine ⟨ns ++ [n], place, rfl, fun s notArm => ?_⟩
  rw [Tokens.prepend_append]
  exact (runs _ (stated.not_next_armWord s)).append_singleton
    (statement_progresses (soundStatements_within (d + 1))) (statement s fun _ => notArm)

/-! ### Declarations -/

theorem parseDeclarator_of_declares {x : Declarator Node} (declares : Declares d ts x)
    (lexical : ∀ t ∈ ts, t.Lexical) (stops : Stops Precedence.assignment s) :
    parseDeclarator (within d) (s.prepend ts) = .ok x s := by
  cases declares with
  | bare isName =>
      have unassigned : takeOperator "=" s = .ok none s := by
        refine takeIf_of_not_next (stops.not_next (Nat.le_refl _) fun t isSign => ?_)
        obtain ⟨kind, text⟩ := Token.isOperator_iff.mp isSign
        exact .binary (.assign none) ⟨.inl kind, text⟩
      refine (bind_of_ok (takeIf_of_next isName s [])).trans ?_
      exact bind_of_ok unassigned
  | valued isName assigned value =>
      simp only [List.forall_mem_cons] at lexical
      refine (bind_of_ok (takeIf_of_next isName s _)).trans ?_
      refine (bind_of_ok (takeIf_of_next assigned s _)).trans ?_
      exact bind_of_ok (require_eq_ok.mpr (value.completes lexical.2.2 s stops))

theorem furtherDeclarator_of_stops (stops : Stops Precedence.comma s) :
    furtherDeclarator inner s = .ok none s := by
  have absent := stops.not_next (Nat.le_refl _) fun _ => Attaches.comma
  obtain ⟨_ | ⟨t, _ | ⟨u, ts⟩⟩, stop⟩ := s
  · rfl
  · rfl
  · refine (furtherDeclarator_apply ⟨ts, stop⟩ t u).trans (if_neg fun separated => absent ?_)
    exact ⟨t, rfl, separated⟩

theorem furtherDeclarator_of_comma {x : Declarator Node} (separated : t.isOperator "," = true)
    (some_token : ts ≠ []) (ran : parseDeclarator inner (s.prepend ts) = .ok x s) :
    furtherDeclarator inner (s.prepend (t :: ts)) = .ok (some x) s := by
  cases ts with
  | nil => exact absurd rfl some_token
  | cons u ts =>
      refine (furtherDeclarator_apply (s.prepend ts) t u).trans ((if_pos separated).trans ?_)
      exact map_of_ok ran

theorem CompletesForm.alsoDeclared {xs : List (Declarator Node)} {place : Location}
    {us : List Token} {x : Declarator Node}
    (items : CompletesForm d .declarations ts (.var xs place))
    (separated : t.isOperator "," = true) (item : Declares d us x)
    (lexical : ∀ t ∈ us, t.Lexical) :
    CompletesForm d .declarations (ts ++ t :: us) (.var (xs ++ [x]) place) := by
  obtain ⟨first, others, _, same, runs⟩ := items
  cases same
  refine ⟨first, others ++ [x], place, rfl, fun s stops => ?_⟩
  obtain ⟨s₁, ran, repeated⟩ := runs (s.prepend (t :: us)) (stops_of_comma separated (by decide))
  have some_token : us ≠ [] := by cases item <;> simp
  rw [Tokens.prepend_append]
  exact ⟨s₁, ran, repeated.append_singleton (furtherDeclarator_progresses (sound_within d))
    (furtherDeclarator_of_comma separated some_token
      (parseDeclarator_of_declares item lexical stops))⟩

theorem CompletesForm.var {xs : List (Declarator Node)} {place : Location} {ending : Token}
    (isVar : t.isSymbol "var" = true) (all : CompletesForm d .declarations ts (.var xs place))
    (ends : ending.isSeparator ';' = true) :
    CompletesForm d .statement (t :: ts ++ [ending]) (.var xs t.location) := by
  obtain ⟨first, others, _, same, runs⟩ := all
  cases same
  intro s _
  have stops : ∀ p, Stops p (s.prepend [ending]) := fun p => stops_of_closing ends (by decide)
  obtain ⟨s₁, ran, repeated⟩ := runs _ (stops _)
  rw [← Tokens.prepend_append] at ran
  have var : parseVar (within d) (s.prepend (t :: ts ++ [ending])) =
      .ok (.var (first :: others) t.location) s := by
    refine (here_skip_prepend s t _ _).trans ?_
    refine (bind_of_ok ran).trans ?_
    refine (bind_of_ok (repeated.ends (furtherDeclarator_of_stops (stops _)))).trans ?_
    exact bind_of_ok (p := takeSeparator ';') (takeIf_of_next ends s [])
  exact (parseStatement_of_var isVar s).trans (map_of_ok var)

/-! ### Arms -/

theorem parseArm_of_conditions {word : BranchWord} {cs : List Token} {c : Node}
    (condition : Conditions (d + 1) cs c) (lexical : ∀ t ∈ cs, t.Lexical)
    (body : CompletesForm d .statement ts n) (closed : n.endsOpen = true → ¬s.Next ArmWord) :
    parseArm (within (d + 1)) word (s.prepend (cs ++ ts)) = .ok ⟨word, some c, n⟩ s := by
  obtain ⟨opens, inside, closes⟩ := condition
  rename_i opening us closing
  simp only [List.cons_append, List.append_assoc, List.forall_mem_cons,
    List.forall_mem_append] at lexical ⊢
  have found := inside.completes lexical.2.1 ((s.prepend ts).prepend [closing])
    (stops_of_closing closes (by decide))
  refine (bind_of_ok (expectSeparator_of_next opens s _)).trans ?_
  rw [Tokens.prepend_append]
  refine (bind_of_ok (require_eq_ok.mpr found)).trans ?_
  refine (bind_of_ok (expectSeparator_of_next closes _ [])).trans ?_
  exact bind_of_ok (parseBody_eq_ok.mpr (body s closed))

theorem isSymbol_of_toLexeme {word : String} (same : t.toLexeme = .symbol word) :
    t.isSymbol word = true :=
  beq_iff_eq.mpr same

/-- The words of an arm lead to the arm. -/
theorem furtherArm_of_words {word : BranchWord} {ws : List Token}
    (further : word ∈ [BranchWord.elseif, .elsif, .elseIf]) (introduced : word.Introduces ws)
    (s : Tokens) : furtherArm inner (s.prepend ws) = (some <$> parseArm inner word) s := by
  cases word with
  | if_ | else_ => simp at further
  | elseif =>
      obtain ⟨t, ts, rfl, first, rest⟩ := List.map_eq_cons_iff.mp introduced
      cases List.map_eq_nil_iff.mp rest
      have isElseif : t.isSymbol "elseif" = true := isSymbol_of_toLexeme first
      rw [furtherArm_apply, if_pos isElseif]
  | elsif =>
      obtain ⟨t, ts, rfl, first, rest⟩ := List.map_eq_cons_iff.mp introduced
      cases List.map_eq_nil_iff.mp rest
      have isElsif : t.isSymbol "elsif" = true := isSymbol_of_toLexeme first
      rw [furtherArm_apply, isSymbol_of_ne isElsif (by decide), if_neg (by decide),
        if_pos isElsif]
  | elseIf =>
      obtain ⟨t, ts, rfl, first, rest⟩ := List.map_eq_cons_iff.mp introduced
      obtain ⟨u, us, rfl, second, rest⟩ := List.map_eq_cons_iff.mp rest
      cases List.map_eq_nil_iff.mp rest
      have isElse := isSymbol_of_toLexeme first
      have isIf := isSymbol_of_toLexeme second
      rw [Tokens.prepend_cons, furtherArm_apply, isSymbol_of_ne isElse (by decide),
        isSymbol_of_ne isElse (by decide), if_neg (by decide), if_neg (by decide),
        if_pos (by simp [isElse, isIf])]
      rfl

theorem furtherArm_of_not_next (notArm : ¬s.Next ArmWord) : furtherArm inner s = .ok none s := by
  obtain nothing | ⟨t, s, rfl⟩ := s.eq_prepend
  · obtain ⟨_, stop⟩ := s
    cases nothing
    rfl
  · simp only [Tokens.next_prepend_cons, ArmWord, not_or] at notArm
    rw [furtherArm_apply, if_neg notArm.1, if_neg notArm.2.1, if_neg (by simp [notArm.2.2])]

theorem furtherArm_of_else (isElse : t.isSymbol "else" = true)
    (notIf : ¬s.Next (·.isSymbol "if" = true)) :
    furtherArm inner (s.prepend [t]) = .ok none (s.prepend [t]) := by
  rw [furtherArm_apply, isSymbol_of_ne isElse (by decide), isSymbol_of_ne isElse (by decide)]
  have noIf : ¬s.pending.head?.any (·.isSymbol "if") = true := by
    rw [Option.any_eq_true]
    exact notIf
  simp [isElse, noIf]

theorem CompletesForm.ifArm {cs : List Token} {c : Node} (isIf : t.isSymbol "if" = true)
    (condition : Conditions (d + 1) cs c) (lexical : ∀ t ∈ cs, t.Lexical)
    (body : CompletesForm d .statement ts n) :
    CompletesForm (d + 1) .arms (t :: cs ++ ts) (.chain [⟨.if_, some c, n⟩] t.location) := by
  refine ⟨t, cs ++ ts, _, [], rfl, isIf, rfl, rfl, fun s closed => ⟨s, ?_, .nil⟩⟩
  exact parseArm_of_conditions condition lexical body closed

theorem CompletesForm.elseArm {bs : List (Branch Node)} {place : Location} {word : BranchWord}
    {ws cs us : List Token} {c : Node} (arms : CompletesForm (d + 1) .arms ts (.chain bs place))
    (closed : openBody bs = false) (further : word ∈ [BranchWord.elseif, .elsif, .elseIf])
    (introduced : word.Introduces ws) (condition : Conditions (d + 1) cs c)
    (lexical : ∀ t ∈ cs, t.Lexical) (body : CompletesForm d .statement us n) :
    CompletesForm (d + 1) .arms (ts ++ (ws ++ cs ++ us))
      (.chain (bs ++ [⟨word, some c, n⟩]) place) := by
  obtain ⟨t, vs, first, others, rfl, isIf, same, -, runs⟩ := arms
  cases same
  refine ⟨t, vs ++ (ws ++ cs ++ us), first, others ++ [⟨word, some c, n⟩], rfl, isIf, rfl, ?_,
    fun s still => ?_⟩
  · rw [endsOpen_append]
    cases word <;> first | rfl | simp at further
  · rw [← List.cons_append, openBody_append] at still
    obtain ⟨s₁, ran, repeated⟩ := runs (s.prepend (ws ++ cs ++ us)) (by simp [closed])
    rw [Tokens.prepend_append]
    refine ⟨s₁, ran, repeated.append_singleton
      (furtherArm_progresses (soundStatements_within (d + 1))) ?_⟩
    rw [List.append_assoc, Tokens.prepend_append]
    exact (furtherArm_of_words further introduced _).trans
      (map_of_ok (parseArm_of_conditions condition lexical body still))

theorem CompletesForm.armed {bs : List (Branch Node)} {place : Location}
    (arms : CompletesForm d .arms ts (.chain bs place)) :
    CompletesForm d .statement ts (.chain bs place) := by
  obtain ⟨t, us, first, others, rfl, isIf, same, opened, runs⟩ := arms
  cases same
  intro s closed
  have notArm := closed opened
  obtain ⟨s₁, ran, repeated⟩ := runs s fun _ => notArm
  have notElse : ¬s.Next (·.isSymbol "else" = true) := by
    intro next
    exact notArm (next.imp fun _ isElse => .inr (.inr isElse))
  have last : lastArm (within d) s = .ok [] s := bind_of_ok (takeIf_of_not_next notElse)
  have chain : parseIf (within d) (s.prepend (t :: us)) =
      .ok (.chain (first :: others) t.location) s := by
    refine (here_skip_prepend s t us _).trans ?_
    refine (bind_of_ok ran).trans ?_
    refine (bind_of_ok (repeated.ends (furtherArm_of_not_next notArm))).trans ?_
    refine (bind_of_ok last).trans ?_
    simp
  exact (parseStatement_of_if isIf s).trans (map_of_ok chain)

theorem CompletesForm.otherwise {bs : List (Branch Node)} {place : Location} {us : List Token}
    (arms : CompletesForm (d + 1) .arms ts (.chain bs place)) (closed : openBody bs = false)
    (isElse : t.isSymbol "else" = true) (stated : States true d .statement us n)
    (body : CompletesForm d .statement us n) (apart : n.isChain = false) :
    CompletesForm (d + 1) .statement (ts ++ t :: us)
      (.chain (bs ++ [⟨.else_, Option.none, n⟩]) place) := by
  obtain ⟨word, vs, first, others, rfl, isIf, same, -, runs⟩ := arms
  cases same
  intro s _
  obtain ⟨s₁, ran, repeated⟩ := runs (s.prepend (t :: us)) (by simp [closed])
  have arms := repeated.ends (furtherArm_of_else isElse (stated.not_next_if apart s))
  have last : lastArm (within (d + 1)) (s.prepend (t :: us)) = .ok [⟨.else_, none, n⟩] s := by
    refine (bind_of_ok (takeIf_of_next isElse s us)).trans ?_
    refine bind_of_ok (parseBody_eq_ok.mpr (body s ?_))
    simp [endsOpen_of_isChain apart]
  rw [List.cons_append, Tokens.prepend_cons, Tokens.prepend_append]
  have chain : parseIf (within (d + 1)) (((s.prepend (t :: us)).prepend vs).prepend [word]) =
      .ok (.chain (first :: others ++ [⟨.else_, none, n⟩]) word.location) s := by
    refine (here_skip_prepend _ word [] _).trans ?_
    refine (bind_of_ok ran).trans ((bind_of_ok arms).trans ?_)
    exact bind_of_ok last
  exact (parseStatement_of_if isIf _).trans (map_of_ok chain)

/-! ### Expressions -/

theorem CompletesForm.expression {ending : Token} (value : Derives false d .expression (t :: ts) n)
    (lexical : ∀ u ∈ t :: ts, u.Lexical) (ends : ending.isSeparator ';' = true) :
    CompletesForm d .statement (t :: ts ++ [ending]) (.expression n t.location) := by
  intro s _
  have found := value.completes lexical (s.prepend [ending]) (stops_of_closing ends (by decide))
  have kind := (Token.isSeparator_iff.mp ends).1
  have statement : parseExpressionStatement (within d) (s.prepend (t :: ts ++ [ending])) =
      .ok (.expression n t.location) s := by
    refine (bind_of_ok (here_apply _)).trans ?_
    rw [Tokens.prepend_append]
    refine (bind_of_ok found).trans ((bind_of_ok (peek_apply _)).trans ?_)
    rw [if_neg (by simp [kind])]
    exact bind_of_ok (p := takeSeparator ';') (takeIf_of_next ends s [])
  obtain ⟨_, _, same, begins⟩ := value.begins
  cases same
  exact (parseStatement_of_begins begins s).trans (map_of_ok statement)

theorem ends_strict {c : Char} (ending : Ends true c ts) :
    ∃ t, ts = [t] ∧ t.isSeparator c = true := by
  obtain found | ⟨absurd, -⟩ := ending
  · exact found
  · cases absurd

/-- On a row of tokens of a text, every parser finds what the grammar states. -/
theorem States.completes {X : Form} (stated : States true d X ts n)
    (lexical : ∀ t ∈ ts, t.Lexical) : CompletesForm d X ts n := by
  induction stated with
  | empty ends => exact fun s _ => parseStatement_of_empty ends s
  | block opens all ending ih =>
      obtain ⟨_, rfl, closes⟩ := ends_strict ending
      obtain ⟨e, rfl⟩ := all.body_level
      simp only [List.cons_append, List.forall_mem_cons, List.forall_mem_append] at lexical
      exact .block opens (ih lexical.2.1) closes
  | none => exact ⟨[], _, rfl, fun s _ => .nil⟩
  | next _ stated ihs ih =>
      simp only [List.forall_mem_append] at lexical
      exact (ihs lexical.1).next stated (ih lexical.2)
  | var isVar _ ending ih =>
      obtain ⟨_, rfl, ends⟩ := ends_strict ending
      simp only [List.cons_append, List.forall_mem_cons, List.forall_mem_append] at lexical
      exact .var isVar (ih lexical.2.1) ends
  | declared item =>
      refine ⟨_, [], _, rfl, fun s stops => ⟨s, ?_, .nil⟩⟩
      exact parseDeclarator_of_declares item lexical stops
  | alsoDeclared _ separated item ih =>
      simp only [List.forall_mem_append, List.forall_mem_cons] at lexical
      exact (ih lexical.1).alsoDeclared separated item lexical.2.2
  | ifArm isIf condition _ ih =>
      simp only [List.cons_append, List.forall_mem_cons, List.forall_mem_append] at lexical
      exact .ifArm isIf condition lexical.2.1 (ih lexical.2.2)
  | elseArm _ closed further introduced condition _ iha ihb =>
      simp only [List.forall_mem_append] at lexical
      exact (iha lexical.1).elseArm closed further introduced condition lexical.2.1.2
        (ihb lexical.2.2)
  | armed _ ih => exact (ih lexical).armed
  | otherwise _ closed isElse stated apart iha ihb =>
      simp only [List.forall_mem_append, List.forall_mem_cons] at lexical
      exact (iha lexical.1).otherwise closed isElse stated (ihb lexical.2.2) apart
  | expression value ending =>
      obtain ⟨_, rfl, ends⟩ := ends_strict ending
      exact .expression value (List.forall_mem_append.mp lexical).1 ends

end Scriptlet.Grammar
