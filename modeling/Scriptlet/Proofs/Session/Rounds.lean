import Scriptlet.Proofs.Grammar.Progress
import Scriptlet.Proofs.Grammar.StatesCompleteness
import Scriptlet.Session

/-! # Running texts round by round

A session goes through a text in rounds: each parses a statement and runs it, or reports a
fault and leaves it behind. `Round` says what one round does. There is one wherever a token
is left, and it takes up a token at least, so that a run comes to the end of the text, and
the limits on the number of rounds play no part.
-/

namespace Scriptlet

namespace Tokens

/-- What is left behind the next semicolon or closing brace is the end of the row. -/
theorem exists_append_afterStatement (ts : List Token) :
    ∃ us, ts = us ++ afterStatement ts ∧ (ts ≠ [] → us ≠ []) := by
  induction ts with
  | nil => exact ⟨[], rfl, fun h => h⟩
  | cons t rest ih =>
      rw [afterStatement]
      split
      · exact ⟨[t], rfl, by simp⟩
      · obtain ⟨us, same, -⟩ := ih
        exact ⟨t :: us, congrArg (t :: ·) same, by simp⟩

theorem length_synchronize_lt {s : Tokens} (some_token : s.pending ≠ []) :
    s.synchronize.pending.length < s.pending.length := by
  obtain ⟨us, same, nonempty⟩ := exists_append_afterStatement s.pending
  have positive := List.length_pos_iff.mpr (nonempty some_token)
  have lengths := congrArg List.length same
  simp only [List.length_append] at lengths
  simp only [synchronize]
  omega

end Tokens

namespace Grammar

open Parse

/-- Every round of every repetition in the grammar takes up a token, so that none of them
    goes on for ever. -/
structure Progressive (inner : Grammar) : Prop where
  links (ops : List BinaryOp) (levels : List (List BinaryOp)) :
    Progresses (link ops (levels.foldr leftChain inner.operand))
  items (after : String) : Progresses (furtherItem after inner)
  members : Progresses (parseMember inner)
  suffixes : Progresses (parseSuffix inner)
  statements : Progresses inner.statement
  declarators : Progresses (furtherDeclarator inner)
  arms : Progresses (furtherArm inner)

theorem progressive_within (d : Nat) : (within d).Progressive where
  links _ levels := link_progresses (foldr_leftChain_takes (sound_within d) levels)
  items := furtherItem_progresses (sound_within d)
  members := parseMember_progresses (sound_within d)
  suffixes := parseSuffix_progresses (sound_within d)
  statements := statement_progresses (soundStatements_within d)
  declarators := furtherDeclarator_progresses (sound_within d)
  arms := furtherArm_progresses (soundStatements_within d)

end Grammar

namespace Parse

theorem statement_advances : Grammar.Advances statement :=
  Grammar.parseStatement_advances maxNesting

end Parse

namespace Tokens

open Parse

/-- One round of a run: its outcome, and the tokens and variables that it leaves. -/
inductive Round (ts : Tokens) (env : Environment) : Outcome → Tokens → Environment → Prop where
  | ran {n rest result env'} (parsed : statement ts = .ok (some n) rest)
      (executed : n.execute env = (result, env')) : Round ts env (.ran n result) rest env'
  /-- A closing brace that closes nothing. -/
  | stray {e rest} (absent : statement ts = .ok none ts)
      (refused : expectEnd ts = .error e rest) : Round ts env (.refused e) rest env
  | fault {e rest} (failed : statement ts = .error e rest) :
      Round ts env (.refused e) rest.synchronize env

/-- Rounds one after the other, with their outcomes. -/
inductive Rounds : Tokens → Environment → List Outcome → Tokens → Environment → Prop where
  | nil {ts env} : Rounds ts env [] ts env
  | cons {ts env o ts₁ env₁ outcomes ts' env'} (first : Round ts env o ts₁ env₁)
      (more : Rounds ts₁ env₁ outcomes ts' env') : Rounds ts env (o :: outcomes) ts' env'

variable {ts ts₁ ts' : Tokens} {env env₁ env' : Environment} {o : Outcome} {outcomes : List Outcome}

/-- A round takes up a token at least. -/
theorem Round.length_lt (round : Round ts env o ts₁ env₁) :
    ts₁.pending.length < ts.pending.length := by
  cases round with
  | ran parsed _ =>
      obtain ⟨us, nonempty, rfl⟩ := statement_advances.found parsed
      have := List.length_pos_iff.mpr nonempty
      simp only [pending_prepend, List.length_append]
      omega
  | stray _ refused =>
      obtain ⟨-, ended⟩ | ⟨t, s₁, _, rfl, taken⟩ := Grammar.expectEnd_cases ts
      · cases ended.symm.trans refused
      · cases taken.symm.trans refused
        simp
  | @fault e rest failed =>
      obtain ⟨some_token, us, rfl⟩ := statement_advances.failed failed
      have positive := List.length_pos_iff.mpr some_token
      simp only [pending_prepend, List.length_append] at positive ⊢
      by_cases nothing : rest.pending = []
      · simp only [synchronize, nothing, afterStatement, List.length_nil] at positive ⊢
        omega
      · have := length_synchronize_lt nothing
        omega

/-- Where a token is left, there is a round. -/
theorem exists_round (some_token : ts.pending ≠ []) (env : Environment) :
    ∃ o ts₁ env₁, Round ts env o ts₁ env₁ := by
  cases parsed : statement ts with
  | error e rest => exact ⟨_, _, _, .fault parsed⟩
  | ok r rest =>
      cases r with
      | some n => exact ⟨_, _, _, .ran parsed rfl⟩
      | none =>
          cases (statement_advances.absent.mp parsed).1
          obtain ⟨nothing, -⟩ | ⟨_, _, _, -, refused⟩ := Grammar.expectEnd_cases ts
          · exact absurd nothing some_token
          · exact ⟨_, _, _, .stray parsed refused⟩

theorem Rounds.length_le (rounds : Rounds ts env outcomes ts' env') :
    outcomes.length + ts'.pending.length ≤ ts.pending.length := by
  induction rounds with
  | nil => simp
  | cons first _ ih =>
      have := first.length_lt
      simp only [List.length_cons]
      omega

theorem Rounds.append {more : List Outcome} {ts'' : Tokens} {env'' : Environment}
    (rounds : Rounds ts env outcomes ts' env') (later : Rounds ts' env' more ts'' env'') :
    Rounds ts env (outcomes ++ more) ts'' env'' := by
  induction rounds with
  | nil => exact later
  | cons first _ ih => exact .cons first (ih later)

/-! ## The running definitions -/

theorem statement_of_nil (nothing : ts.pending = []) : statement ts = .ok none ts :=
  statement_advances.absent.mpr ⟨rfl, .inl nothing⟩

theorem expectEnd_of_nil (nothing : ts.pending = []) : expectEnd ts = .ok () ts := by
  obtain ⟨-, ended⟩ | ⟨_, _, _, rfl, -⟩ := Grammar.expectEnd_cases ts
  · exact ended
  · simp at nothing

theorem runUpTo_of_nil (nothing : ts.pending = []) (limit : Nat) :
    runUpTo limit ts env = ([], ts, env) := by
  cases limit with
  | zero => rfl
  | succ limit => simp only [runUpTo, statement_of_nil nothing, expectEnd_of_nil nothing]

theorem runUpTo_of_round (round : Round ts env o ts₁ env₁) (limit : Nat) :
    runUpTo (limit + 1) ts env =
      (o :: (runUpTo limit ts₁ env₁).1, (runUpTo limit ts₁ env₁).2) := by
  cases round with
  | ran parsed executed => simp only [runUpTo, parsed, executed]
  | stray absent refused => simp only [runUpTo, absent, refused]
  | fault failed => simp only [runUpTo, failed]

/-- As many rounds as the limit allows are those that are run. -/
theorem Rounds.runUpTo_eq (rounds : Rounds ts env outcomes ts' env') (limit : Nat) :
    runUpTo (outcomes.length + limit) ts env =
      (outcomes ++ (runUpTo limit ts' env').1, (runUpTo limit ts' env').2) := by
  induction rounds with
  | nil => simp
  | @cons _ _ o _ _ outcomes _ _ first _ ih =>
      have shift : (o :: outcomes).length + limit = (outcomes.length + limit) + 1 := by
        simp only [List.length_cons]
        omega
      rw [shift, runUpTo_of_round first, ih]
      rfl

theorem Rounds.runAll_eq (rounds : Rounds ts env outcomes ts' env') (ended : ts'.pending = []) :
    ts.runAll env = (outcomes, ts', env') := by
  obtain ⟨limit, same⟩ : ∃ limit, ts.pending.length + 1 = outcomes.length + limit :=
    Nat.exists_eq_add_of_le (by have := rounds.length_le; omega)
  rw [runAll, same, rounds.runUpTo_eq, runUpTo_of_nil ended, List.append_nil]

/-- Every run comes to the end of the text. -/
theorem exists_rounds (ts : Tokens) (env : Environment) :
    ∃ outcomes ts' env', Rounds ts env outcomes ts' env' ∧ ts'.pending = [] := by
  by_cases nothing : ts.pending = []
  · exact ⟨[], ts, env, .nil, nothing⟩
  · obtain ⟨o, ts₁, env₁, first⟩ := exists_round nothing env
    have := first.length_lt
    obtain ⟨outcomes, ts', env', more, ended⟩ := exists_rounds ts₁ env₁
    exact ⟨o :: outcomes, ts', env', .cons first more, ended⟩
termination_by ts.pending.length

/-- At every level of nesting, a statement that is found takes up a token, there is none
    exactly where the text ends or a brace closes, and a fault needs a token and leaves the
    end of the row; nor does any repetition inside a statement go on for ever. So from
    every row of tokens a run comes to the end of the text, round after round, with an
    outcome for each token at most. -/
theorem runAll_ends :
    (∀ d, Grammar.Advances (Grammar.parseStatement (Grammar.within d)) ∧
      (Grammar.within d).Progressive) ∧
    ∀ (ts : Tokens) (env : Environment), ∃ outcomes last env',
      Rounds ts env outcomes last env' ∧ last.pending = [] ∧
      statement last = .ok none last ∧ expectEnd last = .ok () last ∧
      ts.runAll env = (outcomes, last, env') ∧ outcomes.length ≤ ts.pending.length := by
  refine ⟨fun d => ⟨Grammar.parseStatement_advances d, Grammar.progressive_within d⟩, ?_⟩
  intro ts env
  obtain ⟨outcomes, last, env', rounds, ended⟩ := exists_rounds ts env
  refine ⟨outcomes, last, env', rounds, ended, statement_of_nil ended, expectEnd_of_nil ended,
    rounds.runAll_eq ended, ?_⟩
  have := rounds.length_le
  omega

end Tokens

end Scriptlet
