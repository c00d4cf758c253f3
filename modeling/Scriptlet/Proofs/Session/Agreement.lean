import Scriptlet.CommandLine
import Scriptlet.Proofs.Session.Rounds
import Scriptlet.Proofs.Token

/-! # The ways to run a text agree

A text can be parsed as a whole, evaluated up to its first failure, or run with a report on
every statement. Evaluation goes through the same rounds as a run, up to the first that
fails; and where the whole text is parsed, a run finds the same statements. So the command
line reports a failure exactly if evaluation fails.
-/

namespace Scriptlet

namespace Outcome

/-- The result of the last outcome, or `undefined` where there is none. -/
def lastResult (outcomes : List Outcome) : Except EvalError Value :=
  (outcomes.getLast?.map (·.result)).getD (.ok .undefined)

theorem isOk_iff {o : Outcome} : o.isOk = true ↔ ∃ v, o.result = .ok v := by
  cases h : o.result <;> simp [isOk, h, Except.isOk, Except.toBool]

/-- A statement that was run is no fault in the text. -/
theorem result_ran_ne (n : Node) (result : Except RuntimeError Value) (e : ParseError) :
    (ran n result).result ≠ .error (.parse e) := by
  intro fault
  cases result <;> cases fault

end Outcome

namespace Tokens

open Parse

variable {ts ts₁ ts' : Tokens} {env env₁ env' : Environment} {o : Outcome} {outcomes : List Outcome}

/-! ## Evaluation goes through the rounds of a run -/

theorem evaluateUpTo_of_nil (nothing : ts.pending = []) (limit : Nat) (last : Value) :
    evaluateUpTo limit last ts env = (.ok last, env) := by
  cases limit with
  | zero => rfl
  | succ limit => simp only [evaluateUpTo, statement_of_nil nothing, expectEnd_of_nil nothing]

theorem evaluateUpTo_of_ok {v : Value} (round : Round ts env o ts₁ env₁) (ok : o.result = .ok v)
    (limit : Nat) (last : Value) :
    evaluateUpTo (limit + 1) last ts env = evaluateUpTo limit v ts₁ env₁ := by
  cases round with
  | @ran n rest result env' parsed executed =>
      cases result with
      | error e => cases ok
      | ok w =>
          cases ok
          simp only [evaluateUpTo, parsed, executed]
  | stray | fault => cases ok

theorem evaluateUpTo_of_error {e : EvalError} (round : Round ts env o ts₁ env₁)
    (failed : o.result = .error e) (limit : Nat) (last : Value) :
    evaluateUpTo (limit + 1) last ts env = (.error e, env₁) := by
  cases round with
  | @ran n rest result env' parsed executed =>
      cases result with
      | ok w => cases failed
      | error e =>
          cases failed
          simp only [evaluateUpTo, parsed, executed]
  | stray absent refused =>
      cases failed
      simp only [evaluateUpTo, absent, refused]
  | fault refused =>
      cases failed
      simp only [evaluateUpTo, refused]

/-- Evaluation goes through rounds without a failure, up to the end of the text or to the
    first round that fails. -/
theorem evaluateUpTo_cases (limit : Nat) (last : Value) (ts : Tokens) (env : Environment)
    (enough : ts.pending.length < limit) :
    ∃ outcomes ts₁ env₁, Rounds ts env outcomes ts₁ env₁ ∧ (∀ o ∈ outcomes, o.isOk = true) ∧
      (ts₁.pending = [] ∧ evaluateUpTo limit last ts env =
          ((outcomes.getLast?.map (·.result)).getD (.ok last), env₁) ∨
        ∃ o ts₂ env₂ e, Round ts₁ env₁ o ts₂ env₂ ∧ o.result = .error e ∧
          evaluateUpTo limit last ts env = (.error e, env₂)) := by
  induction limit generalizing last ts env with
  | zero => omega
  | succ limit ih =>
      by_cases nothing : ts.pending = []
      · exact ⟨[], ts, env, .nil, by simp, .inl ⟨nothing, evaluateUpTo_of_nil nothing _ _⟩⟩
      obtain ⟨o, ts₁, env₁, first⟩ := exists_round nothing env
      have shorter := first.length_lt
      cases result : o.result with
      | error e =>
          exact ⟨[], ts, env, .nil, by simp,
            .inr ⟨o, ts₁, env₁, e, first, result, evaluateUpTo_of_error first result _ _⟩⟩
      | ok v =>
          obtain ⟨outcomes, ts₂, env₂, more, allOk, ending⟩ := ih v ts₁ env₁ (by omega)
          refine ⟨o :: outcomes, ts₂, env₂, .cons first more, ?_, ?_⟩
          · exact List.forall_mem_cons.mpr ⟨Outcome.isOk_iff.mpr ⟨v, result⟩, allOk⟩
          · rw [evaluateUpTo_of_ok first result]
            obtain ⟨ended, same⟩ | failure := ending
            · refine .inl ⟨ended, same.trans ?_⟩
              cases outcomes with
              | nil => simp [result]
              | cons o' outcomes => simp [List.getLast?_cons]
            · exact .inr failure

/-! ## Whole texts -/

/-- Where the whole text is parsed, the rounds run its statements. -/
theorem exists_rounds_of_collects {p : Program} (parsed : Collects statement ts p ts')
    (env : Environment) :
    ∃ outcomes env', Rounds ts env outcomes ts' env' ∧
      outcomes.map (·.statement) = p.map some ∧
      ∀ o ∈ outcomes, ∀ e, o.result ≠ .error (.parse e) := by
  induction parsed generalizing env with
  | done nothing =>
      cases (statement_advances.absent.mp nothing).1
      exact ⟨[], env, .nil, rfl, by simp⟩
  | @round _ _ _ n _ found _ ih =>
      obtain ⟨outcomes, env', more, statements, noFault⟩ := ih (n.execute env).2
      refine ⟨.ran n (n.execute env).1 :: outcomes, env', .cons (.ran found rfl) more, ?_, ?_⟩
      · simp only [List.map_cons, statements, Outcome.ran]
      · exact List.forall_mem_cons.mpr ⟨Outcome.result_ran_ne n _, noFault⟩

theorem collects_of_program {p : Program} (parsed : program ts = .ok p ts') :
    Collects statement ts p ts' :=
  collects_of_many (Grammar.statement_progresses (Grammar.soundStatements_within (maxNesting + 1)))
    (Grammar.many_of_program parsed).1

end Tokens

namespace Outcome

theorem lastResult_of_isOk {outcomes : List Outcome} (allOk : ∀ o ∈ outcomes, o.isOk = true) :
    ∃ v, lastResult outcomes = .ok v := by
  cases last : outcomes.getLast? with
  | none => exact ⟨.undefined, by simp [lastResult, last]⟩
  | some o =>
      obtain ⟨v, result⟩ := isOk_iff.mp (allOk o (List.mem_of_getLast? last))
      exact ⟨v, by simp [lastResult, last, result]⟩

end Outcome

namespace Environment

open Parse Tokens

/-- The three ways to go through a text agree. -/
structure Agrees (env : Environment) (source : Source) : Prop where
  /-- Where the whole text is parsed, a run finds its statements in their order, and no
      fault in the text. -/
  parsed : ∀ ⦃p rest⦄, program (.ofSource source) = .ok p rest →
    (env.run source).1.map (·.statement) = p.map some ∧
    ∀ o ∈ (env.run source).1, ∀ e, o.result ≠ .error (.parse e)
  /-- Where evaluation gives a value, a run has no failure, and comes to the same value and
      the same variables. -/
  value : ∀ ⦃v env'⦄, env.evaluate source = (.ok v, env') →
    (∀ o ∈ (env.run source).1, o.isOk = true) ∧
    Outcome.lastResult (env.run source).1 = .ok v ∧ (env.run source).2 = env'
  /-- Where evaluation fails, its error is that of the first outcome of a run that is a
      failure, and it leaves the variables that the run has at that point. -/
  failure : ∀ ⦃e env'⦄, env.evaluate source = (.error e, env') →
    ∃ before o after rest, (env.run source).1 = before ++ o :: after ∧
      (∀ o ∈ before, o.isOk = true) ∧ o.result = .error e ∧
      (Tokens.ofSource source).runUpTo (before.length + 1) env = (before ++ [o], rest, env')

variable {source : Source} {env : Environment}

theorem run_of_rounds {outcomes : List Outcome} {last : Tokens} {env' : Environment}
    (rounds : Rounds (.ofSource source) env outcomes last env') (ended : last.pending = []) :
    env.run source = (outcomes, env') := by
  simp only [run, rounds.runAll_eq ended]

theorem agrees (env : Environment) (source : Source) : Agrees env source := by
  obtain ⟨outcomes, ts₁, env₁, rounds, allOk, ending⟩ :=
    evaluateUpTo_cases _ .undefined (.ofSource source) env (Nat.lt_succ_self _)
  refine { parsed := ?_, value := ?_, failure := ?_ }
  · intro p rest parsed
    obtain ⟨outcomes, env', rounds, statements, noFault⟩ :=
      exists_rounds_of_collects (collects_of_program parsed) env
    rw [run_of_rounds rounds (Grammar.program_takes parsed).1]
    exact ⟨statements, noFault⟩
  · intro v env' evaluated
    obtain ⟨ended, same⟩ | ⟨o, ts₂, env₂, e, -, -, same⟩ := ending
    · obtain ⟨result, rfl⟩ := Prod.mk.inj (same.symm.trans evaluated)
      rw [run_of_rounds rounds ended]
      exact ⟨allOk, result, rfl⟩
    · cases same.symm.trans evaluated
  · intro e env' evaluated
    obtain ⟨ended, same⟩ | ⟨o, ts₂, env₂, e, round, failed, same⟩ := ending
    · obtain ⟨v, result⟩ := Outcome.lastResult_of_isOk allOk
      cases result.symm.trans (Prod.mk.inj (same.symm.trans evaluated)).1
    · cases same.symm.trans evaluated
      obtain ⟨after, last, env₃, more, ended⟩ := exists_rounds ts₂ env'
      refine ⟨outcomes, o, after, ts₂, ?_, allOk, failed, ?_⟩
      · rw [run_of_rounds (rounds.append (.cons round more)) ended]
      · have upTo := (rounds.append (.cons round .nil)).runUpTo_eq 0
        simpa [runUpTo] using upTo

theorem run_isOk_iff :
    (∀ o ∈ (env.run source).1, o.isOk = true) ↔ ∃ v, (env.evaluate source).1 = .ok v := by
  cases evaluated : env.evaluate source with
  | mk result env' =>
      cases result with
      | ok v => simpa using ((agrees env source).value evaluated).1
      | error e =>
          obtain ⟨before, o, after, _, same, -, failed, -⟩ := (agrees env source).failure evaluated
          simp only [reduceCtorEq, exists_false, iff_false, same]
          intro allOk
          obtain ⟨v, result⟩ := Outcome.isOk_iff.mp (allOk o (by simp))
          cases result.symm.trans failed

/-- What a text is called plays no part when it is run. -/
theorem run_named (name : Option String) : env.run (source.named name) = env.run source := by
  have sameTokens : ofSource (source.named name) = ofSource source := by
    simp only [ofSource, Source.tokens_named]
    rfl
  simp only [run, sameTokens]

end Environment

/-! ## The command line -/

theorem Report.exitCode_ofOutcomes {options : Options} {file : String} {outcomes : List Outcome} :
    (ofOutcomes options file outcomes).exitCode = 0 ↔ ∀ o ∈ outcomes, o.isOk = true := by
  simp [ofOutcomes, exitCode, List.countP_eq_zero]

theorem Options.exitCode_report {options : Options} {file text : String}
    (runs : options.mode ≠ .tokens) :
    (options.report file text).exitCode = 0 ↔
      ∃ v, (({} : Environment).evaluate (.ofString text)).1 = .ok v := by
  have sameText : Source.ofString text (some file) = (Source.ofString text).named (some file) := rfl
  simp only [report, if_neg runs, sameText, Environment.run_named]
  exact Report.exitCode_ofOutcomes.trans Environment.run_isOk_iff

/-- Asked to process a file, the program reads it once, and answers as it does where the
    contents are there. -/
theorem CommandLine.respond_process {m : Type → Type} [Monad m] [LawfulMonad m]
    {surroundings : Surroundings} {args : List String} {options : Options} {file : String}
    (asked : Command.parse { color := surroundings.allowsColor } none args =
      .ok (.process options file)) (read : String → m (Except FileError ByteArray)) :
    respond surroundings read args =
      (fun contents => (respond (m := Id) surroundings (fun _ => pure contents) args).run) <$>
        read file := by
  simp only [respond, asked, map_eq_pure_bind, Id.run_bind, Id.run_pure]
  refine bind_congr fun contents => ?_
  cases contents >>= decodeFile <;> rfl

theorem CommandLine.respond_text {surroundings : Surroundings} {args : List String}
    {options : Options} {file : String} {bytes : ByteArray} {text : String}
    (asked : Command.parse { color := surroundings.allowsColor } none args =
      .ok (.process options file)) (decoded : String.fromUTF8? bytes = some text) :
    (respond (m := Id) surroundings (fun _ => pure (.ok bytes)) args).run =
      Options.report { options with color := options.color && surroundings.terminal } file
        text := by
  have decodes : (Except.ok bytes >>= decodeFile) = .ok text := by
    show decodeFile bytes = _
    simp only [decodeFile, decoded]
  simp only [respond, asked, Id.run_bind, Id.run_pure, decodes]

/-- To parse a whole text, to evaluate it and to run it agree, whatever the variables
    before. So the command line that runs a file leaves the exit code 0 if and only if the
    text of the file evaluates to a value where there are no variables. -/
theorem run_agrees {m : Type → Type} [Monad m] [LawfulMonad m] :
    (∀ env source, Environment.Agrees env source) ∧
    ∀ (surroundings : Surroundings) (read : String → m (Except FileError ByteArray))
      (args : List String) (options : Options) (file : String),
      Command.parse { color := surroundings.allowsColor } none args =
        .ok (.process options file) →
      options.mode ≠ .tokens →
      ∃ answer : Except FileError ByteArray → Report,
        CommandLine.respond surroundings read args = answer <$> read file ∧
        ∀ bytes text, String.fromUTF8? bytes = some text →
          ((answer (.ok bytes)).exitCode = 0 ↔
            ∃ v, (({} : Environment).evaluate (.ofString text)).1 = .ok v) := by
  refine ⟨Environment.agrees, ?_⟩
  intro surroundings read args options file asked runs
  refine ⟨_, CommandLine.respond_process asked read, fun bytes text decoded => ?_⟩
  rw [CommandLine.respond_text asked decoded]
  exact Options.exitCode_report runs

/-- A stray brace fails, and what stands behind it is run all the same. -/
theorem run_agrees_strayBrace :
    let text := "var a = true; \x7d a"
    let source := Source.ofString text
    (∃ e env' before o after, ({} : Environment).evaluate source = (.error e, env') ∧
      (({} : Environment).run source).1 = before ++ o :: after ∧
      (∀ o ∈ before, o.isOk = true) ∧ o.result = .error e) ∧
    (({} : Environment).run source).1.map (·.isOk) = [true, false, true] ∧
    (CommandLine.respond (m := Id) ⟨false, none⟩ (fun _ => .ok text.toUTF8) ["a"]).exitCode ≠
      0 := by
  intro text source
  have agreement := run_agrees (m := Id)
  have failed : (({} : Environment).evaluate source).1.isOk = false := by decide +kernel
  refine ⟨?_, by decide +kernel, ?_⟩
  · cases evaluated : ({} : Environment).evaluate source with
    | mk result env' =>
        cases result with
        | ok v => simp [evaluated, Except.isOk, Except.toBool] at failed
        | error e =>
            obtain ⟨before, o, after, _, same, allOk, error, -⟩ :=
              (agreement.1 {} source).failure evaluated
            exact ⟨e, env', before, o, after, rfl, same, allOk, error⟩
  · obtain ⟨answer, responds, exits⟩ := agreement.2 ⟨false, none⟩ (fun _ => .ok text.toUTF8) ["a"]
      { color := true } "a" rfl (by decide)
    have decoded : String.fromUTF8? text.toUTF8 = some text := by
      simp [String.fromUTF8?, String.toUTF8, text.isValidUTF8, String.fromUTF8]
    rw [responds]
    intro succeeded
    obtain ⟨v, evaluated⟩ := (exits text.toUTF8 text decoded).mp succeeded
    rw [evaluated] at failed
    cases failed

end Scriptlet
