import Scriptlet.Proofs.Session.Rounds

/-! # Going on behind a fault

A fault that is laid to a token leaves this token as the next one, so that a run finds the
end of the faulty statement there. The one exception is a member without a name: the token
in its place is taken. Where that is a semicolon or a brace, the run passes over the
statement behind as well.
-/

namespace Scriptlet

namespace Tokens

/-- Between `s` and `s'` the tokens up to `t` were taken, where the fault `e` is; and `t`
    itself was, if it stands where a member should have its name. -/
def FaultAt (e : ParseError) (t : Token) (s s' : Tokens) : Prop :=
  ∃ before rest, s = prepend rest (before ++ [t]) ∧
    s' = if e.cause.missesMember then rest else rest.prepend [t]

theorem FaultAt.prepend {e : ParseError} {t : Token} {s s' : Tokens} (fault : FaultAt e t s s')
    (ts : List Token) : FaultAt e t (s.prepend ts) s' := by
  obtain ⟨before, rest, rfl, same⟩ := fault
  exact ⟨ts ++ before, rest, by rw [List.append_assoc, prepend_append _ ts], same⟩

end Tokens

namespace Parse

open Tokens

variable {α β : Type}

/-- The parser takes tokens off the front, and none behind one that it lays a fault to. -/
structure Blames (p : Parse α) : Prop where
  forward : Forward p
  faultAt : ∀ ⦃s e s' t⦄, p s = .error e s' → e.token = some t → FaultAt e t s s'

/-- Where nothing fails, nothing is laid to a token. -/
theorem Blames.of_ok {p : Parse α} (forward : Forward p) (h : ∀ s, ∃ a s', p s = .ok a s') :
    Blames p where
  forward := forward
  faultAt s e s' t failed _ := by
    obtain ⟨a, s'', ran⟩ := h s
    cases ran.symm.trans failed

theorem Blames.bind {p : Parse α} {f : α → Parse β} (first : Blames p)
    (second : ∀ a, Blames (f a)) : Blames (p >>= f) where
  forward := first.forward.bind fun a => (second a).forward
  faultAt s e s' t failed found := by
    cases ran : p s with
    | error e₁ s₁ =>
        rw [bind_of_error ran] at failed
        cases failed
        exact first.faultAt ran found
    | ok a s₁ =>
        rw [bind_of_ok ran] at failed
        obtain ⟨ts, taken⟩ := first.forward s
        rw [leaves_of_ok ran] at taken
        rw [taken]
        exact ((second a).faultAt failed found).prepend ts

/-- To fail because of the next token leaves it. -/
theorem blames_of_failAt {p : Parse α} (cause : Tokens → ParseError.Cause)
    (fails : ∀ s, p s = failAt (cause s) s.pending.head? s)
    (other : ∀ s, (cause s).missesMember = false) : Blames p where
  forward := .of_leaves fun s => by rw [leaves, fails, ← leaves, leaves_failAt]
  faultAt s e s' t failed found := by
    rw [fails] at failed
    obtain nothing | ⟨u, rest, rfl⟩ := s.eq_prepend
    · rw [nothing] at failed
      cases failed
      cases found
    · cases failed
      cases found
      exact ⟨[], rest, rfl, by simp [other]⟩

theorem missesMember_name (op : AccessOp) :
    (ParseError.Cause.expected (.name ("'" ++ op.symbol ++ "'"))).missesMember = true := by
  cases op <;> decide

/-- A token that is no name has been taken. -/
theorem blames_memberName (op : AccessOp) : Blames (Grammar.memberName op) where
  forward := forward_memberName op
  faultAt s e s' t failed found := by
    obtain nothing | ⟨u, rest, rfl⟩ := s.eq_prepend
    · obtain ⟨_, stop⟩ := s
      cases nothing
      cases failed
      cases found
    · rw [Grammar.memberName, bind_of_ok (next_prepend rest u [])] at failed
      simp only at failed
      split at failed
      · cases failed
      · cases failed
        cases found
        exact ⟨[], rest, rfl, by simp [missesMember_name]⟩

/-- All parsers of the grammar lay their faults to the next token, or to one that was taken
    for the name of a member. -/
theorem composes_blames : Composes Blames where
  pure a := .of_ok (composes_forward.pure a) fun s => ⟨a, s, rfl⟩
  bind := Blames.bind
  get := .of_ok composes_forward.get fun s => ⟨s, s, rfl⟩
  next := .of_ok forward_next fun s => by
    obtain nothing | ⟨t, rest, rfl⟩ := s.eq_prepend
    · obtain ⟨_, stop⟩ := s
      cases nothing
      exact ⟨none, _, rfl⟩
    · exact ⟨some t, rest, rfl⟩
  failNext other := blames_of_failAt (fun _ => _) (fun _ => rfl) fun _ => other
  refuseNext {_ cause} other :=
    blames_of_failAt
      (fun s => if s.pending.head?.any isUnknownOperator then .unknownOperator else cause)
      (fun _ => rfl) fun s => by
        split
        · rfl
        · exact other
  failAtEnd cause := {
    forward := composes_forward.failAtEnd cause
    faultAt := fun s e s' t failed found => by
      cases failed
      cases found }
  memberName := blames_memberName

end Parse

namespace Tokens

open Parse

/-- Does a run that looks for the end of a faulty statement stop at this token? -/
def endsStatement (t : Token) : Bool :=
  t.isSeparator ';' || t.isSeparator '\x7d'

theorem afterStatement_of_endsStatement {t : Token} (ends : endsStatement t = true)
    (behind : List Token) : afterStatement (t :: behind) = behind :=
  if_pos ends

/-- A run reports a fault and goes on where the row was cut. -/
theorem runAll_of_fault {ts rest : Tokens} {e : ParseError} (failed : statement ts = .error e rest)
    (env : Environment) :
    ts.runAll env =
      (.refused e :: (rest.synchronize.runAll env).1, (rest.synchronize.runAll env).2) := by
  obtain ⟨outcomes, last, env', rounds, ended⟩ := exists_rounds rest.synchronize env
  have all : Rounds ts env (.refused e :: outcomes) last env' := .cons (.fault failed) rounds
  rw [all.runAll_eq ended, rounds.runAll_eq ended]

/-- At every level of nesting, a fault of a statement or of a block that is laid to a token
    leaves this token as the next one, except where it stands for the name of a member: then
    it is taken. So a run that finds a fault at a semicolon or a closing brace goes on right
    behind it, but behind a member without a name it first passes over the next statement. -/
theorem fault_at_token {d : Nat} {ts ts' : Tokens} {e : ParseError} {t : Token}
    (failed : Grammar.parseStatement (Grammar.within d) ts = .error e ts' ∨
      Grammar.parseBlock (Grammar.within d) ts = .error e ts')
    (found : e.token = some t) :
    ∃ before behind, ts.pending = before ++ t :: behind ∧
      ts' = ⟨if e.cause.missesMember then behind else t :: behind, ts.stop⟩ ∧
      (endsStatement t = true →
        ts'.synchronize =
          ⟨if e.cause.missesMember then afterStatement behind else behind, ts.stop⟩) ∧
      (Parse.statement ts = .error e ts' → ∀ env,
        ts.runAll env =
          (.refused e :: (ts'.synchronize.runAll env).1, (ts'.synchronize.runAll env).2)) := by
  have all := composes_blames.within d
  have fault : FaultAt e t ts ts' :=
    failed.elim (fun h => (composes_blames.parseStatement all).faultAt h found)
      fun h => (composes_blames.parseBlock all).faultAt h found
  obtain ⟨before, rest, rfl, rfl⟩ := fault
  refine ⟨before, rest.pending, by simp, ?_, ?_, runAll_of_fault⟩
  · split <;> rfl
  · intro ends
    split
    · rfl
    · simp [synchronize, afterStatement_of_endsStatement ends]

/-- The semicolon in the place of a name is taken, and the run passes over `1;`. -/
theorem fault_at_token_member :
    let ts := Tokens.ofSource (.ofString "a.; 1; 2")
    ∃ e ts' t, Parse.statement ts = .error e ts' ∧ e.token = some t ∧ endsStatement t = true ∧
      (∃ before, ts.pending = before ++ t :: ts'.pending) ∧
      ts'.pending.map (·.text) = ["1", ";", "2"] ∧
      ts'.synchronize.pending.map (·.text) = ["2"] ∧
      (ts.runAll {}).1 = .refused e :: (ts'.synchronize.runAll {}).1 := by
  intro ts
  have facts : (match Parse.statement ts with
      | .error e ts' => decide (e.cause.missesMember = true ∧ e.token.any endsStatement = true ∧
          ts'.pending.map (·.text) = ["1", ";", "2"] ∧
          ts'.synchronize.pending.map (·.text) = ["2"])
      | .ok _ _ => false) = true := by
    decide +kernel
  cases failed : Parse.statement ts with
  | ok _ _ => simp [failed] at facts
  | error e ts' =>
      simp only [failed, decide_eq_true_eq] at facts
      obtain ⟨misses, ends, left, behind⟩ := facts
      obtain ⟨t, found, ends⟩ := (Option.any_eq_true _ _).mp ends
      obtain ⟨before, rest, same, rfl, -, ran⟩ := fault_at_token (d := maxNesting) (.inl failed) found
      refine ⟨e, _, t, rfl, found, ends, ⟨before, ?_⟩, left, behind, ?_⟩
      · rw [same, if_pos misses]
      · rw [ran failed]

end Tokens

end Scriptlet
