import Scriptlet.Parse

/-! # What parsers do to a row of tokens

A parser that succeeds has taken some tokens off the front: `s.prepend ts` is the row
that begins with `ts` and goes on with `s`. The small parsers are described once, in
both directions: what follows from their success, and how they run on a row that begins
as they wish. A repeated parser is described by what one round keeps.
-/

namespace Scriptlet

namespace Tokens

/-- The tokens `ts`, and behind them those of `s`. -/
def prepend (s : Tokens) (ts : List Token) : Tokens :=
  { s with pending := ts ++ s.pending }

@[simp] theorem prepend_nil (s : Tokens) : s.prepend [] = s := rfl

theorem prepend_append (s : Tokens) (ts us : List Token) :
    s.prepend (ts ++ us) = (s.prepend us).prepend ts := by
  simp [prepend]

theorem prepend_cons (s : Tokens) (t : Token) (ts : List Token) :
    s.prepend (t :: ts) = (s.prepend ts).prepend [t] := rfl

@[simp] theorem pending_prepend (s : Tokens) (ts : List Token) :
    (s.prepend ts).pending = ts ++ s.pending := rfl

@[simp] theorem stop_prepend (s : Tokens) (ts : List Token) : (s.prepend ts).stop = s.stop := rfl

theorem prepend_singleton_inj {s s' : Tokens} {t t' : Token}
    (same : s.prepend [t] = s'.prepend [t']) : t = t' ∧ s = s' := by
  obtain ⟨ts, stop⟩ := s
  obtain ⟨ts', stop'⟩ := s'
  cases same
  exact ⟨rfl, rfl⟩

/-- The first token, and what is behind it, are known where one was put in front. -/
theorem exists_prepend_iff {s : Tokens} {t : Token} {P : Token → Tokens → Prop} :
    (∃ t' s', s.prepend [t] = s'.prepend [t'] ∧ P t' s') ↔ P t s := by
  constructor
  · rintro ⟨t', s', same, holds⟩
    obtain ⟨rfl, rfl⟩ := prepend_singleton_inj same
    exact holds
  · exact fun holds => ⟨t, s, rfl, holds⟩

/-- Either no token is left, or there is a next one. -/
theorem eq_prepend (s : Tokens) : s.pending = [] ∨ ∃ t s₁, s = prepend s₁ [t] := by
  obtain ⟨_ | ⟨t, ts⟩, stop⟩ := s
  · exact .inl rfl
  · exact .inr ⟨t, ⟨ts, stop⟩, rfl⟩

/-- There is a next token, and it passes `test`. -/
def Next (s : Tokens) (test : Token → Prop) : Prop :=
  ∃ t ∈ s.pending.head?, test t

theorem next_iff {s : Tokens} {test : Token → Prop} :
    s.Next test ↔ ∃ t s₁, s = prepend s₁ [t] ∧ test t := by
  obtain ⟨_ | ⟨u, us⟩, stop⟩ := s
  · simp [Next, prepend]
  · constructor
    · rintro ⟨t, head, passes⟩
      cases head
      exact ⟨u, ⟨us, stop⟩, rfl, passes⟩
    · rintro ⟨t, s₁, same, passes⟩
      rw [same]
      exact ⟨t, rfl, passes⟩

@[simp] theorem next_prepend_cons (s : Tokens) (t : Token) (ts : List Token)
    (test : Token → Prop) : (s.prepend (t :: ts)).Next test ↔ test t := by
  simp [Next, prepend]

theorem Next.imp {s : Tokens} {test test' : Token → Prop} (h : s.Next test)
    (weaker : ∀ t, test t → test' t) : s.Next test' := by
  obtain ⟨t, head, passes⟩ := h
  exact ⟨t, head, weaker t passes⟩

end Tokens

/-- Is this token spelled `text`, as an operator or as a symbol? -/
def Token.Spells (t : Token) (text : String) : Prop :=
  (t.kind = .operator ∨ t.kind = .symbol) ∧ t.text = text

namespace Parse

variable {α β : Type} {s s' : Tokens}

/-! ## Sequences -/

theorem bind_of_ok {p : Parse α} {f : α → Parse β} {a : α} {s₁ : Tokens}
    (h : p s = .ok a s₁) : (p >>= f) s = f a s₁ := by
  simp only [bind, EStateM.bind, h]

theorem bind_of_error {p : Parse α} {f : α → Parse β} {e : ParseError} {s₁ : Tokens}
    (h : p s = .error e s₁) : (p >>= f) s = .error e s₁ := by
  simp only [bind, EStateM.bind, h]

theorem bind_eq_ok {p : Parse α} {f : α → Parse β} {b : β} :
    (p >>= f) s = .ok b s' ↔ ∃ a s₁, p s = .ok a s₁ ∧ f a s₁ = .ok b s' := by
  cases ran : p s with
  | ok a s₁ =>
      rw [bind_of_ok ran]
      constructor
      · intro h
        exact ⟨a, s₁, rfl, h⟩
      · rintro ⟨_, _, same, h⟩
        cases same
        exact h
  | error e s₁ => simp [bind_of_error ran]

@[simp] theorem pure_apply (a : α) (s : Tokens) : (pure a : Parse α) s = .ok a s := rfl

theorem map_of_ok {p : Parse α} {f : α → β} {a : α} (h : p s = .ok a s') :
    (f <$> p) s = .ok (f a) s' := by
  simp only [Functor.map, EStateM.map, h]

theorem map_of_error {p : Parse α} {f : α → β} {e : ParseError} (h : p s = .error e s') :
    (f <$> p) s = .error e s' := by
  simp only [Functor.map, EStateM.map, h]

theorem map_eq_ok {p : Parse α} {f : α → β} {b : β} :
    (f <$> p) s = .ok b s' ↔ ∃ a, p s = .ok a s' ∧ f a = b := by
  cases ran : p s with
  | ok a s₁ =>
      rw [map_of_ok ran]
      constructor
      · intro h
        cases h
        exact ⟨a, rfl, rfl⟩
      · rintro ⟨_, same, rfl⟩
        cases same
        rfl
  | error e s₁ => simp [map_of_error ran]

/-- Whatever the parser finds takes tokens off the front, as `D` says of them, of what was
    found and of the tokens behind. -/
def Takes (p : Parse (Option α)) (D : List Token → α → Tokens → Prop) : Prop :=
  ∀ ⦃s a s'⦄, p s = .ok (some a) s' → ∃ ts, s = s'.prepend ts ∧ D ts a s'

/-- Where the parser finds nothing, all tokens stay. -/
def Idle (p : Parse (Option α)) : Prop :=
  ∀ ⦃s s'⦄, p s = .ok none s' → s' = s

/-! ## Failing -/

@[simp] theorem failAt_ne_ok (cause : ParseError.Cause) (found : Option Token) (a : α) :
    failAt cause found s ≠ .ok a s' := by
  cases found <;> nofun

@[simp] theorem refuse_ne_ok (cause : ParseError.Cause) (found : Option Token) (a : α) :
    refuse cause found s ≠ .ok a s' :=
  failAt_ne_ok _ _ _

@[simp] theorem refuseNext_ne_ok (cause : ParseError.Cause) (a : α) :
    refuseNext cause s ≠ .ok a s' := by
  intro h
  obtain ⟨_, _, _, h⟩ := bind_eq_ok.mp h
  exact refuse_ne_ok _ _ _ h

@[simp] theorem tooDeep_ne_ok (a : α) : tooDeep s ≠ .ok a s' :=
  failAt_ne_ok _ _ _

/-! ## Single tokens -/

@[simp] theorem peek_apply (s : Tokens) : peek s = .ok s.pending.head? s := rfl

@[simp] theorem here_apply (s : Tokens) :
    here s = .ok ((s.pending.head?.map (·.location)).getD s.stop) s := rfl

@[simp] theorem next_prepend (s : Tokens) (t : Token) (ts : List Token) :
    next (s.prepend (t :: ts)) = .ok (some t) (s.prepend ts) := rfl

@[simp] theorem skip_prepend (s : Tokens) (t : Token) (ts : List Token) :
    skip (s.prepend (t :: ts)) = .ok () (s.prepend ts) := rfl

/-- Taking a token that was looked at, with its place. -/
theorem here_skip_prepend (s : Tokens) (t : Token) (ts : List Token) (f : Location → Parse α) :
    (do
      let place ← here
      skip
      f place) (s.prepend (t :: ts)) = f t.location (s.prepend ts) := rfl

theorem next_cases {r : Option Token} (h : next s = .ok r s') :
    (∃ t, r = some t ∧ s = s'.prepend [t]) ∨ (r = none ∧ s.pending = [] ∧ s' = s) := by
  obtain ⟨_ | ⟨t, ts⟩, stop⟩ := s
  · cases h
    exact .inr ⟨rfl, rfl, rfl⟩
  · cases h
    exact .inl ⟨t, rfl, rfl⟩

theorem takeIf_of_next {test : Token → Bool} {t : Token} (passes : test t = true) (s : Tokens)
    (ts : List Token) : takeIf test (s.prepend (t :: ts)) = .ok (some t) (s.prepend ts) := by
  change (if test t then next else pure none) _ = _
  rw [if_pos passes]
  rfl

theorem takeIf_of_not_next {test : Token → Bool} (h : ¬s.Next (test · = true)) :
    takeIf test s = .ok none s := by
  obtain ⟨_ | ⟨t, ts⟩, stop⟩ := s
  · rfl
  · change (if test t then next else pure none) _ = _
    rw [if_neg fun passes => h ⟨t, rfl, passes⟩]
    rfl

theorem takeIf_cases {test : Token → Bool} {r : Option Token} (h : takeIf test s = .ok r s') :
    (∃ t, r = some t ∧ test t = true ∧ s = s'.prepend [t]) ∨
      (r = none ∧ s' = s ∧ ¬s.Next (test · = true)) := by
  by_cases next : s.Next (test · = true)
  · obtain ⟨t, s₁, rfl, passes⟩ := Tokens.next_iff.mp next
    rw [takeIf_of_next passes] at h
    cases h
    exact .inl ⟨t, rfl, passes, rfl⟩
  · rw [takeIf_of_not_next next] at h
    cases h
    exact .inr ⟨rfl, rfl, next⟩

theorem expectSeparator_eq_ok {c : Char} {what : Expectation} {t : Token} :
    expectSeparator c what s = .ok t s' ↔ t.isSeparator c = true ∧ s = s'.prepend [t] := by
  constructor
  · intro h
    obtain ⟨r, s₁, taken, done⟩ := bind_eq_ok.mp h
    obtain ⟨u, rfl, passes, rfl⟩ | ⟨rfl, -, -⟩ := takeIf_cases taken
    · cases done
      exact ⟨passes, rfl⟩
    · exact absurd done (refuseNext_ne_ok _ _)
  · rintro ⟨passes, rfl⟩
    exact bind_of_ok (takeIf_of_next passes s' [])

theorem expectSeparator_of_next {c : Char} {what : Expectation} {t : Token}
    (separator : t.isSeparator c = true) (s : Tokens) (ts : List Token) :
    expectSeparator c what (s.prepend (t :: ts)) = .ok t (s.prepend ts) :=
  expectSeparator_eq_ok.mpr ⟨separator, rfl⟩

theorem require_eq_ok {after : String} {p : Parse (Option Node)} {n : Node} :
    require after p s = .ok n s' ↔ p s = .ok (some n) s' := by
  constructor
  · intro h
    obtain ⟨r, s₁, ran, h⟩ := bind_eq_ok.mp h
    cases r with
    | none => exact absurd h (refuseNext_ne_ok _ _)
    | some m =>
        cases h
        exact ran
  · intro h
    exact bind_of_ok h

/-! ## Operators -/

section TakeOneOf

variable {symbol : α → String} {ops : List α}

/-- One of the operators is spelled like `t`, if `t` spells any of them. -/
theorem find?_of_spells {op : α} {t : Token} (mem : op ∈ ops) (spelled : t.Spells (symbol op)) :
    ∃ o ∈ ops, ops.find? (symbol · == t.text) = some o ∧ t.Spells (symbol o) := by
  have some_found : (ops.find? (symbol · == t.text)).isSome := by
    rw [List.find?_isSome]
    exact ⟨op, mem, by simp [spelled.2]⟩
  obtain ⟨o, found⟩ := Option.isSome_iff_exists.mp some_found
  have same := List.find?_some found
  exact ⟨o, List.mem_of_find?_eq_some found, found, spelled.1, (beq_iff_eq.mp same).symm⟩

theorem takeOneOf_of_find? {op : α} {t : Token} (found : ops.find? (symbol · == t.text) = some op)
    (kind : t.kind = .operator ∨ t.kind = .symbol) (s : Tokens) (ts : List Token) :
    takeOneOf symbol ops (s.prepend (t :: ts)) = .ok (some (op, t.location)) (s.prepend ts) := by
  refine (bind_of_ok (peek_apply _)).trans ?_
  simp [kind, found, bind_of_ok (skip_prepend s t ts)]

theorem takeOneOf_of_next (injective : ∀ a b, symbol a = symbol b → a = b) {op : α} {t : Token}
    (mem : op ∈ ops) (spelled : t.Spells (symbol op)) (s : Tokens) (ts : List Token) :
    takeOneOf symbol ops (s.prepend (t :: ts)) = .ok (some (op, t.location)) (s.prepend ts) := by
  obtain ⟨o, -, found, spells⟩ := find?_of_spells mem spelled
  cases injective o op (spells.2.symm.trans spelled.2)
  exact takeOneOf_of_find? found spelled.1 s ts

theorem takeOneOf_of_not_next (h : ¬s.Next fun t => ∃ op ∈ ops, t.Spells (symbol op)) :
    takeOneOf symbol ops s = .ok none s := by
  refine (bind_of_ok (peek_apply _)).trans ?_
  obtain ⟨_ | ⟨t, ts⟩, stop⟩ := s
  · rfl
  · simp only [List.head?_cons]
    split
    · next kind =>
        have absent : ops.find? (symbol · == t.text) = none := by
          rw [List.find?_eq_none]
          intro op mem spelled
          exact h ⟨t, rfl, op, mem, by simpa using kind, (beq_iff_eq.mp spelled).symm⟩
        simp [absent]
    · rfl

theorem takeOneOf_cases {r : Option (α × Location)} (h : takeOneOf symbol ops s = .ok r s') :
    (∃ op ∈ ops, ∃ t, r = some (op, t.location) ∧ t.Spells (symbol op) ∧ s = s'.prepend [t]) ∨
      (r = none ∧ s' = s ∧ ¬s.Next fun t => ∃ op ∈ ops, t.Spells (symbol op)) := by
  by_cases next : s.Next fun t => ∃ op ∈ ops, t.Spells (symbol op)
  · obtain ⟨t, s₁, rfl, op, mem, spelled⟩ := Tokens.next_iff.mp next
    obtain ⟨o, mem', found, spells⟩ := find?_of_spells mem spelled
    rw [takeOneOf_of_find? found spelled.1 s₁ []] at h
    cases h
    exact .inl ⟨o, mem', t, rfl, spells, rfl⟩
  · rw [takeOneOf_of_not_next next] at h
    cases h
    exact .inr ⟨rfl, rfl, next⟩

end TakeOneOf

/-! ## Repetition -/

section Many

variable {step : Parse (Option α)}

/-- What every round keeps holds in the end. -/
theorem manyUpTo_keeps {I : List Token → List α → Tokens → Prop}
    (round : ∀ ts as s a s', I ts as s → step s = .ok (some a) s' →
      ∃ us, s = s'.prepend us ∧ I (ts ++ us) (as ++ [a]) s')
    (idle : Idle step) :
    ∀ (limit : Nat) {ts : List Token} {as bs : List α} {s s' : Tokens}, I ts as s →
      manyUpTo step limit s = .ok bs s' → ∃ us, s = s'.prepend us ∧ I (ts ++ us) (as ++ bs) s'
  | 0, ts, as, bs, s, s', holds, h => by
      cases h
      exact ⟨[], rfl, by simpa using holds⟩
  | limit + 1, ts, as, bs, s, s', holds, h => by
      obtain ⟨r, s₁, ran, done⟩ := bind_eq_ok.mp h
      cases r with
      | none =>
          cases done
          cases idle ran
          exact ⟨[], rfl, by simpa using holds⟩
      | some a =>
          obtain ⟨more, s₂, rest, done⟩ := bind_eq_ok.mp done
          cases done
          obtain ⟨us, rfl, kept⟩ := round _ _ _ _ _ holds ran
          obtain ⟨vs, rfl, last⟩ := manyUpTo_keeps round idle limit kept rest
          exact ⟨us ++ vs, (Tokens.prepend_append _ _ _).symm, by simpa using last⟩

theorem many_keeps {I : List Token → List α → Tokens → Prop}
    (round : ∀ ts as s a s', I ts as s → step s = .ok (some a) s' →
      ∃ us, s = s'.prepend us ∧ I (ts ++ us) (as ++ [a]) s')
    (idle : Idle step) {ts : List Token} {as : List α}
    (holds : I ts [] s) (h : many step s = .ok as s') :
    ∃ us, s = s'.prepend us ∧ I (ts ++ us) as s' := by
  obtain ⟨r, s₁, ran, done⟩ := bind_eq_ok.mp h
  cases r with
  | none =>
      cases done
      cases idle ran
      exact ⟨[], rfl, by simpa using holds⟩
  | some a =>
      obtain ⟨_, _, same, done⟩ := bind_eq_ok.mp done
      cases same
      obtain ⟨more, s₂, rest, done⟩ := bind_eq_ok.mp done
      cases done
      obtain ⟨us, rfl, kept⟩ := round _ _ _ _ _ holds ran
      obtain ⟨vs, rfl, last⟩ := manyUpTo_keeps round idle _ kept rest
      exact ⟨us ++ vs, (Tokens.prepend_append _ _ _).symm, by simpa using last⟩

/-- Whatever the step finds takes up a token. -/
def Progresses (step : Parse (Option α)) : Prop :=
  ∀ ⦃s a s'⦄, step s = .ok (some a) s' → s'.pending.length < s.pending.length

theorem Takes.progresses {D : List Token → α → Tokens → Prop} (takes : Takes step D)
    (some_taken : ∀ {ts a s}, D ts a s → ts ≠ []) : Progresses step := by
  intro s a s' h
  obtain ⟨ts, rfl, derived⟩ := takes h
  have := List.length_pos_iff.mpr (some_taken derived)
  simp only [Tokens.pending_prepend, List.length_append]
  omega

/-- The limit on the number of rounds plays no part. -/
theorem manyUpTo_eq_of_lt (progress : Progresses step) :
    ∀ (m n : Nat) (s : Tokens), s.pending.length < m → s.pending.length < n →
      manyUpTo step m s = manyUpTo step n s
  | m + 1, n + 1, s, hm, hn => by
      cases ran : step s with
      | error e s₁ => exact (bind_of_error ran).trans (bind_of_error ran).symm
      | ok r s₁ =>
          refine (bind_of_ok ran).trans (Eq.trans ?_ (bind_of_ok ran).symm)
          cases r with
          | none => rfl
          | some a =>
              have shorter := progress ran
              have same := manyUpTo_eq_of_lt progress m n s₁ (by omega) (by omega)
              simp only [bind, EStateM.bind, same]

theorem many_eq_manyUpTo (progress : Progresses step) {limit : Nat}
    (enough : s.pending.length < limit) : many step s = manyUpTo step limit s := by
  obtain _ | limit := limit
  · omega
  cases ran : step s with
  | error e s₁ => exact (bind_of_error ran).trans (bind_of_error ran).symm
  | ok r s₁ =>
      refine (bind_of_ok ran).trans (Eq.trans ?_ (bind_of_ok ran).symm)
      cases r with
      | none => rfl
      | some a =>
          have shorter := progress ran
          have same := manyUpTo_eq_of_lt progress (s₁.pending.length + 1) limit s₁ (by omega)
            (by omega)
          have fetched : (get : Parse Tokens) s₁ = .ok s₁ s₁ := rfl
          refine (bind_of_ok fetched).trans ?_
          simp only [bind, EStateM.bind, same]

theorem many_of_none (h : step s = .ok none s') : many step s = .ok [] s' :=
  bind_of_ok h

theorem many_of_some (progress : Progresses step) {a : α} {s₁ : Tokens}
    (h : step s = .ok (some a) s₁) : many step s = ((a :: ·) <$> many step) s₁ := by
  rw [many_eq_manyUpTo progress (Nat.lt_succ_self _)]
  refine (bind_of_ok h).trans ?_
  have same := many_eq_manyUpTo progress (progress h)
  simp only [bind, EStateM.bind, Functor.map, EStateM.map, same]
  rfl

/-- A repetition that starts at `s` finds `as` and then goes on at `s'`. -/
def Repeats (step : Parse (Option α)) (as : List α) (s s' : Tokens) : Prop :=
  many step s = ((as ++ ·) <$> many step) s'

theorem Repeats.nil : Repeats step [] s s := by
  simp [Repeats]

theorem Repeats.append_singleton {as : List α} {a : α} {s₁ : Tokens} (h : Repeats step as s s₁)
    (progress : Progresses step) (ran : step s₁ = .ok (some a) s') :
    Repeats step (as ++ [a]) s s' := by
  have more := many_of_some progress ran
  refine Eq.trans h ?_
  simp only [Functor.map, EStateM.map, more]
  cases many step s' <;> simp

theorem Repeats.ends {as : List α} (h : Repeats step as s s') (ran : step s' = .ok none s') :
    many step s = .ok as s' := by
  rw [h, map_of_ok (many_of_none ran), List.append_nil]

/-- A repetition that finds nothing takes nothing. -/
theorem eq_of_many_nil (idle : Idle step) (h : many step s = .ok [] s') : s' = s := by
  obtain ⟨r, s₁, ran, rest⟩ := bind_eq_ok.mp h
  cases r with
  | none =>
      cases rest
      exact idle ran
  | some a =>
      obtain ⟨_, _, same, rest⟩ := bind_eq_ok.mp rest
      obtain ⟨_, _, _, done⟩ := bind_eq_ok.mp rest
      cases done

/-- The first round of a repetition. -/
theorem many_cases (progress : Progresses step) {as : List α} (h : many step s = .ok as s') :
    (as = [] ∧ step s = .ok none s') ∨
      ∃ a s₁ more, as = a :: more ∧ step s = .ok (some a) s₁ ∧ many step s₁ = .ok more s' := by
  cases ran : step s with
  | error e s₁ =>
      rw [show many step s = .error e s₁ from bind_of_error ran] at h
      cases h
  | ok r s₁ =>
      cases r with
      | none =>
          rw [many_of_none ran] at h
          cases h
          exact .inl ⟨rfl, rfl⟩
      | some a =>
          rw [many_of_some progress ran, map_eq_ok] at h
          obtain ⟨more, rest, rfl⟩ := h
          exact .inr ⟨a, s₁, more, rfl, rfl, rest⟩

/-- Round after round, the step finds `as` and then nothing: a repetition without any
    limit. -/
inductive Collects (step : Parse (Option α)) : Tokens → List α → Tokens → Prop where
  | done {first last : Tokens} (ran : step first = .ok none last) : Collects step first [] last
  | round {first next last : Tokens} {a : α} {as : List α} (ran : step first = .ok (some a) next)
      (more : Collects step next as last) : Collects step first (a :: as) last

theorem collects_of_many (progress : Progresses step) {as : List α}
    (h : many step s = .ok as s') : Collects step s as s' := by
  induction as generalizing s with
  | nil =>
      obtain ⟨-, ran⟩ | ⟨_, _, _, absurd, -⟩ := many_cases progress h
      · exact .done ran
      · cases absurd
  | cons a as ih =>
      obtain ⟨absurd, -⟩ | ⟨_, s₁, _, same, ran, rest⟩ := many_cases progress h
      · cases absurd
      · cases same
        exact .round ran (ih rest)

/-- A repetition that ends has nothing left to find. -/
theorem Collects.ends (idle : Idle step) {as : List α} (h : Collects step s as s') :
    step s' = .ok none s' := by
  induction h with
  | done ran =>
      cases idle ran
      exact ran
  | round _ _ ih => exact ih

theorem many_ends (progress : Progresses step) (idle : Idle step)
    {as : List α} (h : many step s = .ok as s') : step s' = .ok none s' :=
  (collects_of_many progress h).ends idle

end Many

end Parse

end Scriptlet
