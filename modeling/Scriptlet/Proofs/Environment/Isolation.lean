import Scriptlet.Proofs.Environment

/-! # Scopes isolate

Whatever is done to an environment, its global scope stays, so no declaration is lost. And
whatever is done between opening a scope and closing it again, the scopes outside bind every
name as before, but for two kinds of names: those declared in the global scope, and those
assigned to while none of the scopes opened in between binds them.
-/

namespace Scriptlet

namespace Environment

/-- What can be done to an environment. -/
inductive Operation where
  | push
  | pop
  | declare (name : String) (v : Value)
  | declareGlobal (name : String) (v : Value)
  | set (name : String) (v : Value)
  deriving Repr, DecidableEq

/-- What becomes of an environment. The global scope is not closed, and a name that means
    nothing is not assigned to. -/
def apply (e : Environment) : Operation → Environment
  | .push => e.push
  | .pop => e.pop?.getD e
  | .declare x v => e.declare x v
  | .declareGlobal x v => e.declareGlobal x v
  | .set x v => (e.set? x v).getD e

/-- Operations one after the other. -/
def replay (history : List Operation) (e : Environment) : Environment :=
  history.foldl apply e

/-! ## A stack that could run empty -/

namespace Operation

/-- What becomes of a stack of scopes, the innermost first. Where the stack is empty, a
    declaration is lost. -/
def onStack : Operation → List Scope → List Scope
  | push, stack => [] :: stack
  | pop, _ :: outer :: rest => outer :: rest
  | pop, stack => stack
  | declare x v, stack => stack.modifyHead (Scope.insert x v)
  | declareGlobal x v, stack => (stack.reverse.modifyHead (Scope.insert x v)).reverse
  | set x v, stack => (assignIn x v stack).getD stack

end Operation

theorem assignIn_concat (x : String) (v : Value) (scopes : List Scope) (last : Scope) :
    assignIn x v (scopes ++ [last]) =
      match assignIn x v scopes with
      | some scopes => some (scopes ++ [last])
      | none => if last.binds x then some (scopes ++ [last.insert x v]) else none := by
  induction scopes with
  | nil => simp [assignIn]
  | cons s rest ih =>
      rw [List.cons_append, assignIn, assignIn, ih]
      by_cases here : s.binds x = true
      · simp only [if_pos here, List.cons_append]
      · simp only [if_neg here]
        cases assignIn x v rest with
        | some rest' => rfl
        | none =>
            by_cases outside : last.binds x = true
            · simp only [if_pos outside, Option.map_some, Option.map_none, List.cons_append]
            · simp only [if_neg outside, Option.map_none]

theorem scopes_set? (e : Environment) (x : String) (v : Value) :
    (e.set? x v).map scopes = assignIn x v e.scopes := by
  rw [scopes, assignIn_concat, set?]
  cases assignIn x v e.locals with
  | some locals => rfl
  | none =>
      by_cases bound : e.global.binds x = true
      · simp only [if_pos bound, Option.map_some, scopes]
      · simp only [if_neg bound, Option.map_none]

/-- The scopes of an environment are such a stack. -/
theorem scopes_apply (e : Environment) (o : Operation) :
    (e.apply o).scopes = o.onStack e.scopes := by
  cases o with
  | push => rfl
  | pop => obtain ⟨_ | ⟨innermost, _ | ⟨next, rest⟩⟩, global⟩ := e <;> rfl
  | declare x v => exact e.scopes_declare x v
  | declareGlobal x v => simp [apply, declareGlobal, scopes, Operation.onStack]
  | set x v =>
      rw [apply, Operation.onStack, ← scopes_set?]
      cases e.set? x v <;> rfl

theorem scopes_replay (history : List Operation) (e : Environment) :
    (replay history e).scopes = history.foldl (fun stack o => o.onStack stack) e.scopes := by
  induction history generalizing e with
  | nil => rfl
  | cons o history ih =>
      rw [List.foldl_cons, ← scopes_apply]
      exact ih (e.apply o)

/-! ## Single operations -/

theorem depth_pos (e : Environment) : 0 < e.depth :=
  List.length_pos_iff.mpr e.scopes_ne_nil

theorem depth_push (e : Environment) : e.push.depth = e.depth + 1 := rfl

theorem binding?_push (e : Environment) (i : Nat) (x : String) :
    e.push.binding? (i + 1) x = e.binding? i x := rfl

/-- The global scope stays, and every other one is closed without regard to the rest. -/
theorem pop_cases (e : Environment) :
    e.depth = 1 ∧ e.apply .pop = e ∨
      e.depth = (e.apply .pop).depth + 1 ∧
        ∀ i x, (e.apply .pop).binding? i x = e.binding? (i + 1) x := by
  obtain ⟨_ | ⟨innermost, rest⟩, global⟩ := e
  · exact .inl ⟨rfl, rfl⟩
  · exact .inr ⟨rfl, fun _ _ => rfl⟩

theorem binding?_declareGlobal (e : Environment) (x y : String) (v : Value) (i : Nat) :
    (e.declareGlobal x v).binding? i y =
      if i + 1 = e.depth ∧ y = x then some v else e.binding? i y := by
  obtain inside | rfl | outside := Nat.lt_trichotomy i e.locals.length
  · simp [binding?, declareGlobal, depth, scopes, List.getElem?_append_left inside,
      Nat.ne_of_lt inside]
  · simp [binding?, declareGlobal, depth, scopes, Scope.get?_insert]
  · obtain ⟨n, rfl⟩ := Nat.exists_eq_add_of_lt outside
    simp [binding?, declareGlobal, depth, scopes, Nat.add_assoc]

theorem depth_declareGlobal (e : Environment) (x : String) (v : Value) :
    (e.declareGlobal x v).depth = e.depth := by
  simp [depth, declareGlobal, scopes]

/-- A name means what the innermost scope that binds it says. -/
theorem get?_eq_some_iff {e : Environment} {x : String} {v : Value} :
    e.get? x = some v ↔ ∃ i, e.binding? i x = some v ∧ ∀ j < i, e.binding? j x = none := by
  rw [get?, List.findSome?_eq_some_iff]
  constructor
  · rintro ⟨before, s, after, row, found, unbound⟩
    refine ⟨before.length, by simpa [binding?, row] using found, fun j inner => ?_⟩
    have at_j : e.scopes[j]? = some (before.get ⟨j, inner⟩) := by
      simp [row, List.getElem?_append_left inner]
    simpa [binding?, at_j] using unbound _ (List.get_mem before ⟨j, inner⟩)
  · rintro ⟨i, found, unbound⟩
    obtain ⟨s, at_i, bound⟩ := Option.bind_eq_some_iff.mp found
    obtain ⟨inside, same⟩ := List.getElem?_eq_some_iff.mp at_i
    refine ⟨e.scopes.take i, s, e.scopes.drop (i + 1), ?_, bound, fun t mem => ?_⟩
    · rw [← same, List.getElem_cons_drop, List.take_append_drop]
    · obtain ⟨j, at_j⟩ := List.mem_iff_getElem?.mp mem
      rw [List.getElem?_take] at at_j
      split at at_j
      · next below => simpa [binding?, at_j] using unbound j below
      · cases at_j

/-! ## The scopes outside -/

/-- Can the operation change what `x` is bound to in the scope `j`, counted from the innermost of
    the `outer` scopes outside? A global declaration can if that is the global scope, and an
    assignment if no scope opened since binds its name. -/
def Operation.Reaches (outer j : Nat) (e : Environment) (x : String) : Operation → Prop
  | declareGlobal y _ => y = x ∧ j + 1 = outer
  | set y _ => y = x ∧ ∀ i, i + outer < e.depth → e.binding? i x = none
  | _ => False

variable {outer j : Nat} {e : Environment} {x : String}

/-- As long as a scope stays open inside them, the scopes outside change only where the operation
    reaches. -/
theorem binding?_apply_outer (o : Operation) (inside : outer < e.depth)
    (inside' : outer < (e.apply o).depth) :
    (e.apply o).binding? ((e.apply o).depth - outer + j) x =
        e.binding? (e.depth - outer + j) x ∨ o.Reaches outer j e x := by
  cases o with
  | push =>
      left
      rw [apply, depth_push, show e.depth + 1 - outer + j = e.depth - outer + j + 1 by omega,
        binding?_push]
  | pop =>
      left
      obtain ⟨-, same⟩ | ⟨deeper, same⟩ := e.pop_cases
      · rw [same]
      · rw [same]
        congr 1
        omega
  | declare y v =>
      left
      rw [apply, depth_declare, binding?_declare, if_neg (by omega)]
  | declareGlobal y v =>
      rw [apply, depth_declareGlobal, binding?_declareGlobal]
      split
      · next reached => exact .inr ⟨reached.2.symm, by omega⟩
      · exact .inl rfl
  | set y v =>
      cases assigned : e.set? y v with
      | none => simp [apply, assigned]
      | some e' =>
          simp only [apply, assigned, Option.getD_some, depth_of_set? assigned]
          obtain ⟨i, -, unbound, changed⟩ := binding?_of_set? assigned
          rw [changed]
          split
          · next reached =>
              obtain ⟨rfl, rfl⟩ := reached
              exact .inr ⟨rfl, fun i within => unbound i (by omega)⟩
          · exact .inl rfl

/-! ## Operations between brackets -/

namespace Operation

/-- How many of the scopes opened in between are open in the end, if `opened` are so in the
    beginning. There is no such number if a scope is closed that was not opened in between. -/
def opensBehind : Nat → List Operation → Option Nat
  | opened, [] => some opened
  | opened, push :: rest => opensBehind (opened + 1) rest
  | 0, pop :: _ => none
  | opened + 1, pop :: rest => opensBehind opened rest
  | opened, _ :: rest => opensBehind opened rest

/-- Every scope opened is closed again, and no other. -/
def WellBracketed (body : List Operation) : Prop :=
  opensBehind 0 body = some 0

instance (body : List Operation) : Decidable (WellBracketed body) :=
  inferInstanceAs (Decidable (opensBehind 0 body = some 0))

end Operation

/-- A row of operations keeps as many scopes open as it says, and changes the scopes outside only
    where one of the operations reaches. -/
theorem replay_outer {body : List Operation} {opened last : Nat}
    (brackets : Operation.opensBehind opened body = some last)
    (depth : e.depth = outer + 1 + opened) :
    (replay body e).depth = outer + 1 + last ∧
      ∀ j x, (replay body e).binding? (last + 1 + j) x = e.binding? (opened + 1 + j) x ∨
        ∃ before o after, body = before ++ o :: after ∧ o.Reaches outer j (replay before e) x := by
  induction body generalizing e opened with
  | nil =>
      cases brackets
      exact ⟨depth, fun _ _ => .inl rfl⟩
  | cons o body ih =>
      -- the operation leaves a scope open inside the outer ones, or the brackets do not match
      obtain ⟨opened', brackets', depth'⟩ : ∃ opened',
          Operation.opensBehind opened' body = some last ∧
            (e.apply o).depth = outer + 1 + opened' := by
        cases o with
        | push => exact ⟨opened + 1, brackets, by rw [apply, depth_push]; omega⟩
        | pop =>
            obtain ⟨single, -⟩ | ⟨deeper, -⟩ := e.pop_cases
            · cases opened with
              | zero => cases brackets
              | succ opened => omega
            · cases opened with
              | zero => cases brackets
              | succ opened => exact ⟨opened, brackets, by omega⟩
        | declare y v => exact ⟨opened, brackets, by rw [apply, depth_declare, depth]⟩
        | declareGlobal y v => exact ⟨opened, brackets, by rw [apply, depth_declareGlobal, depth]⟩
        | set y v =>
            refine ⟨opened, brackets, ?_⟩
            cases assigned : e.set? y v with
            | none => simpa [apply, assigned] using depth
            | some e' => simpa [apply, assigned, depth_of_set? assigned] using depth
      obtain ⟨last_depth, kept⟩ := ih brackets' depth'
      refine ⟨last_depth, fun j x => ?_⟩
      obtain same | ⟨before, o', after, rfl, reaches⟩ := kept j x
      · have first := binding?_apply_outer (j := j) (x := x) o (by omega : outer < e.depth)
          (by omega)
        rw [show (e.apply o).depth - outer = opened' + 1 by omega,
          show e.depth - outer = opened + 1 by omega] at first
        obtain same' | reaches := first
        · exact .inl (same.trans same')
        · exact .inr ⟨[], o, body, rfl, reaches⟩
      · exact .inr ⟨o :: before, o', after, rfl, reaches⟩

/-- After any history there is a scope: the scopes are a stack that never runs empty. So every
    declaration binds its name, in the innermost scope or in the global one, and a name means what
    the innermost scope that binds it says. Whatever is done between opening a scope and closing
    it, there are as many scopes as before, and each of them binds every name as before, unless it
    is the global one and the name was declared there, or the name was assigned to at a moment when
    no scope opened in between bound it. -/
theorem scopes_isolated (history : List Operation) :
    let e := replay history {}
    (history.foldl (fun stack o => o.onStack stack) [[]] = e.scopes ∧ e.scopes ≠ []) ∧
    (∀ x v, (e.declare x v).get? x = some v ∧ ∀ i y, (e.declare x v).binding? i y =
      if i = 0 ∧ y = x then some v else e.binding? i y) ∧
    (∀ x v i y, (e.declareGlobal x v).binding? i y =
      if i + 1 = e.depth ∧ y = x then some v else e.binding? i y) ∧
    (∀ x v, e.get? x = some v ↔
      ∃ i, e.binding? i x = some v ∧ ∀ j < i, e.binding? j x = none) ∧
    ∀ body, Operation.WellBracketed body →
      let e' := replay (.push :: body ++ [.pop]) e
      e'.depth = e.depth ∧ ∀ i x, e'.binding? i x = e.binding? i x ∨
        (i + 1 = e.depth ∧ ∃ v, .declareGlobal x v ∈ body) ∨
        ∃ before v after, body = before ++ .set x v :: after ∧
          let opened := replay (.push :: before) e
          ∀ j, j + e.depth < opened.depth → opened.binding? j x = none := by
  intro e
  refine ⟨⟨(scopes_replay history {}).symm, e.scopes_ne_nil⟩, fun x v => ⟨?_, ?_⟩,
    fun x v i y => e.binding?_declareGlobal x y v i, fun x v => get?_eq_some_iff,
    fun body brackets => ?_⟩
  · rw [get?_declare, if_pos rfl]
  · exact fun i y => e.binding?_declare x y v i
  · intro e'
    obtain ⟨depth, kept⟩ := replay_outer brackets e.depth_push
    have closed : e' = (replay body e.push).apply .pop := by
      simp [e', replay, apply]
    have at_least := e.depth_pos
    obtain ⟨single, -⟩ | ⟨deeper, outside⟩ := (replay body e.push).pop_cases
    · omega
    rw [closed]
    refine ⟨by omega, fun i x => ?_⟩
    rw [outside]
    obtain same | ⟨before, o, after, rfl, reaches⟩ := kept i x
    · left
      rw [Nat.zero_add, Nat.add_comm 1 i] at same
      exact same
    · right
      cases o with
      | declareGlobal y v =>
          obtain ⟨rfl, outermost⟩ := reaches
          exact .inl ⟨outermost, v, by simp⟩
      | set y v =>
          obtain ⟨rfl, unbound⟩ := reaches
          exact .inr ⟨before, v, after, rfl, unbound⟩
      | push | pop | declare => cases reaches

/-- A scope declares `x` anew and assigns to it: the variable of that name outside stays. -/
theorem scopes_isolated_shadowed :
    let e := replay [.declare "x" (.bool true), .push] {}
    let body : List Operation := [.declare "x" .null, .push, .set "x" .undefined, .pop]
    Operation.WellBracketed body ∧
      ∀ i, (replay (.push :: body ++ [.pop]) e).binding? i "x" = e.binding? i "x" := by
  intro e body
  have brackets : Operation.WellBracketed body := by decide
  obtain ⟨-, kept⟩ := (scopes_isolated [.declare "x" (.bool true), .push]).2.2.2.2 body brackets
  refine ⟨brackets, fun i => ?_⟩
  obtain same | ⟨-, v, mem⟩ | ⟨before, v, after, split, unbound⟩ := kept i "x"
  · exact same
  · simp [body] at mem
  · -- the assignment stands behind the declaration, whose scope binds the name
    obtain rfl : before = [.declare "x" .null, .push] := by
      obtain _ | ⟨a, _ | ⟨b, _ | ⟨c, rest⟩⟩⟩ := before <;>
        simp_all [body, List.cons_eq_append_iff]
    cases unbound 1 (by decide)

end Environment

end Scriptlet
