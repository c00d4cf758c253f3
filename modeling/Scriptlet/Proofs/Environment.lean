import Scriptlet.Environment

/-! # The bindings of an environment

An environment is seen through `binding?`: what a scope, counted from the innermost one,
binds a name to. Each change of a variable has its equation there, and another one for what
names mean.
-/

namespace Scriptlet

namespace Scope

theorem get?_cons (other y : String) (w : Value) (rest : Scope) :
    get? ((other, w) :: rest) y = if y = other then some w else get? rest y := by
  by_cases same : y = other
  · simp [get?, same]
  · simp [get?, List.lookup_cons, beq_eq_false_iff_ne.mpr same, same]

theorem get?_insert (s : Scope) (x y : String) (v : Value) :
    (s.insert x v).get? y = if y = x then some v else s.get? y := by
  induction s with
  | nil => exact get?_cons x y v []
  | cons entry rest ih =>
      obtain ⟨other, w⟩ := entry
      rw [insert]
      by_cases found : x = other
      · simp only [found, if_true, get?_cons]
        split <;> rfl
      · simp only [if_neg found, get?_cons, ih]
        by_cases same : y = other
        · simp [same, Ne.symm found]
        · simp [same]

end Scope

namespace Environment

/-- What a scope, counted from the innermost one, binds a name to. -/
def binding? (e : Environment) (i : Nat) (name : String) : Option Value :=
  e.scopes[i]?.bind (·.get? name)

/-- A declaration goes into the first scope. -/
theorem scopes_declare (e : Environment) (x : String) (v : Value) :
    (e.declare x v).scopes = e.scopes.modifyHead (Scope.insert x v) := by
  obtain ⟨_ | ⟨innermost, rest⟩, global⟩ := e <;> rfl

theorem assignIn_cases (x : String) (v : Value) (scopes : List Scope) :
    assignIn x v scopes = none ∧ (∀ s ∈ scopes, s.get? x = none) ∨
      ∃ before s after, scopes = before ++ s :: after ∧ (∀ s ∈ before, s.get? x = none) ∧
        (s.get? x).isSome = true ∧
        assignIn x v scopes = some (before ++ s.insert x v :: after) := by
  induction scopes with
  | nil => exact .inl ⟨rfl, by simp⟩
  | cons s rest ih =>
      cases bound : s.get? x with
      | some w => exact .inr ⟨[], s, rest, rfl, by simp, by simp [bound],
          by simp [assignIn, Scope.binds, bound]⟩
      | none =>
          have passes : assignIn x v (s :: rest) = (assignIn x v rest).map (s :: ·) := by
            simp [assignIn, Scope.binds, bound]
          rw [passes]
          obtain ⟨nowhere, unbound⟩ | ⟨before, found, after, rfl, unbound, some_value, assigned⟩ :=
            ih
          · exact .inl ⟨by rw [nowhere, Option.map_none],
              List.forall_mem_cons.mpr ⟨bound, unbound⟩⟩
          · exact .inr ⟨s :: before, found, after, rfl, List.forall_mem_cons.mpr ⟨bound, unbound⟩,
              some_value, by rw [assigned, Option.map_some]; rfl⟩

/-- A variable is assigned to in the first scope that binds its name. -/
theorem scopes_of_set? {e e' : Environment} {x : String} {v : Value}
    (assigned : e.set? x v = some e') :
    ∃ before s after, e.scopes = before ++ s :: after ∧ (∀ s ∈ before, s.get? x = none) ∧
      (s.get? x).isSome = true ∧ e'.scopes = before ++ s.insert x v :: after := by
  obtain ⟨nowhere, unbound⟩ | ⟨before, s, after, same, unbound, bound, found⟩ :=
    assignIn_cases x v e.locals
  · simp only [set?, nowhere] at assigned
    split at assigned
    · next bound =>
        cases assigned
        exact ⟨e.locals, e.global, [], rfl, unbound, bound, rfl⟩
    · cases assigned
  · simp only [set?, found] at assigned
    cases assigned
    exact ⟨before, s, after ++ [e.global], by simp [scopes, same], unbound, bound, by simp [scopes]⟩

theorem depth_declare (e : Environment) (x : String) (v : Value) :
    (e.declare x v).depth = e.depth := by
  simp [depth, scopes_declare]

theorem depth_of_set? {e e' : Environment} {x : String} {v : Value}
    (assigned : e.set? x v = some e') : e'.depth = e.depth := by
  obtain ⟨before, s, after, same, -, -, same'⟩ := scopes_of_set? assigned
  simp [depth, same, same']

theorem scopes_ne_nil (e : Environment) : e.scopes ≠ [] := by
  simp [scopes]

theorem binding?_declare (e : Environment) (x y : String) (v : Value) (i : Nat) :
    (e.declare x v).binding? i y = if i = 0 ∧ y = x then some v else e.binding? i y := by
  rw [binding?, binding?, scopes_declare]
  cases scopes : e.scopes with
  | nil => exact absurd scopes e.scopes_ne_nil
  | cons innermost rest =>
      cases i with
      | zero => simp [Scope.get?_insert]
      | succ i => simp

/-- An assignment changes one binding: the innermost one of its name. -/
theorem binding?_of_set? {e e' : Environment} {x : String} {v : Value}
    (assigned : e.set? x v = some e') :
    ∃ i, (e.binding? i x).isSome = true ∧ (∀ j < i, e.binding? j x = none) ∧
      ∀ k y, e'.binding? k y = if k = i ∧ y = x then some v else e.binding? k y := by
  obtain ⟨before, s, after, same, unbound, bound, same'⟩ := scopes_of_set? assigned
  refine ⟨before.length, by simpa [binding?, same] using bound, ?_, ?_⟩
  · intro j inner
    have found : e.scopes[j]? = some (before.get ⟨j, inner⟩) := by
      simp [same, List.getElem?_append_left inner]
    simpa [binding?, found] using unbound _ (List.get_mem before ⟨j, inner⟩)
  · intro k y
    simp only [binding?, same, same']
    obtain inside | rfl | outside := Nat.lt_trichotomy k before.length
    · simp [List.getElem?_append_left inside, Nat.ne_of_lt inside]
    · simp [Scope.get?_insert]
    · obtain ⟨n, rfl⟩ := Nat.exists_eq_add_of_lt outside
      simp [List.getElem?_append_right, Nat.add_assoc]

/-! ## What names mean -/

theorem get?_declare (e : Environment) (x y : String) (v : Value) :
    (e.declare x v).get? y = if y = x then some v else e.get? y := by
  rw [get?, get?, scopes_declare]
  cases scopes : e.scopes with
  | nil => exact absurd scopes e.scopes_ne_nil
  | cons innermost rest =>
      rw [List.modifyHead_cons, List.findSome?_cons, Scope.get?_insert, List.findSome?_cons]
      by_cases same : y = x <;> simp [same]

theorem get?_of_set? {e e' : Environment} {x : String} {v : Value} (assigned : e.set? x v = some e')
    (y : String) : e'.get? y = if y = x then some v else e.get? y := by
  obtain ⟨before, s, after, scopes, unbound, -, scopes'⟩ := scopes_of_set? assigned
  rw [get?, get?, scopes, scopes', List.findSome?_append, List.findSome?_append,
    List.findSome?_cons, List.findSome?_cons, Scope.get?_insert]
  by_cases same : y = x
  · have nowhere : before.findSome? (·.get? x) = none := List.findSome?_eq_none_iff.mpr unbound
    simp [same, nowhere]
  · simp [same]

/-- A name means nothing where no scope binds it. -/
theorem get?_eq_none_iff {e : Environment} {x : String} :
    e.get? x = none ↔ ∀ i, e.binding? i x = none := by
  rw [get?, List.findSome?_eq_none_iff]
  constructor
  · intro unbound i
    cases found : e.scopes[i]? with
    | none => simp [binding?, found]
    | some s => simpa [binding?, found] using unbound s (List.mem_of_getElem? found)
  · intro unbound s mem
    obtain ⟨i, found⟩ := List.mem_iff_getElem?.mp mem
    simpa [binding?, found] using unbound i

/-- Only a name that means something can be assigned to. -/
theorem isSome_set? (e : Environment) (x : String) (v : Value) :
    (e.set? x v).isSome = (e.get? x).isSome := by
  have split : e.get? x = (e.locals.findSome? (·.get? x)).or (e.global.get? x) := by
    simp [get?, scopes, List.findSome?_append]
  obtain ⟨nowhere, unbound⟩ | ⟨before, s, after, same, -, bound, found⟩ :=
    assignIn_cases x v e.locals
  · rw [split, List.findSome?_eq_none_iff.mpr unbound, Option.none_or]
    cases bound : e.global.get? x <;> simp [set?, nowhere, Scope.binds, bound]
  · have inside : (e.locals.findSome? (·.get? x)).isSome = true := by
      rw [List.findSome?_isSome_iff]
      exact ⟨s, by simp [same], bound⟩
    simp [set?, found, split, inside]

end Environment

end Scriptlet
