import Scriptlet.Value.Apply

/-! # Comparing values

Turning the operands around turns the answer of a comparison around, and two values that
compare as equal are loosely equal, unless one of them is missing. All laws between the
relational operators and the two equalities follow from these.
-/

namespace Scriptlet

namespace Double

variable {x y : Double}

theorem compare_swap (x y : Double) : y.compare x = (x.compare y).map Ordering.swap := by
  unfold Double.compare
  cases x.key with
  | none => cases y.key <;> rfl
  | some a =>
      cases y.key with
      | none => rfl
      | some b => exact congrArg some Std.OrientedOrd.eq_swap

theorem isSome_compare : (x.compare y).isSome = true ↔ x.isNaN = false ∧ y.isNaN = false := by
  cases x <;> cases y <;> simp [Double.compare, key, isNaN]

theorem equals_iff : x.equals y = true ↔ x.compare y = some .eq := by
  simp [equals]

/-- A number equals itself. -/
theorem equals_self (number : x ≠ .nan) : x.equals x = true := by
  rw [equals_iff]
  cases x with
  | nan => exact absurd rfl number
  | signed s m => exact congrArg some Std.ReflOrd.compare_self

end Double

/-- Does the operator find that the comparison holds? -/
abbrev RelOp.Holds (op : RelOp) (v w : Value) : Prop :=
  op.holds? v w = some true

namespace Value

variable {v w : Value}

/-- Two strings are compared by their characters, and all else as numbers, whichever way
    around. -/
theorem compare_cases (v w : Value) :
    (∃ s t, v = string s ∧ w = string t) ∨
      v.compare w = v.toNumber.compare w.toNumber ∧
        w.compare v = w.toNumber.compare v.toNumber := by
  cases v with
  | string s =>
      cases w with
      | string t => exact .inl ⟨s, t, rfl, rfl⟩
      | _ => exact .inr ⟨rfl, rfl⟩
  | _ => cases w <;> exact .inr ⟨rfl, rfl⟩

theorem compare_swap (v w : Value) : w.compare v = (v.compare w).map Ordering.swap := by
  obtain ⟨s, t, rfl, rfl⟩ | ⟨same, swapped⟩ := compare_cases v w
  · exact congrArg some Std.OrientedOrd.eq_swap
  · rw [same, swapped, Double.compare_swap]

/-- Neither value is `nan` under the comparison that is made of them: they are two strings, or
    both stand for a number. -/
def Comparable (v w : Value) : Prop :=
  (∃ s t, v = string s ∧ w = string t) ∨ v.toNumber.isNaN = false ∧ w.toNumber.isNaN = false

theorem isSome_compare (comparable : v.Comparable w) : (v.compare w).isSome = true := by
  obtain ⟨s, t, rfl, rfl⟩ | ⟨same, -⟩ := compare_cases v w
  · rfl
  · obtain ⟨s, t, rfl, rfl⟩ | numbers := comparable
    · rfl
    · rw [same]
      exact Double.isSome_compare.mpr numbers

theorem comparable_of_isSome (answered : (v.compare w).isSome = true) : v.Comparable w := by
  obtain strings | ⟨same, -⟩ := compare_cases v w
  · exact .inl strings
  · rw [same] at answered
    exact .inr (Double.isSome_compare.mp answered)

/-- Values that are not missing are loosely equal if they compare as equal. -/
theorem looseEquals_iff (given : v.isNullish = false) (given' : w.isNullish = false) :
    v.looseEquals w = true ↔ v.compare w = some .eq := by
  cases v with
  | undefined | null => cases given
  | bool a =>
      cases w with
      | undefined | null => cases given'
      -- two truth values are not turned into numbers, which are equal only if they are
      | bool b => cases a <;> cases b <;> decide +kernel
      | _ => exact Double.equals_iff
  | number x =>
      cases w with
      | undefined | null => cases given'
      | _ => exact Double.equals_iff
  | string s =>
      cases w with
      | undefined | null => cases given'
      | string t => simp [looseEquals, isNullish, Value.compare]
      | _ => exact Double.equals_iff

theorem looseEquals_of_isNullish (missing : v.isNullish = true ∨ w.isNullish = true) :
    v.looseEquals w = (v.isNullish && w.isNullish) := by
  have either : (v.isNullish || w.isNullish) = true := by simpa using missing
  unfold looseEquals
  exact if_pos either

/-- What is loosely equal is so whichever way around. -/
theorem looseEquals_symm (h : v.looseEquals w = true) : w.looseEquals v = true := by
  by_cases missing : v.isNullish = true ∨ w.isNullish = true
  · rw [looseEquals_of_isNullish missing] at h
    rwa [looseEquals_of_isNullish missing.symm, Bool.and_comm]
  · obtain ⟨given, given'⟩ : v.isNullish = false ∧ w.isNullish = false := by simpa using missing
    rw [looseEquals_iff given' given, compare_swap v w, (looseEquals_iff given given').mp h]
    rfl

theorem strictEquals_symm (h : v.strictEquals w = true) : w.strictEquals v = true := by
  cases v with
  | number x =>
      cases w with
      | number y =>
          have equal : x.compare y = some .eq := Double.equals_iff.mp h
          refine Double.equals_iff.mpr ?_
          rw [Double.compare_swap x y, equal]
          rfl
      | _ => cases h
  | bool a =>
      cases w with
      | bool b => simpa [strictEquals] using (beq_iff_eq.mp h).symm
      | _ => cases h
  | string s =>
      cases w with
      | string t => simpa [strictEquals] using (beq_iff_eq.mp h).symm
      | _ => cases h
  | _ => cases w <;> first | rfl | cases h

theorem looseEquals_of_strictEquals (h : v.strictEquals w = true) : v.looseEquals w = true := by
  cases v with
  | undefined | null => cases w <;> first | rfl | cases h
  | _ => cases w <;> first | exact h | cases h

theorem holds_lt_iff : RelOp.lt.Holds v w ↔ v.compare w = some .lt := by
  simp [RelOp.Holds, RelOp.holds?]

theorem holds_le_iff : RelOp.le.Holds v w ↔ v.compare w = some .lt ∨ v.compare w = some .eq := by
  simp [RelOp.Holds, RelOp.holds?]

theorem holds_eq_iff : RelOp.eq.Holds v w ↔ v.looseEquals w = true := by
  simp [RelOp.Holds, RelOp.holds?]

theorem holds_strictEq_iff : RelOp.strictEq.Holds v w ↔ v.strictEquals w = true := by
  simp [RelOp.Holds, RelOp.holds?]

/-- With the operands turned around, a less-or-equal holds if they compare as greater or as
    equal. -/
theorem holds_le_swap_iff :
    RelOp.le.Holds w v ↔ v.compare w = some .gt ∨ v.compare w = some .eq := by
  rw [holds_le_iff, compare_swap v w]
  cases v.compare w with
  | none => simp
  | some o => cases o <;> simp

theorem holds?_swap (v w : Value) :
    RelOp.lt.holds? v w = RelOp.gt.holds? w v ∧ RelOp.le.holds? v w = RelOp.ge.holds? w v := by
  simp only [RelOp.holds?, compare_swap v w]
  cases v.compare w with
  | none => exact ⟨rfl, rfl⟩
  | some o => cases o <;> exact ⟨rfl, rfl⟩

/-- What is less is not less or equal the other way around. -/
theorem not_holds_le_swap (less : RelOp.lt.Holds v w) : ¬RelOp.le.Holds w v := by
  rw [holds_lt_iff] at less
  rw [holds_le_swap_iff, less]
  simp

/-- One of two values is less or equal unless `nan` is compared. -/
theorem holds_le_total_iff : RelOp.le.Holds v w ∨ RelOp.le.Holds w v ↔ v.Comparable w := by
  rw [holds_le_iff, holds_le_swap_iff]
  constructor
  · intro answered
    refine comparable_of_isSome ?_
    obtain (h | h) | h | h := answered <;> rw [h] <;> rfl
  · intro comparable
    obtain ⟨o, answer⟩ := Option.isSome_iff_exists.mp (isSome_compare comparable)
    rw [answer]
    cases o <;> simp

/-- Values that are less or equal both ways are loosely equal, unless one of them is missing. -/
theorem holds_le_both_iff (given : v.isNullish = false) (given' : w.isNullish = false) :
    RelOp.le.Holds v w ∧ RelOp.le.Holds w v ↔ RelOp.eq.Holds v w := by
  rw [holds_le_iff, holds_le_swap_iff, holds_eq_iff, looseEquals_iff given given']
  constructor
  · rintro ⟨less | same, more | same'⟩
    · rw [less] at more
      cases more
    · exact same'
    · exact same
    · exact same
  · intro same
    exact ⟨.inr same, .inr same⟩

/-- The equalities and the relational operators agree with each other, whatever the types of the
    operands: both equalities are symmetric, and the strict one is part of the loose one; `<` and
    `<=` are `>` and `>=` turned around; `<` is the part of `<=` that does not hold the other way
    around; `<=` holds one way or the other exactly if there is no `nan` in the comparison; and it
    holds both ways exactly if the values are loosely equal, unless one of them is missing. -/
theorem operators_coherent (v w : Value) :
    (RelOp.eq.Holds v w ↔ RelOp.eq.Holds w v) ∧
    (RelOp.strictEq.Holds v w ↔ RelOp.strictEq.Holds w v) ∧
    (RelOp.strictEq.Holds v w → RelOp.eq.Holds v w) ∧
    RelOp.lt.holds? v w = RelOp.gt.holds? w v ∧
    RelOp.le.holds? v w = RelOp.ge.holds? w v ∧
    (RelOp.lt.Holds v w → RelOp.le.Holds v w) ∧
    ¬(RelOp.lt.Holds v w ∧ RelOp.lt.Holds w v) ∧
    ¬(RelOp.lt.Holds v w ∧ RelOp.le.Holds w v) ∧
    (RelOp.le.Holds v w ∨ RelOp.le.Holds w v ↔ v.Comparable w) ∧
    (v.isNullish = false → w.isNullish = false →
      (RelOp.le.Holds v w ∧ RelOp.le.Holds w v ↔ RelOp.eq.Holds v w)) := by
  have part {v w : Value} (less : RelOp.lt.Holds v w) : RelOp.le.Holds v w :=
    holds_le_iff.mpr (.inl (holds_lt_iff.mp less))
  obtain ⟨less, lessOrEqual⟩ := holds?_swap v w
  refine ⟨?_, ?_, ?_, less, lessOrEqual, part, ?_, ?_, holds_le_total_iff, holds_le_both_iff⟩
  · rw [holds_eq_iff, holds_eq_iff]
    exact ⟨looseEquals_symm, looseEquals_symm⟩
  · rw [holds_strictEq_iff, holds_strictEq_iff]
    exact ⟨strictEquals_symm, strictEquals_symm⟩
  · rw [holds_eq_iff, holds_strictEq_iff]
    exact looseEquals_of_strictEquals
  · rintro ⟨forth, back⟩
    exact not_holds_le_swap forth (part back)
  · rintro ⟨forth, back⟩
    exact not_holds_le_swap forth back

/-- A negative zero and the text of a zero in another base: neither is less. -/
theorem operators_coherent_zeros :
    let v := number (.signed true .zero)
    let w := string " 0x0 "
    v.isNullish = false ∧ w.isNullish = false ∧ ¬RelOp.strictEq.Holds v w ∧
      RelOp.le.Holds v w ∧ RelOp.le.Holds w v ∧ RelOp.eq.Holds v w := by
  intro v w
  have forth : RelOp.le.Holds v w := by decide +kernel
  have back : RelOp.le.Holds w v := by decide +kernel
  obtain ⟨-, -, -, -, -, -, -, -, -, both⟩ := operators_coherent v w
  exact ⟨rfl, rfl, by decide +kernel, forth, back, (both rfl rfl).mp ⟨forth, back⟩⟩

end Value

end Scriptlet
