import Scriptlet.Eval
import Scriptlet.Proofs.Double

/-! # Bitwise operators

The bitwise operators see the whole part of a number modulo `2 ^ 32`, and what they give is a
number that holds the 32 bits of their result.
-/

namespace Scriptlet

open Double

namespace Value

/-- The value shows these 32 bits, and it is exactly the number that they stand for with a
    sign. -/
structure Holds32 (v : Value) (bits : BitVec 32) : Prop where
  shows : v.toBits32 = bits
  exact : v.toNumber.toRat? = some (bits.toInt : ℚ)

theorem holds32_ofBits32 (bits : BitVec 32) : (ofBits32 bits).Holds32 bits where
  shows := toBits32_ofInt_toInt bits
  exact := toRat?_ofInt_toInt bits

theorem shiftCount_lt (v : Value) : v.shiftCount < 32 :=
  Nat.mod_lt _ (by decide)

/-- With zeros shifted in, 32 bits stand for a number without a sign. -/
theorem toRat?_shiftRightZero (v w : Value) :
    (ArithOp.shiftRightZero.apply v w).toNumber.toRat? =
      some ((v.toBits32.toNat >>> w.shiftCount : ℕ) : ℚ) := by
  have small := (v.toBits32 >>> w.shiftCount).isLt
  have value : (ofInt (v.toBits32 >>> w.shiftCount).toNat).toRat? = _ :=
    toRat?_ofInt (by rw [Int.natAbs_natCast, binade_eq]; omega)
  rw [BitVec.toNat_ushiftRight, Int.cast_natCast] at value
  exact value

/-- Two complements leave the 32 bits, and so does a zero joined to them. -/
theorem complement_complement (v : Value) :
    Node.applyUnary .complement (Node.applyUnary .complement v) =
      ArithOp.bitOr.apply v (number .zero) := by
  have inner : (Node.applyUnary .complement v).toBits32 = ~~~v.toBits32 :=
    (holds32_ofBits32 _).shows
  have nothing : (number .zero).toBits32 = 0#32 := by decide +kernel
  rw [Node.applyUnary, inner, ArithOp.apply, nothing, BitVec.not_not, BitVec.or_zero]

/-- The 32 bits of a value are those of the whole part of its number, or zeros if it has none. On
    the way to them the number is brought exactly into the range of 32 bits. What a bitwise
    operator gives is exactly the number of the 32 bits that it computes, with a sign but for
    `>>>`, and no shift goes as far as 32 places. -/
theorem bitwise_exact (v w : Value) :
    (∀ q, v.toNumber.toRat? = some q →
      (v.toNumber.truncate.remEuclid modulus32).toRat? = some ((wholePart q % 2 ^ 32 : ℤ) : ℚ) ∧
      (v.toBits32.toNat : ℤ) = wholePart q % 2 ^ 32 ∧
      v.toBits32.toInt = (wholePart q).bmod (2 ^ 32)) ∧
    (v.toNumber.toRat? = none → v.toBits32 = 0) ∧
    (ArithOp.bitAnd.apply v w).Holds32 (v.toBits32 &&& w.toBits32) ∧
    (ArithOp.bitOr.apply v w).Holds32 (v.toBits32 ||| w.toBits32) ∧
    (ArithOp.bitXor.apply v w).Holds32 (v.toBits32 ^^^ w.toBits32) ∧
    (Node.applyUnary .complement v).Holds32 (~~~v.toBits32) ∧
    w.toBits32.toNat % 32 < 32 ∧
    (ArithOp.shiftLeft.apply v w).Holds32 (v.toBits32 <<< (w.toBits32.toNat % 32)) ∧
    (ArithOp.shiftRight.apply v w).Holds32 (v.toBits32.sshiftRight (w.toBits32.toNat % 32)) ∧
    (ArithOp.shiftRightZero.apply v w).toNumber.toRat? =
      some ((v.toBits32.toNat >>> (w.toBits32.toNat % 32) : ℕ) : ℚ) ∧
    v.toBits32.toNat >>> (w.toBits32.toNat % 32) < 2 ^ 32 ∧
    Node.applyUnary .complement (Node.applyUnary .complement v) =
      ArithOp.bitOr.apply v (number .zero) := by
  refine ⟨?_, toBits32_of_none, holds32_ofBits32 _, holds32_ofBits32 _, holds32_ofBits32 _,
    holds32_ofBits32 _, shiftCount_lt w, holds32_ofBits32 _, holds32_ofBits32 _,
    toRat?_shiftRightZero v w, ?_, complement_complement v⟩
  · intro q value
    have unsigned : (v.toBits32.toNat : ℤ) = wholePart q % 2 ^ 32 := toNat_toBits32 value
    refine ⟨toRat?_remEuclid_modulus32 value, unsigned, ?_⟩
    rw [BitVec.toInt_eq_toNat_bmod, unsigned]
    exact Int.emod_bmod (wholePart q) (2 ^ 32)
  · rw [Nat.shiftRight_eq_div_pow]
    exact Nat.lt_of_le_of_lt (Nat.div_le_self _ _) v.toBits32.isLt

/-- A negative number with a fraction, and infinity. -/
theorem bitwise_exact_fraction :
    let v := number ((ofInt (-7)).div (ofInt 2))
    let w := string " -Infinity "
    v.toNumber.toRat? = some (-7 / 2) ∧ v.toBits32.toInt = -3 ∧
      w.toNumber.toRat? = none ∧ w.toBits32 = 0 := by
  intro v w
  have half : v.toNumber.toRat? = some (-7 / 2) := by decide +kernel
  have whole : (wholePart (-7 / 2)).bmod (2 ^ 32) = -3 := by decide +kernel
  have infinite : w.toNumber.toRat? = none := by decide +kernel
  exact ⟨half, ((bitwise_exact v w).1 _ half).2.2.trans whole, infinite,
    (bitwise_exact w v).2.1 infinite⟩

end Value

end Scriptlet
