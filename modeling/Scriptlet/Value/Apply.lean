import Scriptlet.Operator
import Scriptlet.Value

/-! # Operators on values

What operators make of operands that have been evaluated. The bitwise operators work
on 32 bits; how far they shift is taken modulo 32.
-/

namespace Scriptlet

/-- How far a shift goes. -/
def Value.shiftCount (v : Value) : Nat :=
  v.toBits32.toNat % 32

/-- The number of 32 bits, read with a sign. -/
def Value.ofBits32 (bits : BitVec 32) : Value :=
  .number (.ofInt bits.toInt)

/-- What an operator makes of two values. Strings are joined by `+`, whatever the
    other operand is. -/
def ArithOp.apply (op : ArithOp) (v w : Value) : Value :=
  match op with
  | .add =>
      match v, w with
      | .string s, w => .string (s ++ w.display)
      | v, .string t => .string (v.display ++ t)
      | v, w => .number (v.toNumber.add w.toNumber)
  | .sub => .number (v.toNumber.sub w.toNumber)
  | .mul => .number (v.toNumber.mul w.toNumber)
  | .div => .number (v.toNumber.div w.toNumber)
  | .rem => .number (v.toNumber.rem w.toNumber)
  | .shiftLeft => .ofBits32 (v.toBits32 <<< w.shiftCount)
  | .shiftRight => .ofBits32 (v.toBits32.sshiftRight w.shiftCount)
  | .shiftRightZero => .number (.ofInt (v.toBits32 >>> w.shiftCount).toNat)
  | .bitAnd => .ofBits32 (v.toBits32 &&& w.toBits32)
  | .bitXor => .ofBits32 (v.toBits32 ^^^ w.toBits32)
  | .bitOr => .ofBits32 (v.toBits32 ||| w.toBits32)

/-- Does a comparison hold? The two that ask for an object never have an answer,
    since no value is an object. -/
def RelOp.holds? (op : RelOp) (v w : Value) : Option Bool :=
  match op with
  | .lt => some (v.compare w == some .lt)
  | .gt => some (v.compare w == some .gt)
  | .le => some (v.compare w == some .lt || v.compare w == some .eq)
  | .ge => some (v.compare w == some .gt || v.compare w == some .eq)
  | .eq => some (v.looseEquals w)
  | .ne => some (!v.looseEquals w)
  | .strictEq => some (v.strictEquals w)
  | .strictNe => some (!v.strictEquals w)
  | .inside | .instanceOf => none

/-- What a step adds to a number. -/
def Step.delta : Step → Double
  | .increment => .ofInt 1
  | .decrement => .ofInt (-1)

end Scriptlet
