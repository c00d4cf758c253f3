import Scriptlet.Decimal.Layout
import Scriptlet.Numeral
import Scriptlet.Text.Quoted

/-! # Values

What expressions compute, and how values turn into numbers, truth values and text.
-/

namespace Scriptlet

/-- The value of an expression. -/
inductive Value where
  | undefined
  | null
  | bool (b : Bool)
  | number (x : Double)
  | string (text : String)
  deriving Repr, DecidableEq, Inhabited

namespace Value

/-- Does a condition with this value hold? -/
def isTruthy : Value → Bool
  | undefined | null => false
  | bool b => b
  | number x => !(x.isNaN || x.isZero)
  | string text => !text.isEmpty

/-- Is the value missing? -/
def isNullish : Value → Bool
  | undefined | null => true
  | _ => false

/-- The number that a value stands for. -/
def toNumber : Value → Double
  | undefined => .nan
  | null => .zero
  | bool b => .ofInt (if b then 1 else 0)
  | number x => x
  | string text => Numeral.ofText text.toList

/-- The number modulo `2 ^ 32`, as the bitwise operators see it. -/
def toBits32 (v : Value) : BitVec 32 :=
  v.toNumber.toBits32

/-- What `typeof` answers. -/
def typeName : Value → String
  | undefined => "undefined"
  | null => "object"
  | bool _ => "boolean"
  | number _ => "number"
  | string _ => "string"

/-- The text that a value turns into. -/
def display : Value → String
  | undefined => "undefined"
  | null => "null"
  | bool b => if b then "true" else "false"
  | number x => Layout.display.write x
  | string text => text

/-- The text that shows a result: strings stand in quotes. -/
def inspect : Value → String
  | string text => Text.Quoted.quote text
  | v => v.display

/-- Same type and same value. -/
def strictEquals : Value → Value → Bool
  | undefined, undefined => true
  | null, null => true
  | bool a, bool b => a == b
  | number x, number y => x.equals y
  | string s, string t => s == t
  | _, _ => false

/-- Missing values equal each other and nothing else; values of different types are
    compared as numbers. -/
def looseEquals (v w : Value) : Bool :=
  if v.isNullish || w.isNullish then v.isNullish && w.isNullish
  else
    match v, w with
    | string s, string t => s == t
    | bool a, bool b => a == b
    | v, w => v.toNumber.equals w.toNumber

/-- Strings are ordered by their characters, everything else as numbers. -/
def compare : Value → Value → Option Ordering
  | string s, string t => some (Ord.compare s t)
  | v, w => v.toNumber.compare w.toNumber

end Value

/-- The names with a fixed meaning. -/
def reserved? (name : String) : Option Value :=
  if name = "null" then some .null
  else if name = "undefined" then some .undefined
  else if name = "true" then some (.bool true)
  else if name = "false" then some (.bool false)
  else none

/-- Can this name never be bound? -/
def isReserved (name : String) : Bool :=
  (reserved? name).isSome

end Scriptlet
