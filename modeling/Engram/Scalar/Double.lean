/-
  Engram.Scalar.Double — doubles with the sign of a value that is not a number.

  A stored double has a sign also when it is not a number. No operation shows it, but two such
  values with different signs are not the same stored number. An operation hands on the sign of
  its first operand that is not a number; a value that is not a number although all operands are
  has a minus sign.
-/

import Engram.Scalar

namespace Engram

structure Double where
  value : Float
  /-- The sign of a value that is not a number; of any other the value itself shows it. -/
  minus : Bool

namespace Double

/-- A number, or the value that is not a number with a plus sign. -/
def ofFloat (x : Float) : Double := ⟨x, false⟩

/-- The outcome of an operation on the given operands. -/
def outcome (operands : List Double) (value : Float) : Double :=
  match operands.find? (·.value.isNaN) with
  | some x => ⟨value, x.minus⟩
  | none => ⟨value, value.isNaN⟩

def unary (f : Float → Float) (x : Double) : Double := outcome [x] (f x.value)

def binary (f : Float → Float → Float) (x y : Double) : Double := outcome [x, y] (f x.value y.value)

/-- Whether two doubles are the same stored number. -/
def same (x y : Double) : Bool :=
  x.value.toBits == y.value.toBits && (!x.value.isNaN || x.minus == y.minus)

instance : Scalar Double where
  zero := ofFloat 0.0
  one := ofFloat 1.0
  natCast n := ofFloat (Float.ofNat n)
  add := binary (· + ·)
  sub := binary (· - ·)
  mul := binary (· * ·)
  div := binary (· / ·)
  neg x := ⟨-x.value, !x.minus⟩
  lt x y := decide (x.value < y.value)
  le x y := decide (x.value ≤ y.value)
  same := same
  sqrt := unary Float.sqrt
  exp := unary Float.exp
  log := unary Float.log
  logOnePlus := unary logOnePlus
  tanh := unary Float.tanh
  tiny := ofFloat Scalar.tiny

end Double

end Engram
