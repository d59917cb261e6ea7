/-
  Engram.Scalar — the numbers the network computes with.

  Every definition of the network is written over an arbitrary `Scalar`, so that it can be
  run on doubles and reasoned about on exact numbers. The class asks for the operations that
  are used and for no law: comparisons are Boolean, so that a value which compares with
  nothing (a double that is not a number) is a `Scalar` value like any other.
-/

namespace Engram

/-- Numbers with the operations of a squashing network. -/
class Scalar (α : Type) extends Add α, Sub α, Mul α, Div α, Neg α, Zero α, One α, NatCast α where
  lt : α → α → Bool
  le : α → α → Bool
  /-- Whether two values are the same stored number, which tells `0` from `-0`. -/
  same : α → α → Bool
  sqrt : α → α
  exp : α → α
  log : α → α
  /-- The logarithm of one more than a number. -/
  logOnePlus : α → α
  tanh : α → α
  /-- The least positive value at full precision. -/
  tiny : α

/-- The logarithm of `1 + x`, exact to the last digits also where `1 + x` is rounded: the quotient
makes up for what rounding took away. -/
def logOnePlus (x : Float) : Float :=
  let y := 1.0 + x
  let kept := y - 1.0
  if kept == 0.0 then x else if kept == x then Float.log y else Float.log y * (x / kept)

instance : Scalar Float where
  zero := 0.0
  one := 1.0
  natCast := Float.ofNat
  lt a b := decide (a < b)
  le a b := decide (a ≤ b)
  same a b := a.toBits == b.toBits
  sqrt := Float.sqrt
  exp := Float.exp
  log := Float.log
  logOnePlus := logOnePlus
  tanh := Float.tanh
  tiny := Float.ofBits 0x0010000000000000

namespace Scalar

variable {α : Type} [Scalar α]

/-- `f 0 + f 1 + … + f (n - 1)`. -/
@[specialize] def sumBelow (n : Nat) (f : Nat → α) : α :=
  Nat.fold n (fun i _ acc => acc + f i) 0

/-- The larger of two values; a value that compares with nothing never wins. -/
def larger (a b : α) : α := if lt a b then b else a

/-- `y` moved into the interval from `lo` to `hi`. -/
def clamp (lo hi y : α) : α := if lt y lo then lo else if lt hi y then hi else y

@[simp] theorem sumBelow_zero (f : Nat → α) : sumBelow 0 f = 0 := rfl

@[simp] theorem sumBelow_succ (n : Nat) (f : Nat → α) : sumBelow (n + 1) f = sumBelow n f + f n := by
  simp [sumBelow, Nat.fold_succ]

end Scalar

end Engram
