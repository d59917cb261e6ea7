/-
  Engram.Layer.Activator — saturation levels and squashing function of a layer.

  A unit of a stored pattern sits at one of two levels, `on` and `off`, both kept `pad` away
  from the asymptotes of the squashing function:

    tanh       on = 1 - pad   off = -(1 - pad)   midpoint = 0
    logistic   on = 1 - pad   off = pad          midpoint = 1/2

  so that the inverse of the squashing function is finite on the band between them. A layer
  that does not forget feeds itself through an identity pathway of slope `gain`; `hold` is one
  tick of that pathway, and it fixes the two levels.

  The inverse moves its argument into the band first. That needs the levels in order, which
  every pad below a half gives; the operations marked `?` refuse levels that are not.
-/

import Engram.Scalar
import Engram.Breach

namespace Engram

/-- Family of squashing functions. -/
inductive Squashing where
  | tanh
  | logistic
  deriving DecidableEq, Repr

namespace Squashing

def name : Squashing → String
  | tanh => "tanh"
  | logistic => "logistic"

def ofName? : String → Option Squashing
  | "tanh" => some tanh
  | "logistic" => some logistic
  | _ => none

theorem ofName?_name (s : Squashing) : ofName? s.name = some s := by cases s <;> rfl

end Squashing

/-- A squashing function and the distance of its saturation levels from the asymptotes. -/
structure Activator (α : Type) where
  kind : Squashing
  pad : α

/-- Activity of the units of one layer. -/
abbrev Pattern (α : Type) := Array α

/-- Which units of a layer are on. -/
abbrev Bits := List Bool

namespace Activator

variable {α : Type} [Scalar α]

def standard : Activator α := ⟨.tanh, 1 / ((1000 : Nat) : α)⟩

def on (a : Activator α) : α := 1 - a.pad

def off (a : Activator α) : α :=
  match a.kind with
  | .tanh => -(1 - a.pad)
  | .logistic => a.pad

/-- The threshold between the two levels. -/
def midpoint (a : Activator α) : α := (a.on + a.off) / ((2 : Nat) : α)

/-- The level that stands for a bit. -/
def level (a : Activator α) (bit : Bool) : α := if bit then a.on else a.off

def isOn (a : Activator α) (y : α) : Bool := Scalar.lt a.midpoint y

/-- The bits of a pattern: which units are above the midpoint. -/
def bits (a : Activator α) (p : Pattern α) : Bits := p.toList.map a.isOn

/-- The pattern at the saturation levels with the given bits. -/
def pattern (a : Activator α) (b : Bits) : Pattern α := (b.map a.level).toArray

def squash (a : Activator α) (x : α) : α :=
  match a.kind with
  | .tanh => Scalar.tanh x
  | .logistic => 1 / (1 + Scalar.exp (-x))

/-- The argument that `squash` takes to `y`, for `y` moved into the band. -/
def inverse (a : Activator α) (y : α) : α :=
  let y := Scalar.clamp a.off a.on y
  match a.kind with
  | .tanh => Scalar.logOnePlus (((2 : Nat) : α) * y / (1 - y)) / ((2 : Nat) : α)
  | .logistic => Scalar.log (y / (1 - y))

/-- The rise of `inverse` per unit of activity, from the `off` to the `on` level. -/
def gain (a : Activator α) : α := (a.inverse a.on - a.inverse a.off) / (a.on - a.off)

/-- What the identity self-pathway adds to the input of a unit at `y`. -/
def recurrent (a : Activator α) (y : α) : α :=
  a.inverse a.midpoint + a.gain * (y - a.midpoint)

/-- One tick of retention without any other input. -/
def hold (a : Activator α) (y : α) : α := a.squash (a.recurrent y)

/-- The activities after each of `n` ticks of retention. -/
def holds (a : Activator α) (y : α) : Nat → List α
  | 0 => []
  | n + 1 => a.hold y :: a.holds (a.hold y) n

/-- Whether the levels are in order, as the inverse needs them. -/
def ordered (a : Activator α) : Bool := Scalar.le a.off a.on

/-- A result that the inverse was needed for, refused when the levels are out of order. -/
def guarded {β : Type} (a : Activator α) (result : β) : Except Breach β :=
  if a.ordered then .ok result else .error .levels

def inverse? (a : Activator α) (y : α) : Except Breach α := a.guarded (a.inverse y)

def gain? (a : Activator α) : Except Breach α := a.guarded a.gain

def recurrent? (a : Activator α) (y : α) : Except Breach α := a.guarded (a.recurrent y)

def hold? (a : Activator α) (y : α) : Except Breach α := a.guarded (a.hold y)

def holds? (a : Activator α) (y : α) : Nat → Except Breach (List α)
  | 0 => .ok []
  | n + 1 => a.guarded (a.holds y (n + 1))

@[simp] theorem bits_length (a : Activator α) (p : Pattern α) : (a.bits p).length = p.size := by
  simp [bits]

@[simp] theorem size_pattern (a : Activator α) (b : Bits) : (a.pattern b).size = b.length := by
  simp [pattern]

@[simp] theorem length_holds (a : Activator α) (y : α) (n : Nat) : (a.holds y n).length = n := by
  induction n generalizing y with
  | zero => rfl
  | succ n ih => simp [holds, ih]

end Activator

end Engram
