/-
  Engram.Association.Basic — connections between layers, and what they recall.

  A connection recalls an input pattern `x` as `squash (W x + b)`. A batch of associations is
  given by two matrices with one column for each pair; a column is missed when some unit of
  what is recalled is not on the side of the midpoint that it should be.
-/

import Engram.Linear.Matrix

namespace Engram

structure Connection (α : Type) where
  weights : Matrix α
  bias : Pattern α

/-- Patterns of one size side by side. -/
structure Columns (α : Type) where
  height : Nat
  patterns : List (Pattern α)

namespace Columns

def count {α : Type} (c : Columns α) : Nat := c.patterns.length

/-- One pattern. -/
def single {α : Type} (p : Pattern α) : Columns α := ⟨p.size, [p]⟩

end Columns

namespace Connection

variable {α : Type} [Scalar α]

def zero (height width : Nat) : Connection α := ⟨.zero height width, Pattern.zero height⟩

/-- What the connection adds to the input of its target. -/
def drive (c : Connection α) (x : Pattern α) : Pattern α := (c.weights.apply x).add c.bias

/-- What the connection makes of an input on its own. -/
def recalled (c : Connection α) (target : Activator α) (x : Pattern α) : Pattern α :=
  (c.drive x).map target.squash

/-- Whether some unit recalled for `x` is on the wrong side of the midpoint. -/
def misses (c : Connection α) (target : Activator α) (x y : Pattern α) : Bool :=
  ((c.recalled target x).zip y).any fun (r, t) => target.isOn r != target.isOn t

/-- How many inputs are missed, over the inputs. -/
def errors (c : Connection α) (target : Activator α) (x y : Columns α) : Nat :=
  (x.patterns.zip y.patterns).countP fun (u, v) => c.misses target u v

/-- `errors`, refused when the inputs do not have the width of the weights or outnumber the
targets. -/
def errors? (c : Connection α) (target : Activator α) (x y : Columns α) : Except Breach Nat :=
  if c.weights.width = x.height ∧ x.count ≤ y.count then .ok (c.errors target x y)
  else .error .dimensions

end Connection

end Engram
