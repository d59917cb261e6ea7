/-
  Engram.Linear.Matrix — vectors, and matrices as their entries row by row.

  An entry outside a vector is zero, so every operation is total; where dimensions have to fit
  it is the caller who says so. A matrix keeps both of its dimensions beside its entries, since
  one without entries has dimensions too, and they may be large.
-/

import Engram.Scalar
import Engram.Layer.Activator

namespace Engram

structure Matrix (α : Type) where
  height : Nat
  width : Nat
  /-- The entries of the first row, then those of the second, and so on. -/
  entries : Array α
  size_entries : entries.size = height * width

section

variable {α : Type} [Scalar α]

/-- Entry `i` of a vector. -/
@[inline] def Pattern.entry (x : Pattern α) (i : Nat) : α := x.getD i 0

/-- The inner product of two vectors, as far as both reach. -/
def Pattern.dot (x y : Pattern α) : α :=
  Scalar.sumBelow (min x.size y.size) fun i => x.entry i * y.entry i

/-- The sum of the entries of a vector. -/
def Pattern.sum (x : Pattern α) : α := Scalar.sumBelow x.size fun i => x.entry i

def Pattern.add (x y : Pattern α) : Pattern α := x.zipWith (· + ·) y

def Pattern.zero (n : Nat) : Pattern α := Array.replicate n 0

namespace Matrix

/-- The matrix with one value everywhere. -/
def constant (height width : Nat) (value : α) : Matrix α :=
  ⟨height, width, Array.replicate (height * width) value, Array.size_replicate⟩

def zero (height width : Nat) : Matrix α := constant height width 0

/-- The matrix of the given dimensions with the given rows. -/
def ofRows (height width : Nat) (rows : Array (Pattern α)) : Matrix α :=
  ⟨height, width, Array.ofFn fun (i : Fin (height * width)) => (rows.getD (i / width) #[]).entry (i % width),
    Array.size_ofFn⟩

/-- The entry in row `i` and column `j`. -/
@[inline] def entry (w : Matrix α) (i j : Nat) : α := w.entries.getD (i * w.width + j) 0

/-- Row `i`. -/
def row (w : Matrix α) (i : Nat) : Pattern α := w.entries.extract (i * w.width) ((i + 1) * w.width)

def rows (w : Matrix α) : Array (Pattern α) := Array.ofFn fun (i : Fin w.height) => w.row i

/-- The product with a vector. -/
def apply (w : Matrix α) (x : Pattern α) : Pattern α :=
  Array.ofFn fun (i : Fin w.height) =>
    Scalar.sumBelow (min w.width x.size) fun j => w.entry i j * x.entry j

/-- The columns from `start` on, `count` of them. -/
def slice (w : Matrix α) (start count : Nat) : Matrix α :=
  ofRows w.height count (w.rows.map fun r => r.extract start (start + count))

/-- Rows from columns of the given size: row `i` holds entry `i` of every column. -/
def transpose (size : Nat) (columns : Array (Pattern α)) : Array (Pattern α) :=
  Array.ofFn fun (i : Fin size) => columns.map (·.entry i)

@[simp] theorem size_apply (w : Matrix α) (x : Pattern α) : (w.apply x).size = w.height := by
  simp [apply]

@[simp] theorem size_rows {β : Type} (w : Matrix β) : w.rows.size = w.height := by simp [rows]

@[simp] theorem height_zero (m n : Nat) : (zero m n : Matrix α).height = m := rfl

@[simp] theorem width_zero (m n : Nat) : (zero m n : Matrix α).width = n := rfl

end Matrix

end

end Engram
