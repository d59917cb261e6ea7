/-
  Engram.Linear.Cholesky — solving a symmetric positive system by its Cholesky factor.

  A symmetric matrix is given by its lower triangle: row `i` has the entries up to and with the
  diagonal. Its factor is a lower triangle `L` in the same form with `L Lᵀ` the matrix; it is
  built row by row and exists when every pivot is positive. A system is solved by forward
  substitution in `L` and backward substitution in `Lᵀ`, which is forward substitution in `L`
  turned by half a revolution.
-/

import Engram.Linear.Matrix

namespace Engram.Cholesky

variable {α : Type} [Scalar α]

/-- The lower triangle of a symmetric matrix, or a lower triangular matrix. -/
abbrev Triangle (α : Type) := Array (Pattern α)

/-- Entry (i, j) on or below the diagonal. -/
@[inline] def entryAt (t : Triangle α) (i j : Nat) : α := (t.getD i #[]).entry j

/-- One row of the factor left of the diagonal, from the rows above it. -/
def leftEntries (above : Triangle α) (row : Pattern α) : Pattern α :=
  above.foldl (fun done upper =>
    let j := done.size
    done.push ((row.entry j - Scalar.sumBelow j fun k => done.entry k * upper.entry k) / upper.entry j))
    #[]

/-- One row of the factor of the matrix with `ridge` added to its diagonal; nothing if the pivot
is not positive. -/
def factorRow? (ridge : α) (above : Triangle α) (row : Pattern α) : Option (Pattern α) :=
  let left := leftEntries above row
  let pivot := row.entry left.size + ridge - left.dot left
  if Scalar.lt 0 pivot then some (left.push (Scalar.sqrt pivot)) else none

/-- The factor of the matrix with `ridge` added to its diagonal. -/
def factor? (ridge : α) (matrix : Triangle α) : Option (Triangle α) :=
  matrix.foldlM (fun above row => (factorRow? ridge above row).map above.push) #[]

/-- The solution of `L x = b`. -/
def forward (l : Triangle α) (b : Pattern α) : Pattern α :=
  l.foldl (fun x row =>
    let i := x.size
    x.push ((b.entry i - Scalar.sumBelow i fun k => row.entry k * x.entry k) / row.entry i)) #[]

/-- The triangle turned by half a revolution: row and column numbers count from the other end,
and rows become columns. -/
def turned (l : Triangle α) : Triangle α :=
  let n := l.size
  Array.ofFn fun (i : Fin n) => Array.ofFn fun (j : Fin (i + 1)) => entryAt l (n - 1 - j) (n - 1 - i)

/-- The solution of `L Lᵀ x = b`, given `L` turned as well. -/
def solve (l turnedL : Triangle α) (b : Pattern α) : Pattern α :=
  (forward turnedL (forward l b).reverse).reverse

end Engram.Cholesky
