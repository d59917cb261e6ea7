/-
  Engram.Layer.Sylvester — the signs of the Sylvester–Hadamard matrix.

  Entry (i, j) is negative exactly when i and j have an odd number of binary ones in common.
  The columns of the matrix of size 2^k are orthogonal to each other.
-/

namespace Engram.Sylvester

/-- Whether a number has an odd number of binary ones. -/
def oddOnes (n : Nat) : Bool := if n = 0 then false else (n % 2 == 1) != oddOnes (n / 2)
termination_by n

/-- Whether entry (i, j) is negative. -/
def isNegative (i j : Nat) : Bool := oddOnes (i &&& j)

theorem isNegative_comm (i j : Nat) : isNegative i j = isNegative j i := by
  rw [isNegative, isNegative, Nat.and_comm]

@[simp] theorem isNegative_zero_left (j : Nat) : isNegative 0 j = false := by
  rw [isNegative, Nat.zero_and, oddOnes]; rfl

/-- Whether a number is a power of two. -/
def isPowerOfTwo (n : Nat) : Bool := n != 0 && Nat.pow 2 n.log2 == n

end Engram.Sylvester
