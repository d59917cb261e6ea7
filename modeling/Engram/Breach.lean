/-
  Engram.Breach — preconditions on the shape of vectors and on saturation levels.

  Operations on whole patterns ask that dimensions fit together and that saturation levels are
  in order. A caller that cannot promise this uses the operation that checks, and gets the
  precondition that failed; a network built from a valid configuration never does.
-/

namespace Engram

/-- A precondition of an operation on vectors that its arguments do not meet. -/
inductive Breach where
  /-- The dimensions of the arguments do not fit together. -/
  | dimensions
  /-- The `off` level does not compare below the `on` level. -/
  | levels
  deriving DecidableEq, Repr

end Engram
