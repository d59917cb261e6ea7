/-
  Engram.Association.Pairs — the associations of one pathway, gathered over time.

  A pathway's weights are always written from zero over every association gathered so far. An
  input that is stored already, the same number in every unit, gets the new target in place.
-/

import Engram.Association.Flash

namespace Engram

structure Pairs (α : Type) where
  targetSize : Nat
  sourceSize : Nat
  /-- Inputs with their targets, in the order in which the inputs were first stored. -/
  pairs : List (Pattern α × Pattern α)

namespace Pairs

variable {α : Type} [Scalar α]

def empty (targetSize sourceSize : Nat) : Pairs α := ⟨targetSize, sourceSize, []⟩

/-- Whether two patterns hold the same numbers. -/
def samePattern (x y : Pattern α) : Bool := x.size == y.size && (x.zip y).all fun (a, b) => Scalar.same a b

/-- Stores the target of an input. -/
def store (x y : Pattern α) : List (Pattern α × Pattern α) → List (Pattern α × Pattern α)
  | [] => [(x, y)]
  | pair :: rest => if samePattern pair.1 x then (pair.1, y) :: rest else pair :: store x y rest

/-- Stores the associations of each column of `x` with the same column of `y`. -/
def add? (s : Pairs α) (x y : Columns α) : Except Breach (Pairs α) :=
  if x.height = s.sourceSize ∧ y.height = s.targetSize ∧ x.count = y.count then
    .ok { s with pairs := (x.patterns.zip y.patterns).foldl (fun ps p => store p.1 p.2 ps) s.pairs }
  else .error .dimensions

/-- The associations with every number replaced. -/
def map {β : Type} (f : α → β) (s : Pairs α) : Pairs β :=
  ⟨s.targetSize, s.sourceSize, s.pairs.map fun (x, y) => (x.map f, y.map f)⟩

def count (s : Pairs α) : Nat := s.pairs.length

def inputs (s : Pairs α) : Columns α := ⟨s.sourceSize, s.pairs.map (·.1)⟩

def targets (s : Pairs α) : Columns α := ⟨s.targetSize, s.pairs.map (·.2)⟩

/-- The connection that realizes every association, written from zero. -/
def flash (s : Pairs α) (rule : Rule) (source target : Activator α) : Noted (Flash α) := do
  let f := Association.flash rule (.zero s.targetSize s.sourceSize) s.inputs s.targets source target
  f.note s.count
  return f

/-- `flash`, refused when a target has to be pulled back and the levels are out of order. -/
def flash? (s : Pairs α) (rule : Rule) (source target : Activator α) : Except Breach (Flash α) :=
  Association.flash? rule (.zero s.targetSize s.sourceSize) s.inputs s.targets source target

end Pairs

end Engram
