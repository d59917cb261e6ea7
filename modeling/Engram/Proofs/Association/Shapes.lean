/-
  Engram.Proofs.Association.Shapes — the dimensions of what a flash leaves.

  A flash changes no dimension of a connection: the rows of coefficients are as many as the rows
  of the weights, whatever rule finds them. A connection that has a bias for each row keeps one,
  and recalls as many units as it has rows.
-/

import Engram.Association.Flash

namespace Engram

variable {α : Type} [Scalar α]

@[simp] theorem Pattern.size_add (x y : Pattern α) : (x.add y).size = min x.size y.size := by simp [add]

namespace Matrix

@[simp] theorem height_ofRows {h w : Nat} (rows : Array (Pattern α)) : (ofRows h w rows).height = h := rfl

@[simp] theorem width_ofRows {h w : Nat} (rows : Array (Pattern α)) : (ofRows h w rows).width = w := rfl

end Matrix

namespace Connection

/-- A bias for each row of the weights. -/
def Fits (c : Connection α) : Prop := c.bias.size = c.weights.height

theorem size_drive {c : Connection α} (hc : c.Fits) (x : Pattern α) : (c.drive x).size = c.weights.height := by
  rw [drive, Pattern.size_add, Matrix.size_apply, hc, Nat.min_self]

theorem size_recalled {c : Connection α} (hc : c.Fits) (a : Activator α) (x : Pattern α) :
    (c.recalled a x).size = c.weights.height := by
  rw [recalled, Array.size_map, size_drive hc]

theorem fits_zero (h w : Nat) : (Connection.zero h w : Connection α).Fits := by
  simp [Fits, Connection.zero, Pattern.zero]

end Connection

namespace Association

/-- The coefficients that a flash of a batch uses, one array for each row. -/
def solution (rule : Rule) (c : Connection α) (x y : Columns α) (source target : Activator α) : Array (Pattern α) :=
  let mid := source.midpoint
  let inputs := (x.patterns.map (extend mid)).toArray
  let rows := c.weights.rows.mapIdx fun i row => extendRow mid row (c.bias.entry i)
  let residuals := rows.zipWith (fun row goals =>
    goals.zipWith (fun goal input => target.inverse goal - row.dot input) inputs)
    (Matrix.transpose y.height y.patterns.toArray)
  (coefficients rule inputs residuals).1

section

variable (rule : Rule) (c : Connection α) (x y : Columns α) (source target : Activator α)

theorem flash_of_ne_nil (hx : x.patterns ≠ []) :
    (flash rule c x y source target).connection =
      let inputs := (x.patterns.map (extend source.midpoint)).toArray
      let rows := c.weights.rows.mapIdx fun i row => extendRow source.midpoint row (c.bias.entry i)
      let added := (solution rule c x y source target).map fun z =>
        (Matrix.transpose (c.weights.width + 1) inputs).map z.dot
      let reduced := (rows.zipWith Pattern.add added).map (reduceRow source.midpoint)
      ⟨Matrix.ofRows c.weights.height c.weights.width (reduced.map (·.1)), reduced.map (·.2)⟩ := by
  have : x.patterns.isEmpty = false := by simpa using hx
  simp only [flash, this, Bool.false_eq_true, if_false]
  rfl

@[simp] theorem height_flash : (flash rule c x y source target).connection.weights.height = c.weights.height := by
  by_cases hx : x.patterns = []
  · simp [flash, hx]
  · rw [flash_of_ne_nil _ _ _ _ _ _ hx]; rfl

@[simp] theorem width_flash : (flash rule c x y source target).connection.weights.width = c.weights.width := by
  by_cases hx : x.patterns = []
  · simp [flash, hx]
  · rw [flash_of_ne_nil _ _ _ _ _ _ hx]; rfl

/-- What a flash counts is what its connection misses. -/
theorem errors_flash (hx : x.patterns ≠ []) :
    (flash rule c x y source target).errors = (flash rule c x y source target).connection.errors target x y := by
  have : x.patterns.isEmpty = false := by simpa using hx
  simp only [flash, this, Bool.false_eq_true, if_false]

end

theorem size_coefficients (rule : Rule) (inputs residuals : Array (Pattern α)) :
    (coefficients rule inputs residuals).1.size = residuals.size := by
  cases rule with
  | hebbian => simp [coefficients]
  | rehebbian => simp only [coefficients]; split <;> simp

theorem size_solution {rule : Rule} {c : Connection α} {x y : Columns α} {source target : Activator α}
    (hy : y.height = c.weights.height) : (solution rule c x y source target).size = c.weights.height := by
  simp [solution, size_coefficients, Matrix.transpose, hy]

theorem fits_flash {rule : Rule} {c : Connection α} {x y : Columns α} {source target : Activator α}
    (hc : c.Fits) (hy : y.height = c.weights.height) : (flash rule c x y source target).connection.Fits := by
  by_cases hx : x.patterns = []
  · simpa [flash, hx] using hc
  · simp only [Connection.Fits, flash_of_ne_nil _ _ _ _ _ _ hx]
    simp [size_solution hy]

end Association

end Engram
