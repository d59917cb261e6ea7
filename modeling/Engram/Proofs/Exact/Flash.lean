/-
  Engram.Proofs.Exact.Flash — what a flash adds to what a connection produces.

  On inputs around the midpoint with the constant unit, a row of weights and its bias act as one
  row. A flash adds to each row a combination of its inputs, so what row i produces for any
  input y grows by the combination of the overlaps of y with the inputs (`out_flash`):

    out i y + Σ z_ip ⟨x_p, y⟩

  where the overlap of two inputs is their product around the midpoint plus one for the constant
  unit. The rules differ in the coefficients z only.
-/

import Engram.Proofs.Exact.Activator
import Engram.Proofs.Exact.Entries
import Engram.Proofs.Association.Shapes

namespace Engram

open Finset Pattern

namespace Connection

/-- What row `i` produces for an input. -/
noncomputable def out (c : Connection ℝ) (i : Nat) (x : Pattern ℝ) : ℝ :=
  ∑ j ∈ range c.weights.width, c.weights.entry i j * x.entry j + c.bias.entry i

theorem entry_drive {c : Connection ℝ} (hc : c.Fits) {x : Pattern ℝ} (hx : x.size = c.weights.width) {i : Nat}
    (hi : i < c.weights.height) : (c.drive x).entry i = c.out i x := by
  rw [drive, entry_add (by simpa using hi) (by rw [hc]; exact hi), Matrix.entry_apply hx hi]
  rfl

/-- The bits that are recalled, row by row. -/
theorem bits_recalled {c : Connection ℝ} (hc : c.Fits) {x : Pattern ℝ} (hx : x.size = c.weights.width)
    (a : Activator ℝ) :
    a.bits (c.recalled a x) = (List.range c.weights.height).map fun i => a.isOn (a.squash (c.out i x)) := by
  apply List.ext_getElem
  · simp [recalled, Activator.bits, size_drive hc]
  · intro i h₁ h₂
    have hi : i < c.weights.height := by simpa using h₂
    have hs : i < (c.drive x).size := by rw [size_drive hc]; exact hi
    simp only [Activator.bits, recalled, List.getElem_map, Array.getElem_toList, Array.getElem_map,
      List.getElem_range]
    rw [← entry_of_lt hs, entry_drive hc hx hi]

theorem out_zero (h w i : Nat) (x : Pattern ℝ) : (Connection.zero h w : Connection ℝ).out i x = 0 := by
  simp [out, Connection.zero, Matrix.entry_zero, Pattern.zero, entry_replicate]

end Connection

namespace Association

variable {mid : ℝ}

/-- The product of two inputs around the midpoint, with the constant unit. -/
noncomputable def overlap (mid : ℝ) (x y : Pattern ℝ) : ℝ := (extend mid x).dot (extend mid y)

@[simp] theorem size_extend (mid : ℝ) (x : Pattern ℝ) : (extend mid x).size = x.size + 1 := by simp [extend]

theorem overlap_eq {x y : Pattern ℝ} (h : x.size = y.size) :
    overlap mid x y = ∑ j ∈ range x.size, (x.entry j - mid) * (y.entry j - mid) + 1 := by
  unfold overlap extend
  rw [dot_push (by simpa using h), dot_eq (by simpa using h), one_mul, Array.size_map]
  congr 1
  apply sum_congr rfl
  intro j hj
  rw [mem_range] at hj
  rw [entry_map _ hj, entry_map _ (h ▸ hj)]

theorem overlap_comm {x y : Pattern ℝ} (h : x.size = y.size) : overlap mid x y = overlap mid y x :=
  dot_comm (by simp [h])

theorem one_le_overlap_self (x : Pattern ℝ) : 1 ≤ overlap mid x x := by
  rw [overlap_eq rfl]
  have : 0 ≤ ∑ j ∈ range x.size, (x.entry j - mid) * (x.entry j - mid) :=
    sum_nonneg fun j _ => mul_self_nonneg _
  linarith

/-- An extended row acts on an extended input as the row with its bias acts on the input. -/
theorem dot_extendRow {row x : Pattern ℝ} (h : row.size = x.size) (b : ℝ) :
    (extendRow mid row b).dot (extend mid x) = ∑ j ∈ range row.size, row.entry j * x.entry j + b := by
  unfold extendRow extend
  rw [dot_push (by simpa using h), dot_eq (by simpa using h), sum_eq]
  have : ∀ j ∈ range row.size, row.entry j * entry (x.map (· - mid)) j = row.entry j * x.entry j - row.entry j * mid := by
    intro j hj
    rw [entry_map _ (by rw [← h]; exact mem_range.mp hj)]
    ring
  rw [sum_congr rfl this, sum_sub_distrib, ← sum_mul]
  ring

theorem reduceRow_push (mid : ℝ) (r : Pattern ℝ) (v : ℝ) :
    reduceRow mid (r.push v) = (r, v - (∑ j ∈ range r.size, r.entry j) * mid) := by
  unfold reduceRow
  rw [Array.size_push, Nat.add_sub_cancel, entry_push_size, Array.pop_push, array_sum_eq]

/-- Taking the bias out of an extended row changes nothing in what it produces. -/
theorem reduceRow_out {row x : Pattern ℝ} (h : row.size = x.size + 1) :
    ∑ j ∈ range x.size, (reduceRow mid row).1.entry j * x.entry j + (reduceRow mid row).2 =
      row.dot (extend mid x) := by
  obtain ⟨r, v, rfl⟩ : ∃ (r : Pattern ℝ) (v : ℝ), row = r.push v :=
    Array.eq_push_of_size_ne_zero (by omega)
  have hr : r.size = x.size := by simpa using h
  unfold extend
  rw [reduceRow_push, dot_push (by simpa using hr), dot_eq (by simpa using hr), hr]
  have : ∀ j ∈ range x.size, r.entry j * entry (x.map (· - mid)) j = r.entry j * x.entry j - r.entry j * mid := by
    intro j hj
    rw [entry_map _ (mem_range.mp hj)]
    ring
  rw [sum_congr rfl this, sum_sub_distrib, ← sum_mul]
  ring

/-- The combination of inputs that coefficients stand for acts as the combination of overlaps. -/
theorem dot_combination {n : Nat} {inputs : Array (Pattern ℝ)} {z u : Pattern ℝ}
    (hz : z.size = inputs.size) (hu : u.size = n) (hi : ∀ x ∈ inputs, x.size = n) :
    Pattern.dot ((Matrix.transpose n inputs).map z.dot) u =
      ∑ p ∈ range inputs.size, z.entry p * (inputs.getD p #[]).dot u := by
  have hsize : ((Matrix.transpose n inputs).map z.dot).size = n := by simp [Matrix.transpose]
  rw [dot_eq (by rw [hsize, hu]), hsize]
  have hcol : ∀ j ∈ range n, entry ((Matrix.transpose n inputs).map z.dot) j * u.entry j =
      ∑ p ∈ range inputs.size, z.entry p * ((inputs.getD p #[]).entry j * u.entry j) := by
    intro j hj
    rw [mem_range] at hj
    rw [entry_of_lt (by rw [hsize]; exact hj)]
    simp only [Matrix.transpose, Array.getElem_map, Array.getElem_ofFn]
    rw [dot_eq (by simpa using hz), hz, sum_mul]
    apply sum_congr rfl
    intro p hp
    rw [mem_range] at hp
    rw [entry_of_lt (x := inputs.map _) (by simpa using hp), Array.getElem_map, mul_assoc]
    simp [Array.getD, hp]
  rw [sum_congr rfl hcol, sum_comm]
  apply sum_congr rfl
  intro p hp
  rw [mem_range] at hp
  have hx : (inputs.getD p #[]).size = n := by
    simp only [Array.getD, hp, dite_true]
    exact hi _ (Array.getElem_mem hp)
  rw [dot_eq (by rw [hx, hu]), hx, mul_sum]

/-- What a row produces after a flash: what it did before, and a combination of overlaps with the
inputs of the batch. -/
theorem out_flash {rule : Rule} {c : Connection ℝ} {x y : Columns ℝ} {source target : Activator ℝ}
    (hne : x.patterns ≠ []) (hy : y.height = c.weights.height)
    (hin : ∀ u ∈ x.patterns, u.size = c.weights.width)
    (hz : ∀ z ∈ solution rule c x y source target, z.size = x.count)
    {i : Nat} (hi : i < c.weights.height) {u : Pattern ℝ} (hu : u.size = c.weights.width) :
    (flash rule c x y source target).connection.out i u = c.out i u +
      ∑ p ∈ range x.count, ((solution rule c x y source target).getD i #[]).entry p *
        overlap source.midpoint (x.patterns.getD p #[]) u := by
  set mid := source.midpoint with hmid
  set inputs := (x.patterns.map (extend mid)).toArray with hinputs
  set zs := solution rule c x y source target with hzs
  have hisize : inputs.size = x.count := by simp [hinputs, Columns.count]
  have hzi : i < zs.size := by rw [size_solution hy]; exact hi
  have hzsize : (zs.getD i #[]).size = inputs.size := by
    rw [hisize, Array.getD, dif_pos hzi]
    exact hz _ (Array.getElem_mem hzi)
  have hinsize : ∀ v ∈ inputs, v.size = c.weights.width + 1 := by
    intro v hv
    simp only [hinputs, List.mem_toArray, List.mem_map] at hv
    obtain ⟨w, hw, rfl⟩ := hv
    rw [size_extend, hin w hw]
  -- the extended row before the flash, what is added to it, and their sum
  let old : Pattern ℝ := extendRow mid (c.weights.row i) (c.bias.entry i)
  let added : Pattern ℝ := (Matrix.transpose (c.weights.width + 1) inputs).map (zs.getD i #[]).dot
  have hold : old.size = u.size + 1 := by simp [old, extendRow, Matrix.size_row hi, hu]
  have hadded : added.size = u.size + 1 := by simp [added, Matrix.transpose, hu]
  have hsum : (old.add added).size = u.size + 1 := by rw [size_add, hold, hadded, min_self]
  have hrow : (flash rule c x y source target).connection.out i u =
      (old.add added).dot (extend mid u) := by
    rw [← reduceRow_out hsum, Connection.out, width_flash, ← hu]
    -- all rows, with the bias taken out again
    let reduced := ((c.weights.rows.mapIdx fun i row => extendRow mid row (c.bias.entry i)).zipWith Pattern.add
      (zs.map fun z => (Matrix.transpose (c.weights.width + 1) inputs).map z.dot)).map (reduceRow mid)
    have hlt : i < reduced.size := by simpa [reduced] using ⟨hi, hzi⟩
    have hget : reduced[i] = reduceRow mid (old.add added) := by
      simp [reduced, old, added, Matrix.rows, Array.getD, hzi]
    congr 1
    · apply sum_congr rfl
      intro j hj
      rw [mem_range, hu] at hj
      rw [flash_of_ne_nil _ _ _ _ _ _ hne]
      simp only
      rw [Matrix.entry_ofRows _ hi hj, Array.getD, dif_pos (by simpa [reduced] using hlt), ← hget]
      simp [reduced, hinputs, hmid, hzs]
    · rw [flash_of_ne_nil _ _ _ _ _ _ hne]
      simp only
      rw [entry_of_lt (by simpa [reduced] using hlt), ← hget]
      simp [reduced, hinputs, hmid, hzs]
  have hsplit : (old.add added).dot (extend mid u) = old.dot (extend mid u) + added.dot (extend mid u) := by
    rw [dot_eq (by rw [hsum, size_extend]), dot_eq (by rw [hold, size_extend]), dot_eq (by rw [hadded, size_extend]),
      hsum, hold, hadded, ← sum_add_distrib]
    apply sum_congr rfl
    intro j hj
    rw [mem_range] at hj
    rw [entry_add (by omega) (by omega), add_mul]
  rw [hrow, hsplit]
  congr 1
  · rw [dot_extendRow (by rw [Matrix.size_row hi, hu]), Matrix.size_row hi, Connection.out]
    congr 1
    apply sum_congr rfl
    intro j hj
    rw [Matrix.entry_row hi (mem_range.mp hj)]
  · rw [dot_combination hzsize (by rw [size_extend, hu]) hinsize, hisize]
    apply sum_congr rfl
    intro p hp
    rw [mem_range] at hp
    have hp' : p < x.patterns.length := hp
    congr 1
    simp [hinputs, overlap, Array.getD, List.getD, hp']

end Association

end Engram
