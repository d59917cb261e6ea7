/-
  Engram.Proofs.Exact.Entries — vectors and matrices by their entries.

  Vectors are arrays whose entries outside are zero. Each way of making one gets its entry lemma,
  and from then on proofs speak of entries and of sums over them only.
-/

import Engram.Proofs.Exact.Numbers
import Engram.Association.Flash
import Engram.Proofs.Association.Shapes
import Mathlib.Data.List.GetD

namespace Engram

open Finset

variable {α : Type} [Scalar α]

namespace Pattern

theorem entry_of_lt {x : Pattern α} {i : Nat} (h : i < x.size) : x.entry i = x[i] := by
  simp [entry, Array.getD, h]

theorem entry_of_le {x : Pattern α} {i : Nat} (h : x.size ≤ i) : x.entry i = 0 := by
  simp [entry, Array.getD, Nat.not_lt.mpr h]

theorem entry_ofFn {n : Nat} (f : Fin n → α) {i : Nat} (h : i < n) : entry (Array.ofFn f) i = f ⟨i, h⟩ := by
  rw [entry_of_lt (by simpa using h)]
  simp

theorem entry_map (f : α → α) {x : Pattern α} {i : Nat} (h : i < x.size) :
    entry (x.map f) i = f (x.entry i) := by
  rw [entry_of_lt (by simpa using h), entry_of_lt h]
  simp

theorem entry_push_lt {x : Pattern α} (v : α) {i : Nat} (h : i < x.size) : entry (x.push v) i = x.entry i := by
  rw [entry_of_lt (by simp; omega), entry_of_lt h, Array.getElem_push_lt h]

@[simp] theorem entry_push_size (x : Pattern α) (v : α) : entry (x.push v) x.size = v := by
  rw [entry_of_lt (by simp), Array.getElem_push_eq]

theorem entry_zipWith (f : α → α → α) {x y : Pattern α} {i : Nat} (h : i < x.size) (h' : i < y.size) :
    entry (x.zipWith f y) i = f (x.entry i) (y.entry i) := by
  rw [entry_of_lt (by simp; omega), entry_of_lt h, entry_of_lt h']
  simp

theorem entry_add {x y : Pattern α} {i : Nat} (h : i < x.size) (h' : i < y.size) :
    entry (x.add y) i = x.entry i + y.entry i := entry_zipWith _ h h'

theorem entry_replicate (n i : Nat) (v : α) : entry (Array.replicate n v) i = if i < n then v else 0 := by
  by_cases h : i < n
  · rw [entry_of_lt (by simpa using h), if_pos h]; simp
  · rw [entry_of_le (by simpa using h), if_neg h]

@[simp] theorem entry_singleton (v : α) : entry #[v] 0 = v := rfl

theorem ext_entry {x y : Pattern α} (hs : x.size = y.size) (h : ∀ i < x.size, x.entry i = y.entry i) : x = y := by
  apply Array.ext hs
  intro i h₁ h₂
  rw [← entry_of_lt h₁, ← entry_of_lt h₂, h i h₁]

theorem sum_eq (x : Pattern ℝ) : x.sum = ∑ i ∈ range x.size, x.entry i := Scalar.sumBelow_eq_sum _ _

/-- The sum of an array that is not taken to be a pattern. -/
theorem array_sum_eq (x : Array ℝ) : Array.sum x = ∑ i ∈ range x.size, entry x i := by
  have h : x.toList = List.ofFn fun i : Fin x.size => entry x i := by
    apply List.ext_getElem (by simp)
    intro i h₁ h₂
    rw [List.getElem_ofFn, entry_of_lt (by simpa using h₁), Array.getElem_toList]
  rw [← Array.sum_toList, h, List.sum_ofFn]
  exact (Finset.sum_range fun i => entry x i).symm

theorem dot_eq {x y : Pattern ℝ} (h : x.size = y.size) :
    x.dot y = ∑ i ∈ range x.size, x.entry i * y.entry i := by
  rw [dot, Scalar.sumBelow_eq_sum, h, min_self]

/-- The product of two vectors that end in the given numbers. -/
theorem dot_push {x y : Pattern ℝ} (h : x.size = y.size) (u v : ℝ) :
    dot (x.push u) (y.push v) = x.dot y + u * v := by
  rw [dot_eq (by simp [h]), dot_eq h, Array.size_push, sum_range_succ, entry_push_size]
  rw [h, entry_push_size]
  congr 1
  apply sum_congr rfl
  intro i hi
  rw [mem_range] at hi
  rw [entry_push_lt u (by omega), entry_push_lt v hi]

theorem dot_comm {x y : Pattern ℝ} (h : x.size = y.size) : x.dot y = y.dot x := by
  rw [dot_eq h, dot_eq h.symm, h]
  exact sum_congr rfl fun i _ => mul_comm _ _

end Pattern

namespace Matrix

/-- Position (i, j) lies within the entries. -/
theorem index_lt {h w i j : Nat} (hi : i < h) (hj : j < w) : i * w + j < h * w :=
  calc i * w + j < i * w + w := by omega
    _ = (i + 1) * w := (Nat.succ_mul i w).symm
    _ ≤ h * w := Nat.mul_le_mul_right w hi

theorem entry_ofRows {h w i j : Nat} (rows : Array (Pattern α)) (hi : i < h) (hj : j < w) :
    (ofRows h w rows).entry i j = (rows.getD i #[]).entry j := by
  have hlt := index_lt hi hj
  have hw : 0 < w := by omega
  have hdiv : (i * w + j) / w = i := by
    rw [Nat.mul_comm, Nat.mul_add_div hw, Nat.div_eq_of_lt hj, Nat.add_zero]
  have hmod : (i * w + j) % w = j := by rw [Nat.mul_comm, Nat.mul_add_mod, Nat.mod_eq_of_lt hj]
  have := Pattern.entry_ofFn
    (fun k : Fin (h * w) => Pattern.entry (rows.getD (k.1 / w) #[]) (k.1 % w)) hlt
  simp only [hdiv, hmod] at this
  exact this

theorem entry_zero (h w i j : Nat) : (zero h w : Matrix α).entry i j = 0 := by
  have := Pattern.entry_replicate (h * w) (i * w + j) (0 : α)
  rw [ite_self] at this
  exact this

omit [Scalar α] in
@[simp] theorem size_row {m : Matrix α} {i : Nat} (hi : i < m.height) : (m.row i).size = m.width := by
  have h : (i + 1) * m.width ≤ m.height * m.width := Nat.mul_le_mul_right _ hi
  rw [row, Array.size_extract, m.size_entries, Nat.min_eq_left h, Nat.succ_mul]
  omega

theorem entry_row {m : Matrix α} {i j : Nat} (hi : i < m.height) (hj : j < m.width) :
    (m.row i).entry j = m.entry i j := by
  have hlt : i * m.width + j < m.entries.size := by rw [m.size_entries]; exact index_lt hi hj
  rw [Pattern.entry_of_lt (by rw [size_row hi]; exact hj)]
  simp [row, entry, Array.getD, hlt]

theorem entry_apply {m : Matrix ℝ} {x : Pattern ℝ} (hx : x.size = m.width) {i : Nat} (hi : i < m.height) :
    (m.apply x).entry i = ∑ j ∈ range m.width, m.entry i j * x.entry j := by
  rw [apply, Pattern.entry_ofFn _ hi, Scalar.sumBelow_eq_sum, hx, min_self]

end Matrix

/-- A pattern has the level of its bit at each unit. -/
theorem Activator.entry_pattern (a : Activator α) {b : Bits} {i : Nat} (h : i < b.length) :
    (a.pattern b).entry i = a.level (b.getD i false) := by
  rw [Pattern.entry_of_lt (by simpa using h), List.getD_eq_getElem _ _ h]
  simp [pattern]

end Engram
