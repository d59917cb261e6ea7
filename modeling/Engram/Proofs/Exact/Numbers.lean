/-
  Engram.Proofs.Exact.Numbers — the network over the real numbers.

  Every definition of the network is written over a `Scalar`. Here the real numbers are made
  one, with the operations of analysis in the place of the rounded ones, and the few operations
  that `Scalar` adds (sums over a range, the larger of two, moving into an interval) are shown to
  be the ones of the library. Results in exact arithmetic are results about this instance.
-/

import Mathlib.Analysis.SpecialFunctions.Log.Basic
import Mathlib.Analysis.Complex.Trigonometric
import Engram.Proofs.Association.Targets

namespace Engram

open Classical in
noncomputable instance : Scalar ℝ where
  lt a b := decide (a < b)
  le a b := decide (a ≤ b)
  same a b := decide (a = b)
  sqrt := Real.sqrt
  exp := Real.exp
  log := Real.log
  logOnePlus x := Real.log (1 + x)
  tanh := Real.tanh
  tiny := 1 / ((2 : Nat) : ℝ) ^ 1022

instance : SameLaws ℝ where
  refl _ := decide_eq_true rfl
  symm h := decide_eq_true (of_decide_eq_true h).symm
  trans h h' := decide_eq_true ((of_decide_eq_true h).trans (of_decide_eq_true h'))

namespace Scalar

@[simp] theorem lt_eq_true (a b : ℝ) : Scalar.lt a b = true ↔ a < b := by simp [Scalar.lt]

@[simp] theorem lt_eq_false (a b : ℝ) : Scalar.lt a b = false ↔ b ≤ a := by simp [Scalar.lt]

@[simp] theorem le_eq_true (a b : ℝ) : Scalar.le a b = true ↔ a ≤ b := by simp [Scalar.le]

@[simp] theorem same_eq_true (a b : ℝ) : Scalar.same a b = true ↔ a = b := by simp [Scalar.same]

theorem sumBelow_eq_sum (n : Nat) (f : Nat → ℝ) : sumBelow n f = ∑ i ∈ Finset.range n, f i := by
  induction n with
  | zero => rfl
  | succ n ih => rw [sumBelow_succ, Finset.sum_range_succ, ih]

theorem larger_eq_max (a b : ℝ) : larger a b = max a b := by
  unfold larger
  by_cases h : a < b
  · rw [if_pos ((lt_eq_true a b).mpr h), max_eq_right h.le]
  · rw [if_neg (fun h' => h ((lt_eq_true a b).mp h')), max_eq_left (not_lt.mp h)]

/-- A value of the interval stays where it is. -/
theorem clamp_of_mem {lo hi y : ℝ} (h₁ : lo ≤ y) (h₂ : y ≤ hi) : clamp lo hi y = y := by
  unfold clamp
  rw [if_neg (by simpa using h₁), if_neg (by simpa using h₂)]

theorem tiny_pos : (0 : ℝ) < tiny := by
  show (0 : ℝ) < 1 / 2 ^ 1022
  positivity

theorem tiny_le_one : (tiny : ℝ) ≤ 1 := by
  show (1 : ℝ) / 2 ^ 1022 ≤ 1
  rw [div_le_one (by positivity)]
  exact one_le_pow₀ one_le_two

end Scalar

end Engram
