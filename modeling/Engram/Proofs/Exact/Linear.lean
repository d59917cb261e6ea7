/-
  Engram.Proofs.Exact.Linear — connections as linear maps.

  A pattern of real numbers is a vector by its entries, which are zero outside. On the patterns
  of one size every linear map is what a connection without bias adds (`entry_drive_ofForms`),
  and where the patterns of a family are independent there is a linear form with any values on
  them (`exists_form`).
-/

import Mathlib.LinearAlgebra.Basis.VectorSpace
import Engram.Proofs.Exact.Flash

namespace Engram

/-- A linear form has any values on independent vectors. -/
theorem exists_form {ι V : Type} [AddCommGroup V] [Module ℝ V] {v : ι → V} {s : Set ι} (hv : LinearIndepOn ℝ v s)
    (value : ι → ℝ) : ∃ f : V →ₗ[ℝ] ℝ, ∀ i ∈ s, f (v i) = value i := by
  have hindependent : LinearIndependent ℝ fun i : s => v i := hv
  obtain ⟨f, hf⟩ := ((Module.Basis.span hindependent).constr ℝ fun i : s => value i).exists_extend
  refine ⟨f, fun i hi => ?_⟩
  have hmem : v i ∈ Submodule.span ℝ (Set.range fun i : s => v i) := Submodule.subset_span ⟨⟨i, hi⟩, rfl⟩
  have hbasis : (⟨v i, hmem⟩ : Submodule.span ℝ (Set.range fun i : s => v i)) = Module.Basis.span hindependent ⟨i, hi⟩ :=
    (Module.Basis.span_apply hindependent ⟨i, hi⟩).symm
  calc f (v i) = (f ∘ₗ (Submodule.span ℝ _).subtype) ⟨v i, hmem⟩ := rfl
    _ = value i := by rw [hf, hbasis, Module.Basis.constr_basis]

namespace Pattern

open Finset

/-- The entries from `start` on, `size` of them. -/
def window (start size : Nat) : (Nat → ℝ) →ₗ[ℝ] (Nat → ℝ) where
  toFun v j := if j < size then v (start + j) else 0
  map_add' v w := by
    funext j
    by_cases h : j < size
    · simp [h]
    · simp [h]
  map_smul' a v := by
    funext j
    by_cases h : j < size
    · simp [h]
    · simp [h]

theorem window_apply (start size : Nat) (v : Nat → ℝ) (j : Nat) :
    window start size v j = if j < size then v (start + j) else 0 := rfl

/-- The window of a block is the block. -/
theorem window_entry {x p : Pattern ℝ} {start : Nat} (h : ∀ j < p.size, x.entry (start + j) = p.entry j) :
    window start p.size x.entry = p.entry := by
  funext j
  rw [window_apply]
  by_cases hj : j < p.size
  · rw [if_pos hj, h j hj]
  · rw [if_neg hj, entry_of_le (Nat.not_lt.mp hj)]

theorem window_entry_zero {x : Pattern ℝ} {start size : Nat} (h : ∀ j < size, x.entry (start + j) = 0) :
    window start size x.entry = 0 := by
  funext j
  rw [window_apply]
  by_cases hj : j < size
  · rw [if_pos hj, h j hj]
    rfl
  · rw [if_neg hj]
    rfl

/-- A linear form adds up what the entries contribute. -/
theorem form_eq_sum (f : (Nat → ℝ) →ₗ[ℝ] ℝ) (x : Pattern ℝ) :
    f x.entry = ∑ j ∈ range x.size, f (Pi.single j 1) * x.entry j := by
  have hsum : x.entry = ∑ j ∈ range x.size, x.entry j • (Pi.single j 1 : Nat → ℝ) := by
    funext k
    rw [Finset.sum_apply]
    simp only [Pi.smul_apply, Pi.single_apply, smul_eq_mul, mul_ite, mul_one, mul_zero]
    rw [Finset.sum_ite_eq (range x.size) k x.entry]
    split
    · rfl
    next h => exact entry_of_le (not_lt.mp fun hk => h (mem_range.mpr hk))
  conv_lhs => rw [hsum]
  rw [map_sum]
  refine sum_congr rfl fun j _ => ?_
  rw [map_smul, smul_eq_mul, mul_comm]

end Pattern

namespace Connection

/-- The connection that adds, to each unit, what a linear form makes of the input. -/
noncomputable def ofForms (height width : Nat) (f : Nat → (Nat → ℝ) →ₗ[ℝ] ℝ) : Connection ℝ :=
  ⟨.ofRows height width (.ofFn fun i : Fin height => .ofFn fun j : Fin width => f i (Pi.single j.1 1)), .zero height⟩

variable {height width : Nat} {f : Nat → (Nat → ℝ) →ₗ[ℝ] ℝ}

theorem fits_ofForms : (ofForms height width f).Fits := Array.size_replicate

theorem entry_drive_ofForms {x : Pattern ℝ} (hx : x.size = width) {i : Nat} (hi : i < height) :
    ((ofForms height width f).drive x).entry i = f i x.entry := by
  have hzero : (ofForms height width f).bias.entry i = 0 :=
    (Pattern.entry_replicate height i 0).trans (ite_self 0)
  rw [entry_drive fits_ofForms hx hi, out, hzero, add_zero, Pattern.form_eq_sum, hx]
  refine Finset.sum_congr rfl fun j hj => ?_
  have hj : j < width := Finset.mem_range.mp hj
  have hentry : (ofForms height width f).weights.entry i j = f i (Pi.single j 1) := by
    rw [ofForms, Matrix.entry_ofRows _ hi hj]
    simp only [Array.getD_eq_getD_getElem?, Array.getElem?_ofFn, hi, dite_true, Option.getD_some]
    exact Pattern.entry_ofFn _ hj
  rw [hentry]

end Connection

end Engram
