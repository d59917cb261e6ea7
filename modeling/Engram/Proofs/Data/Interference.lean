/-
  Engram.Proofs.Data.Interference — what writes to some cells do to the others.

  The keys of a store are orthogonal but for the constant unit, which they all share. Seen from
  one unit of the target, a store is then one coefficient for each key, and key k reads

    D c_k + Σ c

  where D is the overlap of a key with itself without the constant unit. A write moves one
  coefficient, so that its key reads what is written; every other key reads the same amount more
  or less. The question is how far that can go over an arbitrary history.

  The answer is an invariant, `Held`: the coefficients are always

    c_k = t (D τ_k + Σ_j σ_kj) / (D (D + 1))    with τ, σ between -1 and 1 and σ_kj = -σ_jk

  where t is the depth of what is written. What the other coefficients add to a key is then at
  most t (K - 1) / D in size, before and after (`Held.rest_le`): the σ of two of them cancel.
-/

import Mathlib.Algebra.BigOperators.Fin
import Mathlib.Algebra.BigOperators.Field
import Engram.Proofs.Exact.Activator

namespace Engram.Interference

open Finset Activator

variable {K : ℕ} {D t η : ℝ} {c : Fin K → ℝ}

/-- What a key reads. -/
noncomputable def read (D : ℝ) (c : Fin K → ℝ) (k : Fin K) : ℝ := D * c k + ∑ j, c j

/-- What the other coefficients add to what a key reads. -/
noncomputable def rest (c : Fin K → ℝ) (k : Fin K) : ℝ := ∑ j, c j - c k

/-- The coefficients after a write of the goal `g` under the key `s`, by a rule that writes the
share `η`. -/
noncomputable def write (D η : ℝ) (c : Fin K → ℝ) (s : Fin K) (g : ℝ) : Fin K → ℝ :=
  Function.update c s (c s + η * (g - read D c s) / (D + 1))

theorem sum_update (c : Fin K → ℝ) (s : Fin K) (v : ℝ) : ∑ j, Function.update c s v j = ∑ j, c j + (v - c s) := by
  rw [sum_update_of_mem (mem_univ s), ← add_sum_erase univ c (mem_univ s), sdiff_singleton_eq_erase]
  ring

/-- A write moves what every key reads by its change of the coefficient; the key itself D times
more. -/
theorem read_write (D η : ℝ) (c : Fin K → ℝ) (s : Fin K) (g : ℝ) (k : Fin K) :
    read D (write D η c s g) k =
      read D c k + η * (g - read D c s) / (D + 1) * (if s = k then D + 1 else 1) := by
  rw [read, write, sum_update, ← write]
  by_cases h : s = k
  · subst h
    rw [write, Function.update_self, if_pos rfl]
    unfold read
    ring
  · rw [write, Function.update_of_ne (fun h' => h h'.symm), if_neg h]
    unfold read
    ring

theorem read_eq_rest (D : ℝ) (c : Fin K → ℝ) (k : Fin K) : read D c k = (D + 1) * c k + rest c k := by
  unfold read rest
  ring

theorem rest_write_self (D η : ℝ) (c : Fin K → ℝ) (s : Fin K) (g : ℝ) : rest (write D η c s g) s = rest c s := by
  rw [rest, write, sum_update, Function.update_self, rest]
  ring

theorem write_of_ne {s k : Fin K} (h : k ≠ s) (D η : ℝ) (c : Fin K → ℝ) (g : ℝ) : write D η c s g k = c k :=
  Function.update_of_ne h _ _

/-! ## The invariant -/

/-- The coefficients that the signs `τ` and `σ` stand for. -/
noncomputable def shape (D t : ℝ) (τ : Fin K → ℝ) (σ : Fin K → Fin K → ℝ) (k : Fin K) : ℝ :=
  t * (D * τ k + ∑ j, σ k j) / (D * (D + 1))

structure Signs (τ : Fin K → ℝ) (σ : Fin K → Fin K → ℝ) : Prop where
  own : ∀ k, |τ k| ≤ 1
  pair : ∀ k j, |σ k j| ≤ 1
  anti : ∀ k j, σ k j = -σ j k

/-- What the coefficients of a store are always like. -/
def Held (D t : ℝ) (c : Fin K → ℝ) : Prop := ∃ τ σ, Signs τ σ ∧ c = shape D t τ σ

theorem held_zero (D t : ℝ) : Held D t (fun _ : Fin K => 0) :=
  ⟨fun _ => 0, fun _ _ => 0, ⟨by simp, by simp, by simp⟩, by funext k; simp [shape]⟩

namespace Signs

variable {τ : Fin K → ℝ} {σ : Fin K → Fin K → ℝ}

theorem diag (h : Signs τ σ) (k : Fin K) : σ k k = 0 := by linarith [h.anti k k]

theorem sum_sum_eq_zero (h : Signs τ σ) : ∑ k, ∑ j, σ k j = 0 := by
  have hneg : ∑ k, ∑ j, σ k j = -∑ k, ∑ j, σ k j := by
    calc ∑ k, ∑ j, σ k j = ∑ j, ∑ k, σ k j := sum_comm
      _ = ∑ j, ∑ k, -σ j k := sum_congr rfl fun j _ => sum_congr rfl fun k _ => h.anti k j
      _ = -∑ k, ∑ j, σ k j := by simp only [sum_neg_distrib]
  linarith

/-- All coefficients together: the signs of pairs cancel. -/
theorem sum_shape (h : Signs τ σ) (hD : 0 < D) (t : ℝ) : ∑ k, shape D t τ σ k = t * (∑ k, τ k) / (D + 1) := by
  unfold shape
  rw [← sum_div, ← mul_sum, sum_add_distrib, h.sum_sum_eq_zero, ← mul_sum, add_zero]
  field_simp

theorem read_shape (h : Signs τ σ) (hD : 0 < D) (t : ℝ) (k : Fin K) :
    read D (shape D t τ σ) k = t * (D * τ k + ∑ j, σ k j + ∑ j, τ j) / (D + 1) := by
  rw [read, h.sum_shape hD, shape]
  field_simp

/-- What a whole write makes of the signs of the keys. -/
noncomputable def ownAfter (D : ℝ) (τ : Fin K → ℝ) (σ : Fin K → Fin K → ℝ) (s : Fin K) (T : ℝ) (k : Fin K) : ℝ :=
  if k = s then T else (D * τ k + σ k s) / (D + 1)

noncomputable def pairAfter (D : ℝ) (τ : Fin K → ℝ) (σ : Fin K → Fin K → ℝ) (s : Fin K) (T : ℝ) (k j : Fin K) : ℝ :=
  if k = j then 0
  else if j = s then ownAfter D τ σ s T k
  else if k = s then -ownAfter D τ σ s T j
  else σ k j

theorem abs_mix_le (hD : 0 < D) {x y : ℝ} (hx : |x| ≤ 1) (hy : |y| ≤ 1) : |(D * x + y) / (D + 1)| ≤ 1 := by
  rw [abs_le] at hx hy ⊢
  constructor
  · rw [le_div_iff₀ (by linarith)]
    nlinarith
  · rw [div_le_iff₀ (by linarith)]
    nlinarith

theorem after (h : Signs τ σ) (hD : 0 < D) (s : Fin K) {T : ℝ} (hT : |T| ≤ 1) :
    Signs (ownAfter D τ σ s T) (pairAfter D τ σ s T) := by
  have hown : ∀ k, |ownAfter D τ σ s T k| ≤ 1 := by
    intro k
    unfold ownAfter
    split
    · exact hT
    · exact abs_mix_le hD (h.own k) (h.pair k s)
  refine ⟨hown, fun k j => ?_, fun k j => ?_⟩
  · unfold pairAfter
    split
    · simp
    · split
      · exact hown k
      · split
        · rw [abs_neg]; exact hown j
        · exact h.pair k j
  · unfold pairAfter
    by_cases hkj : k = j
    · subst hkj; simp
    · have hjk : ¬ j = k := fun h' => hkj h'.symm
      rw [if_neg hkj, if_neg hjk]
      by_cases hj : j = s
      · subst hj
        rw [if_pos rfl, if_neg hkj, if_pos rfl, neg_neg]
      · by_cases hk : k = s
        · subst hk
          rw [if_neg hj, if_pos rfl, if_pos rfl]
        · rw [if_neg hj, if_neg hk, if_neg hk, if_neg hj]
          exact h.anti k j

/-- Signs between two are signs. -/
theorem convex {τ' : Fin K → ℝ} {σ' : Fin K → Fin K → ℝ} (h : Signs τ σ) (h' : Signs τ' σ') (h₀ : 0 ≤ η) (h₁ : η ≤ 1) :
    Signs (fun k => (1 - η) * τ k + η * τ' k) (fun k j => (1 - η) * σ k j + η * σ' k j) := by
  have hmix : ∀ x y : ℝ, |x| ≤ 1 → |y| ≤ 1 → |(1 - η) * x + η * y| ≤ 1 := by
    intro x y hx hy
    rw [abs_le] at hx hy ⊢
    constructor <;> nlinarith
  refine ⟨fun k => hmix _ _ (h.own k) (h'.own k), fun k j => hmix _ _ (h.pair k j) (h'.pair k j), fun k j => ?_⟩
  show (1 - η) * σ k j + η * σ' k j = -((1 - η) * σ j k + η * σ' j k)
  rw [h.anti k j, h'.anti k j]
  ring

theorem sum_ownAfter (h : Signs τ σ) (s : Fin K) (T : ℝ) :
    ∑ j, ownAfter D τ σ s T j = T + (D * (∑ j, τ j - τ s) - ∑ j, σ s j) / (D + 1) := by
  have hoff : ∀ j ∈ univ.erase s, ownAfter D τ σ s T j = (D * τ j + σ j s) / (D + 1) := by
    intro j hj
    rw [ownAfter, if_neg (ne_of_mem_erase hj)]
  have hanti : ∑ j ∈ univ.erase s, σ j s = -∑ j, σ s j := by
    calc ∑ j ∈ univ.erase s, σ j s = ∑ j, σ j s := by
          rw [← add_sum_erase univ _ (mem_univ s), h.diag s, zero_add]
      _ = ∑ j, -σ s j := sum_congr rfl fun j _ => h.anti j s
      _ = -∑ j, σ s j := sum_neg_distrib _
  have hτ : ∑ j ∈ univ.erase s, τ j = ∑ j, τ j - τ s := by
    rw [← add_sum_erase univ τ (mem_univ s)]
    ring
  rw [← add_sum_erase univ _ (mem_univ s), sum_congr rfl hoff, ← sum_div, sum_add_distrib, ← mul_sum, hanti, hτ,
    ownAfter, if_pos rfl]
  ring

theorem sum_pairAfter_self (h : Signs τ σ) (s : Fin K) (T : ℝ) :
    ∑ j, pairAfter D τ σ s T s j = -((D * (∑ j, τ j - τ s) - ∑ j, σ s j) / (D + 1)) := by
  have hoff : ∀ j ∈ univ.erase s, pairAfter D τ σ s T s j = -ownAfter D τ σ s T j := by
    intro j hj
    have hjs := ne_of_mem_erase hj
    rw [pairAfter, if_neg (fun h' => hjs h'.symm), if_neg hjs, if_pos rfl]
  have hdiag : pairAfter D τ σ s T s s = 0 := if_pos rfl
  have hsum := h.sum_ownAfter (D := D) s T
  rw [← add_sum_erase univ _ (mem_univ s), ownAfter, if_pos rfl] at hsum
  rw [← add_sum_erase univ _ (mem_univ s), hdiag, sum_congr rfl hoff, sum_neg_distrib]
  linarith

theorem sum_pairAfter_of_ne (h : Signs τ σ) {k s : Fin K} (hk : k ≠ s) (T : ℝ) :
    ∑ j, pairAfter D τ σ s T k j = ∑ j, σ k j - σ k s + (D * τ k + σ k s) / (D + 1) := by
  have hrest : ∀ j ∈ univ.erase s, pairAfter D τ σ s T k j = σ k j := by
    intro j hj
    unfold pairAfter
    by_cases hkj : k = j
    · rw [if_pos hkj, ← hkj, h.diag k]
    · rw [if_neg hkj, if_neg (ne_of_mem_erase hj), if_neg hk]
  have hs : pairAfter D τ σ s T k s = (D * τ k + σ k s) / (D + 1) := by
    rw [pairAfter, if_neg hk, if_pos rfl, ownAfter, if_neg hk]
  rw [← add_sum_erase univ _ (mem_univ s), hs, sum_congr rfl hrest, ← add_sum_erase univ (σ k) (mem_univ s)]
  ring

/-- A whole write takes the coefficients of the signs to those of the signs after it. -/
theorem write_one (h : Signs τ σ) (hD : 0 < D) (t : ℝ) (s : Fin K) (T : ℝ) :
    write D 1 (shape D t τ σ) s (t * T) = shape D t (ownAfter D τ σ s T) (pairAfter D τ σ s T) := by
  have hM : D + 1 ≠ 0 := by positivity
  funext k
  by_cases hk : k = s
  · subst hk
    rw [write, Function.update_self, h.read_shape hD, shape, shape, h.sum_pairAfter_self, ownAfter, if_pos rfl]
    field_simp
    ring
  · rw [write_of_ne hk, shape, shape, h.sum_pairAfter_of_ne hk, ownAfter, if_neg hk]
    field_simp
    ring

end Signs

theorem shape_convex (D t η : ℝ) (τ τ' : Fin K → ℝ) (σ σ' : Fin K → Fin K → ℝ) (k : Fin K) :
    shape D t (fun k => (1 - η) * τ k + η * τ' k) (fun k j => (1 - η) * σ k j + η * σ' k j) k =
      (1 - η) * shape D t τ σ k + η * shape D t τ' σ' k := by
  unfold shape
  rw [sum_add_distrib, ← mul_sum, ← mul_sum]
  ring

/-- A write of a part goes that part of the way of a whole write. -/
theorem write_convex (D η : ℝ) (c : Fin K → ℝ) (s : Fin K) (g : ℝ) (k : Fin K) :
    write D η c s g k = (1 - η) * c k + η * write D 1 c s g k := by
  by_cases hk : k = s
  · subst hk
    unfold write
    rw [Function.update_self, Function.update_self]
    ring
  · rw [write_of_ne hk, write_of_ne hk]
    ring

/-- Writes keep the invariant. -/
theorem Held.write (h : Held D t c) (hD : 0 < D) (h₀ : 0 ≤ η) (h₁ : η ≤ 1) (s : Fin K) {T : ℝ} (hT : |T| ≤ 1) :
    Held D t (Interference.write D η c s (t * T)) := by
  obtain ⟨τ, σ, hs, rfl⟩ := h
  refine ⟨_, _, hs.convex (hs.after hD s hT) h₀ h₁, ?_⟩
  funext k
  rw [write_convex, hs.write_one hD, shape_convex]

/-! ## Bounds -/

theorem sum_erase_le {f : Fin K → ℝ} {b : ℝ} (k : Fin K) (h : ∀ j, |f j| ≤ b) : |∑ j ∈ univ.erase k, f j| ≤ (K - 1) * b := by
  have hcard : ((univ.erase k).card : ℝ) = K - 1 := by
    rw [card_erase_of_mem (mem_univ k), card_univ, Fintype.card_fin, Nat.cast_sub (by have := k.isLt; omega)]
    simp
  calc |∑ j ∈ univ.erase k, f j| ≤ ∑ j ∈ univ.erase k, |f j| := abs_sum_le_sum_abs _ _
    _ ≤ ∑ _j ∈ univ.erase k, b := sum_le_sum fun j _ => h j
    _ = (K - 1) * b := by rw [sum_const, nsmul_eq_mul, hcard]

/-- What the other coefficients add is never more than their number over D. -/
theorem Held.rest_le (h : Held D t c) (hD : 0 < D) (ht : 0 ≤ t) (k : Fin K) : |rest c k| ≤ t * (K - 1) / D := by
  obtain ⟨τ, σ, hs, rfl⟩ := h
  have hform : rest (shape D t τ σ) k = t / (D * (D + 1)) * ∑ j ∈ univ.erase k, (D * τ j - σ k j) := by
    have hτ : ∑ j ∈ univ.erase k, τ j = ∑ j, τ j - τ k := by
      rw [← add_sum_erase univ τ (mem_univ k)]
      ring
    have hσ : ∑ j ∈ univ.erase k, σ k j = ∑ j, σ k j := by
      rw [← add_sum_erase univ (σ k) (mem_univ k), hs.diag k, zero_add]
    rw [rest, hs.sum_shape hD, shape, sum_sub_distrib, ← mul_sum, hτ, hσ]
    field_simp
    ring
  have hterm : ∀ j, |D * τ j - σ k j| ≤ D + 1 := by
    intro j
    have h₁ := abs_le.mp (hs.own j)
    have h₂ := abs_le.mp (hs.pair k j)
    rw [abs_le]
    constructor <;> nlinarith
  rw [hform, abs_mul, abs_of_nonneg (by positivity)]
  calc t / (D * (D + 1)) * |∑ j ∈ univ.erase k, (D * τ j - σ k j)|
      ≤ t / (D * (D + 1)) * ((K - 1) * (D + 1)) := by
        apply mul_le_mul_of_nonneg_left (sum_erase_le k hterm)
        positivity
    _ = t * (K - 1) / D := by field_simp

theorem Held.read_le (h : Held D t c) (hD : 0 < D) (ht : 0 ≤ t) (k : Fin K) :
    |read D c k| ≤ t * (1 + 2 * (K - 1) / D) := by
  have hrest := h.rest_le hD ht k
  obtain ⟨τ, σ, hs, rfl⟩ := h
  have hown : |(D + 1) * shape D t τ σ k| ≤ t * (1 + (K - 1) / D) := by
    have hσ : ∑ j, σ k j = ∑ j ∈ univ.erase k, σ k j := by
      rw [← add_sum_erase univ (σ k) (mem_univ k), hs.diag k, zero_add]
    have hform : (D + 1) * shape D t τ σ k = t / D * (D * τ k + ∑ j ∈ univ.erase k, σ k j) := by
      rw [shape, hσ]
      field_simp
    have h₁ := abs_le.mp (hs.own k)
    have h₂ := abs_le.mp (sum_erase_le k (hs.pair k))
    have hsum : |D * τ k + ∑ j ∈ univ.erase k, σ k j| ≤ D + (K - 1) := by
      rw [abs_le]
      constructor <;> nlinarith
    rw [hform, abs_mul, abs_of_nonneg (by positivity)]
    calc t / D * |D * τ k + ∑ j ∈ univ.erase k, σ k j| ≤ t / D * (D + (K - 1)) :=
          mul_le_mul_of_nonneg_left hsum (by positivity)
      _ = t * (1 + (K - 1) / D) := by field_simp
  rw [read_eq_rest]
  calc |(D + 1) * shape D t τ σ k + rest (shape D t τ σ) k|
      ≤ |(D + 1) * shape D t τ σ k| + |rest (shape D t τ σ) k| := abs_add_le _ _
    _ ≤ t * (1 + (K - 1) / D) + t * (K - 1) / D := add_le_add hown hrest
    _ = t * (1 + 2 * (K - 1) / D) := by ring

/-! ## Histories -/

/-- The coefficients after some writes, from none. -/
noncomputable def run (D t η : ℝ) (writes : List (Fin K × Bool)) : Fin K → ℝ :=
  writes.foldl (fun c w => write D η c w.1 (t * sign w.2)) fun _ => 0

theorem run_append_singleton (D t η : ℝ) (writes : List (Fin K × Bool)) (w : Fin K × Bool) :
    run D t η (writes ++ [w]) = write D η (run D t η writes) w.1 (t * sign w.2) := by
  simp [run, List.foldl_append]

theorem held_run (hD : 0 < D) (h₀ : 0 ≤ η) (h₁ : η ≤ 1) (t : ℝ) (writes : List (Fin K × Bool)) :
    Held D t (run D t η writes) := by
  induction writes using List.reverseRecOn with
  | nil => exact held_zero D t
  | append_singleton writes w ih =>
    rw [run_append_singleton]
    exact ih.write hD h₀ h₁ w.1 (abs_sign w.2).le

/-- Writes under other keys leave the coefficient of a key alone. -/
theorem foldl_write_of_ne (D t η : ℝ) {k : Fin K} (writes : List (Fin K × Bool)) (c : Fin K → ℝ)
    (h : ∀ w ∈ writes, w.1 ≠ k) :
    writes.foldl (fun c w => write D η c w.1 (t * sign w.2)) c k = c k := by
  induction writes generalizing c with
  | nil => rfl
  | cons w rest ih =>
    rw [List.foldl_cons, ih _ fun v hv => h v (List.mem_cons_of_mem _ hv)]
    exact write_of_ne (h w List.mem_cons_self).symm _ _ _ _

theorem exists_last_write {κ β : Type} [BEq κ] [LawfulBEq κ] {writes : List (κ × β)} {k : κ} {v : β}
    (h : writes.reverse.lookup k = some v) :
    ∃ before after, writes = before ++ (k, v) :: after ∧ ∀ w ∈ after, w.1 ≠ k := by
  obtain ⟨after, before, hrev, hne⟩ := List.lookup_eq_some_iff.mp h
  refine ⟨before.reverse, after.reverse, ?_, fun w hw hk => ?_⟩
  · rw [← List.reverse_reverse writes, hrev]
    simp
  · have := hne w (List.mem_reverse.mp hw)
    simp [hk] at this

/-- A key reads with the sign that was written under it last, whatever was written under the
others, when the number of the others is small against the overlap of a key with itself. -/
theorem read_run (hD : 0 < D) (ht : 0 < t) (h₀ : 0 ≤ η) (h₁ : η ≤ 1)
    (hroom : 2 * (K - 1) * (2 - η) < (2 * η - 1) * D) {writes : List (Fin K × Bool)} {k : Fin K} {b : Bool}
    (hlast : writes.reverse.lookup k = some b) : 0 < sign b * read D (run D t η writes) k := by
  obtain ⟨before, after, rfl, hne⟩ := exists_last_write hlast
  set c₀ := run D t η before with hc₀
  set c₂ := run D t η (before ++ (k, b) :: after) with hc₂
  have hheld : Held D t c₀ := held_run hD h₀ h₁ t before
  have hheld' : Held D t c₂ := held_run hD h₀ h₁ t _
  -- the coefficient is the one that the last write left
  have hcoef : c₂ k = write D η c₀ k (t * sign b) k := by
    rw [hc₂, run, List.foldl_append, List.foldl_cons, foldl_write_of_ne D t η after _ hne]
    rfl
  have hwritten : read D (write D η c₀ k (t * sign b)) k = (1 - η) * read D c₀ k + η * (t * sign b) := by
    rw [read_write, if_pos rfl, div_mul_cancel₀ _ (by positivity)]
    ring
  have hread : read D c₂ k = (1 - η) * read D c₀ k + η * (t * sign b) + (rest c₂ k - rest c₀ k) := by
    have h := read_eq_rest D (write D η c₀ k (t * sign b)) k
    rw [rest_write_self, hwritten] at h
    rw [read_eq_rest, hcoef]
    linarith
  -- what is left of the old value and what the others add since cannot make up for it
  have hr₀ := abs_le.mp (hheld.rest_le hD ht.le k)
  have hr₂ := abs_le.mp (hheld'.rest_le hD ht.le k)
  have hold := abs_le.mp (hheld.read_le hD ht.le k)
  have hmargin : 0 < t * (η - (1 - η) * (1 + 2 * (K - 1) / D) - 2 * (K - 1) / D) := by
    apply mul_pos ht
    have hdiv : 2 * (K - 1) * (2 - η) / D < 2 * η - 1 := by rwa [div_lt_iff₀ hD]
    have : η - (1 - η) * (1 + 2 * (K - 1) / D) - 2 * (K - 1) / D = 2 * η - 1 - 2 * (K - 1) * (2 - η) / D := by ring
    linarith
  have hpart₁ : (1 - η) * read D c₀ k ≤ (1 - η) * (t * (1 + 2 * (K - 1) / D)) :=
    mul_le_mul_of_nonneg_left hold.2 (by linarith)
  have hpart₂ : (1 - η) * -(t * (1 + 2 * (K - 1) / D)) ≤ (1 - η) * read D c₀ k :=
    mul_le_mul_of_nonneg_left hold.1 (by linarith)
  have hdouble : t * (2 * (K - 1) / D) = t * (K - 1) / D + t * (K - 1) / D := by ring
  rw [hread]
  cases b with
  | true => simp only [sign_true]; nlinarith
  | false => simp only [sign_false]; nlinarith

/-- What is left of an `off` after one `on` was written under another key. -/
theorem read_run_pair (hD : 0 < D) (t η : ℝ) {j k : Fin K} (hjk : j ≠ k) :
    read D (run D t η [(k, false), (j, true)]) k = η * t * (-1 + (1 + η / (D + 1)) / (D + 1)) := by
  have hM : D + 1 ≠ 0 := by positivity
  have hzero : ∀ i, read D (fun _ : Fin K => (0 : ℝ)) i = 0 := by simp [read]
  simp only [run, List.foldl_cons, List.foldl_nil, read_write, hzero, sign_true, sign_false]
  rw [if_pos trivial, if_neg hjk, if_neg hjk.symm]
  field_simp
  ring

end Engram.Interference
