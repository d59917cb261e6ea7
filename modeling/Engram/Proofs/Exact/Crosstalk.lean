/-
  Engram.Proofs.Exact.Crosstalk — what the associations of a batch do to each other.

  Every input carries the constant unit, so inputs with nothing in common around the midpoint
  still overlap by one, and each association adds to what all others recall. By the first rule a
  batch of such inputs is recalled up to the residuals of the others (`drive_hebbian_orthogonal`):
  exactly if it has one association or was recalled exactly before, and in no other case. The rule
  is documented as exact for orthogonal inputs; of three of them on two units the first is driven
  to the wrong side (`orthogonal_inputs_disturb`).
-/

import Engram.Proofs.Exact.Batches

namespace Engram

open Finset Pattern Activator

/-! ## Missed columns -/

namespace Connection

variable {c : Connection ℝ} {target : Activator ℝ}

/-- A column is not missed if each unit takes its bit. -/
theorem misses_eq_false_iff (hc : c.Fits) {x y : Pattern ℝ} (hx : x.size = c.weights.width)
    (hy : y.size = c.weights.height) : c.misses target x y = false ↔
      ∀ i < c.weights.height, target.isOn (target.squash (c.out i x)) = target.isOn (y.entry i) := by
  have hsize := size_recalled hc target x
  have hentry : ∀ i (h : i < (c.recalled target x).size), (c.recalled target x)[i] = target.squash (c.out i x) := by
    intro i h
    have hi : i < c.weights.height := hsize ▸ h
    rw [← entry_drive hc hx hi, entry_of_lt (by rw [size_drive hc]; exact hi)]
    simp only [recalled, Array.getElem_map]
  rw [misses, Bool.eq_false_iff, ne_eq, Array.any_iff_exists, not_exists]
  simp only [Array.size_zip, Array.getElem_zip, bne_iff_ne, ne_eq, not_exists, not_and, not_not]
  constructor
  · intro h i hi
    have := h i (Nat.lt_min.mpr ⟨hsize ▸ hi, hy ▸ hi⟩) (Nat.zero_le i) (Nat.lt_min.mpr ⟨hsize ▸ hi, hy ▸ hi⟩)
    rw [hentry i (hsize ▸ hi), ← entry_of_lt (hy ▸ hi)] at this
    exact this
  · intro h i hi _ _
    obtain ⟨h₁, h₂⟩ := Nat.lt_min.mp hi
    rw [hentry i h₁, ← entry_of_lt h₂]
    exact h i (hsize ▸ h₁)

/-- A batch has no errors if no unit of any column misses its bit. -/
theorem errors_eq_zero_iff (hc : c.Fits) {x y : Columns ℝ} (hcount : x.count = y.count)
    (hx : ∀ u ∈ x.patterns, u.size = c.weights.width) (hy : ∀ v ∈ y.patterns, v.size = c.weights.height) :
    c.errors target x y = 0 ↔ ∀ q < x.count, ∀ i < c.weights.height,
      target.isOn (target.squash (c.out i (x.column q))) = target.isOn ((y.column q).entry i) := by
  have hmisses : ∀ q < x.count, (c.misses target (x.column q) (y.column q) = false ↔ ∀ i < c.weights.height,
      target.isOn (target.squash (c.out i (x.column q))) = target.isOn ((y.column q).entry i)) := fun q hq =>
    misses_eq_false_iff hc (hx _ (Columns.column_mem hq)) (hy _ (Columns.column_mem (hcount ▸ hq)))
  rw [errors, List.countP_eq_zero]
  constructor
  · intro h q hq
    have hq' : q < y.count := hcount ▸ hq
    have hmem : (x.column q, y.column q) ∈ x.patterns.zip y.patterns := by
      have hlt : q < (x.patterns.zip y.patterns).length := by
        rw [List.length_zip]
        exact Nat.lt_min.mpr ⟨hq, hq'⟩
      have hget : (x.patterns.zip y.patterns)[q] = (x.column q, y.column q) := by
        rw [List.getElem_zip, Columns.column, Columns.column, List.getD_eq_getElem _ _ hq, List.getD_eq_getElem _ _ hq']
        rfl
      exact hget ▸ List.getElem_mem hlt
    exact (hmisses q hq).mp (by simpa using h _ hmem)
  · intro h p hp
    obtain ⟨q, hq, rfl⟩ := List.getElem_of_mem hp
    rw [List.length_zip] at hq
    obtain ⟨h₁, h₂⟩ := Nat.lt_min.mp hq
    have hget := (hmisses q h₁).mpr (h q h₁)
    rw [Columns.column, Columns.column, List.getD_eq_getElem _ _ h₁, List.getD_eq_getElem _ _ h₂] at hget
    rw [List.getElem_zip]
    exact Bool.eq_false_iff.mp hget

end Connection

namespace Association

variable {rule : Rule} {c : Connection ℝ} {x y : Columns ℝ} {source target : Activator ℝ}

/-! ## Orthogonal inputs -/

/-- Inputs that have nothing in common around the midpoint. -/
def Orthogonal (mid : ℝ) (x : Columns ℝ) : Prop :=
  x.patterns.Pairwise fun u v => ∑ j ∈ range u.size, (u.entry j - mid) * (v.entry j - mid) = 0

/-- What another association adds to a recalled unit. -/
noncomputable def disturbance (c : Connection ℝ) (x y : Columns ℝ) (source target : Activator ℝ) (i p : Nat) : ℝ :=
  residual c x y target i p / overlap source.midpoint (x.column p) (x.column p)

/-- The others add nothing to any of several numbers only if there is one number, or all are zero. -/
theorem sum_erase_eq_zero_iff (a : Nat → ℝ) (n : Nat) :
    (∀ q < n, ∑ p ∈ (range n).erase q, a p = 0) ↔ n ≤ 1 ∨ ∀ p < n, a p = 0 := by
  have hsum : ∀ q < n, ∑ p ∈ (range n).erase q, a p = ∑ p ∈ range n, a p - a q := by
    intro q hq
    rw [← add_sum_erase _ a (mem_range.mpr hq)]
    ring
  constructor
  · intro h
    by_cases hn : n ≤ 1
    · exact .inl hn
    right
    have heq : ∀ q < n, a q = ∑ p ∈ range n, a p := by
      intro q hq
      have := h q hq
      rw [hsum q hq] at this
      linarith
    -- all numbers are their own sum
    have htotal : ∑ p ∈ range n, a p = n * ∑ p ∈ range n, a p := by
      conv_lhs => rw [sum_congr rfl fun p hp => heq p (mem_range.mp hp), sum_const, card_range, nsmul_eq_mul]
    have hzero : ((n : ℝ) - 1) * ∑ p ∈ range n, a p = 0 := by linarith
    have hn' : (1 : ℝ) < n := by exact_mod_cast Nat.lt_of_not_le hn
    have hsum := (mul_eq_zero.mp hzero).resolve_left (by linarith)
    exact fun p hp => (heq p hp).trans hsum
  · rintro (hn | h) q hq
    · have hone : n = 1 := by omega
      subst hone
      obtain rfl : q = 0 := by omega
      rfl
    · exact sum_eq_zero fun p hp => h p (mem_range.mp (mem_of_mem_erase hp))

namespace Batch

/-- Orthogonal inputs overlap in the constant unit. -/
theorem overlap_orthogonal (h : Batch c x y) {mid : ℝ} (horthogonal : Orthogonal mid x) {p q : Nat} (hp : p < x.count)
    (hq : q < x.count) (hne : p ≠ q) : overlap mid (x.column p) (x.column q) = 1 := by
  have hlt : ∀ {p q : Nat}, p < q → q < x.count → overlap mid (x.column p) (x.column q) = 1 := by
    intro p q hpq hq
    have hp : p < x.count := hpq.trans hq
    have hpair := List.pairwise_iff_getElem.mp horthogonal p q hp hq hpq
    rw [overlap_eq (by rw [h.size_column hp, h.size_column hq]), Columns.column, Columns.column,
      List.getD_eq_getElem _ _ hp, List.getD_eq_getElem _ _ hq, hpair, zero_add]
  rcases Nat.lt_or_gt_of_ne hne with hpq | hpq
  · exact hlt hpq hq
  · rw [overlap_comm (by rw [h.size_column hp, h.size_column hq])]
    exact hlt hpq hp

/-- A batch of orthogonal inputs is recalled but for what the other associations add. -/
theorem out_hebbian_orthogonal (h : Batch c x y) (horthogonal : Orthogonal source.midpoint x) {i q : Nat}
    (hi : i < c.weights.height) (hq : q < x.count) :
    (flash .hebbian c x y source target).connection.out i (x.column q) =
      target.inverse ((y.column q).entry i) + ∑ p ∈ (range x.count).erase q, disturbance c x y source target i p := by
  have hne : x.patterns ≠ [] := fun hnil => by
    rw [Columns.count, hnil] at hq
    exact Nat.not_lt_zero q hq
  have hself : disturbance c x y source target i q * overlap source.midpoint (x.column q) (x.column q) =
      target.inverse ((y.column q).entry i) - c.out i (x.column q) := by
    have hone : (1 : ℝ) ≤ overlap source.midpoint (x.column q) (x.column q) := one_le_overlap_self _
    rw [disturbance, div_mul_cancel₀ _ (by linarith), residual]
  have hother : ∀ p ∈ (range x.count).erase q,
      residual c x y target i p / overlap source.midpoint (x.column p) (x.column p) *
        overlap source.midpoint (x.column p) (x.column q) = disturbance c x y source target i p := by
    intro p hp
    rw [mem_erase, mem_range] at hp
    rw [h.overlap_orthogonal horthogonal hp.2 hq hp.1, mul_one, disturbance]
  rw [h.out_hebbian hne hi (h.size_column hq), ← add_sum_erase _ _ (mem_range.mpr hq), sum_congr rfl hother,
    ← disturbance, hself]
  ring

end Batch

theorem flash?_of_targets (h : Batch c x y)
    (htargets : ∀ v ∈ y.patterns, ∀ i < c.weights.height, target.off ≤ v.entry i ∧ v.entry i ≤ target.on) :
    flash? rule c x y source target = .ok (flash rule c x y source target) := by
  by_cases hordered : target.ordered = true
  · exact h.flash?_eq hordered
  -- without a target within the levels there is no unit to write
  have hempty : x.count = 0 ∨ y.height = 0 := by
    by_contra hne
    rw [not_or] at hne
    obtain ⟨hoff, hon⟩ := htargets _ (Columns.column_mem (x := y) (p := 0) (by rw [← h.count]; omega)) 0
      (by rw [← h.height]; omega)
    exact hordered ((Scalar.le_eq_true _ _).mpr (hoff.trans hon))
  rw [flash?, h.fits_eq, if_neg (by simp), if_pos (hempty.imp_right .inl)]

/-- A batch of orthogonal inputs, written by the first rule into any connection, drives each unit to its
target but for what the other associations add to it; so it does exactly if there are no others,
or nothing was left to write. -/
theorem drive_hebbian_orthogonal (h : Batch c x y) (horthogonal : Orthogonal source.midpoint x)
    (htargets : ∀ v ∈ y.patterns, ∀ i < c.weights.height, target.off ≤ v.entry i ∧ v.entry i ≤ target.on) :
    ∃ f, flash? .hebbian c x y source target = .ok f ∧ ∀ i < c.weights.height,
      (∀ q < x.count, (f.connection.drive (x.column q)).entry i = target.inverse ((y.column q).entry i) +
        ∑ p ∈ (range x.count).erase q, (target.inverse ((y.column p).entry i) - (c.drive (x.column p)).entry i) /
          (∑ j ∈ range c.weights.width, ((x.column p).entry j - source.midpoint) ^ 2 + 1)) ∧
      ((∀ q < x.count, (f.connection.drive (x.column q)).entry i = target.inverse ((y.column q).entry i)) ↔
        x.count ≤ 1 ∨ ∀ p < x.count, (c.drive (x.column p)).entry i = target.inverse ((y.column p).entry i)) := by
  have hdrive : ∀ i < c.weights.height, ∀ q < x.count, (c.drive (x.column q)).entry i = c.out i (x.column q) :=
    fun i hi q hq => Connection.entry_drive h.fits (h.size_column hq) hi
  refine ⟨_, flash?_of_targets h htargets, fun i hi => ?_⟩
  have hafter : ∀ q < x.count, ((flash .hebbian c x y source target).connection.drive (x.column q)).entry i =
      target.inverse ((y.column q).entry i) + ∑ p ∈ (range x.count).erase q, disturbance c x y source target i p := by
    intro q hq
    rw [Connection.entry_drive (fits_flash h.fits h.height) (by rw [width_flash]; exact h.size_column hq)
      (by rw [height_flash]; exact hi), h.out_hebbian_orthogonal horthogonal hi hq]
  refine ⟨fun q hq => ?_, ?_⟩
  · rw [hafter q hq]
    congr 1
    refine sum_congr rfl fun p hp => ?_
    have hp : p < x.count := mem_range.mp (mem_of_mem_erase hp)
    rw [disturbance, residual, hdrive i hi p hp, overlap_eq rfl, h.size_column hp]
    simp only [pow_two]
  · have hsum : (∀ q < x.count, ((flash .hebbian c x y source target).connection.drive (x.column q)).entry i =
        target.inverse ((y.column q).entry i)) ↔
        ∀ q < x.count, ∑ p ∈ (range x.count).erase q, disturbance c x y source target i p = 0 :=
      forall₂_congr fun q hq => by rw [hafter q hq, add_eq_left]
    rw [hsum, sum_erase_eq_zero_iff]
    refine or_congr_right (forall₂_congr fun p hp => ?_)
    have hone : (1 : ℝ) ≤ overlap source.midpoint (x.column p) (x.column p) := one_le_overlap_self _
    rw [disturbance, div_eq_zero_iff, or_iff_left (by linarith), residual, sub_eq_zero, hdrive i hi p hp, eq_comm]

/-! ### Three inputs on two units -/

/-- Both units alone, and neither. -/
noncomputable def corner : Columns ℝ := ⟨2, [#[1, 0], #[0, 1], #[0, 0]]⟩

/-- The first input is to be told from the others. -/
noncomputable def cornerTargets : Columns ℝ := ⟨1, [true, false, false].map fun b => (standard : Activator ℝ).pattern [b]⟩

theorem batch_corner : Batch (.zero 1 2) corner cornerTargets := by
  refine ⟨Connection.fits_zero 1 2, rfl, rfl, fun u hu => ?_, rfl⟩
  simp only [corner, List.mem_cons, List.not_mem_nil, or_false] at hu
  rcases hu with rfl | rfl | rfl <;> rfl

theorem orthogonal_corner : Orthogonal (standard : Activator ℝ).midpoint corner := by
  have hmid : (standard : Activator ℝ).midpoint = 0 := midpoint_tanh rfl
  simp [Orthogonal, corner, hmid, Finset.sum_range_succ, entry]

theorem cornerTargets_mem : ∀ v ∈ cornerTargets.patterns, ∀ i < (Connection.zero 1 2 : Connection ℝ).weights.height,
    (standard : Activator ℝ).off ≤ v.entry i ∧ v.entry i ≤ (standard : Activator ℝ).on := by
  have hlevels := proper_standard.off_lt_on.le
  intro v hv i hi
  obtain rfl : i = 0 := Nat.lt_one_iff.mp hi
  obtain ⟨b, -, rfl⟩ := List.mem_map.mp hv
  have hentry : ((standard : Activator ℝ).pattern [b]).entry 0 = (standard : Activator ℝ).level b :=
    entry_pattern _ (Nat.lt_succ_self 0)
  rw [hentry]
  cases b with
  | true => exact ⟨hlevels, le_rfl⟩
  | false => exact ⟨le_rfl, hlevels⟩

theorem inverse_cornerTargets (b : Bool) {q : Nat} (h : cornerTargets.column q = (standard : Activator ℝ).pattern [b]) :
    (standard : Activator ℝ).inverse ((cornerTargets.column q).entry 0) = sign b * (standard : Activator ℝ).depth := by
  have hentry : (cornerTargets.column q).entry 0 = (standard : Activator ℝ).level b := by
    rw [h]
    exact entry_pattern _ (Nat.lt_succ_self 0)
  rw [hentry, proper_standard.inverse_level]

theorem residual_corner (b : Bool) {q : Nat} (h : cornerTargets.column q = (standard : Activator ℝ).pattern [b]) :
    residual (.zero 1 2) corner cornerTargets standard 0 q = sign b * (standard : Activator ℝ).depth := by
  rw [residual, inverse_cornerTargets b h, Connection.out_zero, sub_zero]

/-- Written into a connection without weights, not all of them are driven to their targets. -/
theorem corner_missed : Batch (.zero 1 2) corner cornerTargets ∧ Orthogonal (standard : Activator ℝ).midpoint corner ∧
    (∀ v ∈ cornerTargets.patterns, ∀ i < (Connection.zero 1 2 : Connection ℝ).weights.height,
      (standard : Activator ℝ).off ≤ v.entry i ∧ v.entry i ≤ (standard : Activator ℝ).on) ∧
    ∃ f, flash? .hebbian (.zero 1 2) corner cornerTargets standard standard = .ok f ∧
      ¬ ∀ q < corner.count, (f.connection.drive (corner.column q)).entry 0 =
        (standard : Activator ℝ).inverse ((cornerTargets.column q).entry 0) := by
  obtain ⟨f, hf, hdrives⟩ := drive_hebbian_orthogonal batch_corner orthogonal_corner cornerTargets_mem
  refine ⟨batch_corner, orthogonal_corner, cornerTargets_mem, f, hf, fun hall => ?_⟩
  rcases (hdrives 0 Nat.one_pos).2.mp hall with hcount | hdriven
  · exact absurd hcount (by decide)
  · have hfirst := hdriven 0 (by decide)
    rw [inverse_cornerTargets true rfl, Connection.entry_drive (Connection.fits_zero 1 2) rfl Nat.one_pos,
      Connection.out_zero, sign_true, one_mul] at hfirst
    exact proper_standard.depth_pos.ne hfirst

/-- The first of three orthogonal inputs is driven to the wrong side. -/
theorem orthogonal_inputs_disturb : Batch (.zero 1 2) corner cornerTargets ∧
    Orthogonal (standard : Activator ℝ).midpoint corner ∧
    ∃ f, flash? .hebbian (.zero 1 2) corner cornerTargets standard standard = .ok f ∧
      (f.connection.drive (corner.column 0)).entry 0 < 0 ∧
      0 < (standard : Activator ℝ).inverse ((cornerTargets.column 0).entry 0) := by
  have hdepth := proper_standard.depth_pos
  refine ⟨batch_corner, orthogonal_corner, _, flash?_of_targets batch_corner cornerTargets_mem, ?_, ?_⟩
  · have hmid : (standard : Activator ℝ).midpoint = 0 := midpoint_tanh rfl
    have hsecond : overlap (standard : Activator ℝ).midpoint (corner.column 1) (corner.column 1) = 2 := by
      rw [overlap_eq rfl, hmid]
      simp only [corner, Columns.column, List.getD_cons_succ, List.getD_cons_zero, List.size_toArray, List.length_cons,
        List.length_nil, Finset.sum_range_succ, Finset.sum_range_zero, entry]
      norm_num
    have hthird : overlap (standard : Activator ℝ).midpoint (corner.column 2) (corner.column 2) = 1 := by
      rw [overlap_eq rfl, hmid]
      simp only [corner, Columns.column, List.getD_cons_succ, List.getD_cons_zero, List.size_toArray, List.length_cons,
        List.length_nil, Finset.sum_range_succ, Finset.sum_range_zero, entry]
      norm_num
    have hothers : (range corner.count).erase 0 = {1, 2} := by decide
    rw [Connection.entry_drive (fits_flash (Connection.fits_zero 1 2) rfl) (by rw [width_flash]; rfl)
      (by rw [height_flash]; exact Nat.one_pos), batch_corner.out_hebbian_orthogonal orthogonal_corner Nat.one_pos (by decide),
      hothers, sum_pair (by decide), disturbance, disturbance, residual_corner false rfl, residual_corner false rfl, hsecond,
      hthird, inverse_cornerTargets true rfl]
    simp only [sign_true, sign_false]
    linarith
  · rw [inverse_cornerTargets true rfl, sign_true, one_mul]
    exact hdepth

end Association

end Engram
