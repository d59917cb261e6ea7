/-
  Engram.Proofs.Exact.Repeating — what writing a batch a second time changes.

  A flash adds to each row a combination of the inputs, with coefficients that come from what the
  row does not produce yet. So the second flash of a batch writes what the first one left, and
  nothing when nothing was left. How far it moves a weight is bounded by the extent of its
  combination, and a bias by a multiple of that (`abs_weight_sub_le`, `abs_bias_sub_le`).

    hebbian     the first flash leaves of each column the crosstalk of the others, with the sign
                turned (`residual_hebbian`), and the second moves a row by no more than all crosstalk,
                each over the length of its input (`extent_hebbian_le`)
    rehebbian   of a residual the ridge leaves the more, the closer the inputs are to being
                dependent. Let no combination of them overlap with the inputs by less than a floor
                allows: then the second flash moves a row by no more than ridge |E| over
                √floor (floor + ridge) (`extent_rehebbian_le`)

  Where this is less than 10⁻⁸ a second flash changes no weight and no bias by that much
  (`flash_again`). In general it does: by the first rule an input that is stored twice is
  driven to twice its target and then back to zero, and by the second one two inputs that hardly
  differ are told apart in many steps (`flash_again_changes`).
-/

import Engram.Proofs.Exact.Regression

namespace Engram

open Finset Pattern Activator

namespace Association

variable {c d : Connection ℝ} {x y : Columns ℝ} {source target : Activator ℝ} {mid : ℝ}

/-! ## The extent of a combination -/

/-- The length of the combination of the inputs with the given coefficients. -/
noncomputable def extent (mid : ℝ) (x : Columns ℝ) (v : Nat → ℝ) : ℝ :=
  √(∑ q ∈ range x.count, v q * overlaps mid x v q)

/-- How much further than the weights of a row its bias can be moved, with inputs of `n` units. -/
noncomputable def stretch (mid : ℝ) (n : Nat) : ℝ := √(1 + n * mid ^ 2)

theorem extent_nonneg (mid : ℝ) (x : Columns ℝ) (v : Nat → ℝ) : 0 ≤ extent mid x v := Real.sqrt_nonneg _

theorem one_le_stretch (mid : ℝ) (n : Nat) : 1 ≤ stretch mid n :=
  Real.one_le_sqrt.mpr (le_add_of_nonneg_right (by positivity))

theorem entry_extend_lt {x : Pattern ℝ} {k : Nat} (hk : k < x.size) : (extend mid x).entry k = x.entry k - mid := by
  rw [extend, entry_push_lt _ (by simpa using hk), entry_map _ hk]

theorem entry_extend_size (x : Pattern ℝ) : (extend mid x).entry x.size = 1 := by
  have h := entry_push_size (x.map (· - mid)) (1 : ℝ)
  rwa [Array.size_map] at h

namespace Batch

theorem sq_extent (h : Batch c x y) (v : Nat → ℝ) :
    extent mid x v ^ 2 = ∑ q ∈ range x.count, v q * overlaps mid x v q := by
  rw [extent, Real.sq_sqrt]
  rw [h.sum_mul_overlaps_self]
  exact sum_nonneg fun k _ => sq_nonneg _

theorem sq_extent_eq (h : Batch c x y) (v : Nat → ℝ) :
    extent mid x v ^ 2 = ∑ k ∈ range (c.weights.width + 1), combined mid x v k ^ 2 := by
  rw [h.sq_extent, h.sum_mul_overlaps_self]

/-- The product of two combinations is no more than that of their extents. -/
theorem sq_sum_mul_overlaps_le (h : Batch c x y) (v w : Nat → ℝ) :
    (∑ q ∈ range x.count, w q * overlaps mid x v q) ^ 2 ≤ extent mid x w ^ 2 * extent mid x v ^ 2 := by
  rw [h.sum_mul_overlaps, h.sq_extent_eq, h.sq_extent_eq]
  exact sum_mul_sq_le_sq_mul_sq _ _ _

/-- A combination overlaps with an input by no more than the product of their lengths. -/
theorem abs_overlaps_le (h : Batch c x y) (v : Nat → ℝ) {q : Nat} (hq : q < x.count) :
    |overlaps mid x v q| ≤ extent mid x v * √(overlap mid (x.column q) (x.column q)) := by
  refine abs_le_of_sq_le_sq ?_ (mul_nonneg (extent_nonneg _ _ _) (Real.sqrt_nonneg _))
  rw [mul_pow, Real.sq_sqrt (zero_le_one.trans (one_le_overlap_self _)), h.sq_extent_eq, h.overlaps_eq_sum v hq,
    h.overlap_eq_sum hq (h.size_column hq)]
  simp only [← pow_two]
  exact sum_mul_sq_le_sq_mul_sq _ _ _

/-- The extent is no more than that of the inputs one by one. -/
theorem extent_le (h : Batch c x y) (v : Nat → ℝ) :
    extent mid x v ≤ ∑ q ∈ range x.count, |v q| * √(overlap mid (x.column q) (x.column q)) := by
  have hbound : extent mid x v ^ 2 ≤
      extent mid x v * ∑ q ∈ range x.count, |v q| * √(overlap mid (x.column q) (x.column q)) := by
    rw [h.sq_extent, mul_sum]
    refine sum_le_sum fun q hq => ?_
    calc v q * overlaps mid x v q ≤ |v q| * |overlaps mid x v q| := (le_abs_self _).trans_eq (abs_mul _ _)
      _ ≤ |v q| * (extent mid x v * √(overlap mid (x.column q) (x.column q))) :=
        mul_le_mul_of_nonneg_left (h.abs_overlaps_le v (mem_range.mp hq)) (abs_nonneg _)
      _ = extent mid x v * (|v q| * √(overlap mid (x.column q) (x.column q))) := by ring
  rcases (extent_nonneg mid x v).eq_or_lt with hzero | hpos
  · rw [← hzero]
    exact sum_nonneg fun q _ => mul_nonneg (abs_nonneg _) (Real.sqrt_nonneg _)
  · rw [pow_two] at hbound
    exact le_of_mul_le_mul_left hbound hpos

end Batch

/-! ## What a combination changes -/

/-- A pattern overlaps with no activity in the constant unit, and by the midpoint in all others. -/
theorem overlap_zero_pattern (x : Pattern ℝ) :
    overlap mid x (.zero x.size) = 1 - mid * ∑ k ∈ range x.size, (extend mid x).entry k := by
  have hunit : ∀ k ∈ range x.size, (x.entry k - mid) * ((Pattern.zero x.size).entry k - mid) =
      -mid * (extend mid x).entry k := by
    intro k hk
    rw [entry_zero, entry_extend_lt (mem_range.mp hk)]
    ring
  rw [overlap_eq (size_zero _).symm, sum_congr rfl hunit, ← mul_sum]
  ring

/-- A unit at one adds what the pattern has there. -/
theorem overlap_single (x : Pattern ℝ) {j : Nat} (hj : j < x.size) :
    overlap mid x (Pattern.single x.size j) = overlap mid x (.zero x.size) + (extend mid x).entry j := by
  have hunit : ∀ k ∈ range x.size, (x.entry k - mid) * ((Pattern.single x.size j).entry k - mid) =
      (x.entry k - mid) * ((Pattern.zero x.size).entry k - mid) + if j = k then x.entry k - mid else 0 := by
    intro k hk
    rw [entry_single j (mem_range.mp hk), entry_zero]
    by_cases hjk : j = k
    · rw [if_pos hjk, if_pos hjk.symm]
      ring
    · rw [if_neg hjk, if_neg (Ne.symm hjk)]
      ring
  rw [overlap_eq (size_single _ _).symm, overlap_eq (size_zero _).symm, sum_congr rfl hunit, sum_add_distrib, sum_ite_eq,
    if_pos (mem_range.mpr hj), entry_extend_lt hj]
  ring

namespace Batch

/-- A row that produces a combination of overlaps more has moved by the combination. -/
theorem weight_sub (h : Batch c x y) (hwidth : d.weights.width = c.weights.width) {i : Nat} {v : Nat → ℝ}
    (hout : ∀ u : Pattern ℝ, u.size = c.weights.width →
      d.out i u = c.out i u + ∑ p ∈ range x.count, v p * overlap mid (x.column p) u) :
    (∀ j < c.weights.width, d.weights.entry i j - c.weights.entry i j = combined mid x v j) ∧
    d.bias.entry i - c.bias.entry i = combined mid x v c.weights.width -
      mid * ∑ k ∈ range c.weights.width, combined mid x v k := by
  have hzero := hout _ (size_zero _)
  have hbias : d.bias.entry i = c.bias.entry i +
      ∑ p ∈ range x.count, v p * overlap mid (x.column p) (.zero c.weights.width) := by
    rw [← Connection.out_zero_pattern, ← Connection.out_zero_pattern, hwidth]
    exact hzero
  constructor
  · intro j hj
    have hsingle := hout _ (size_single _ j)
    rw [Connection.out_single c i hj, ← hwidth, Connection.out_single d i (hwidth ▸ hj), hwidth, hbias] at hsingle
    have hterm : ∀ p ∈ range x.count, v p * overlap mid (x.column p) (Pattern.single c.weights.width j) =
        v p * overlap mid (x.column p) (.zero c.weights.width) + v p * (extend mid (x.column p)).entry j := by
      intro p hp
      rw [← h.size_column (mem_range.mp hp)] at hj ⊢
      rw [overlap_single _ hj, mul_add]
    rw [sum_congr rfl hterm, sum_add_distrib, ← combined] at hsingle
    linarith
  · have hterm : ∀ p ∈ range x.count, v p * overlap mid (x.column p) (.zero c.weights.width) =
        v p * (extend mid (x.column p)).entry c.weights.width -
          mid * ∑ k ∈ range c.weights.width, v p * (extend mid (x.column p)).entry k := by
      intro p hp
      rw [← h.size_column (mem_range.mp hp), overlap_zero_pattern, entry_extend_size, ← mul_sum]
      ring
    rw [hbias, sum_congr rfl hterm, sum_sub_distrib, ← combined, ← mul_sum, sum_comm]
    simp only [combined]
    ring

/-- No weight moves by more than the extent. -/
theorem abs_weight_sub_le (h : Batch c x y) (hwidth : d.weights.width = c.weights.width) {i : Nat} {v : Nat → ℝ}
    (hout : ∀ u : Pattern ℝ, u.size = c.weights.width →
      d.out i u = c.out i u + ∑ p ∈ range x.count, v p * overlap mid (x.column p) u) {j : Nat} (hj : j < c.weights.width) :
    |d.weights.entry i j - c.weights.entry i j| ≤ extent mid x v := by
  rw [(h.weight_sub hwidth hout).1 j hj]
  refine abs_le_of_sq_le_sq ?_ (extent_nonneg _ _ _)
  rw [h.sq_extent_eq]
  exact single_le_sum (f := fun k => combined mid x v k ^ 2) (fun k _ => sq_nonneg _) (mem_range.mpr (hj.trans (Nat.lt_succ_self _)))

/-- A bias moves by no more than the extent, stretched. -/
theorem abs_bias_sub_le (h : Batch c x y) (hwidth : d.weights.width = c.weights.width) {i : Nat} {v : Nat → ℝ}
    (hout : ∀ u : Pattern ℝ, u.size = c.weights.width →
      d.out i u = c.out i u + ∑ p ∈ range x.count, v p * overlap mid (x.column p) u) :
    |d.bias.entry i - c.bias.entry i| ≤ stretch mid c.weights.width * extent mid x v := by
  -- the change as a product with the constant unit less the midpoint in all others
  let t : Nat → ℝ := fun k => if k < c.weights.width then -mid else 1
  have hlt : ∀ k ∈ range c.weights.width, t k = -mid := fun k hk => if_pos (mem_range.mp hk)
  have hlast : t c.weights.width = 1 := if_neg (Nat.lt_irrefl _)
  have hchange : d.bias.entry i - c.bias.entry i = ∑ k ∈ range (c.weights.width + 1), t k * combined mid x v k := by
    have hrest : ∑ k ∈ range c.weights.width, t k * combined mid x v k = -mid * ∑ k ∈ range c.weights.width, combined mid x v k := by
      rw [mul_sum]
      exact sum_congr rfl fun k hk => by rw [hlt k hk]
    rw [(h.weight_sub hwidth hout).2, sum_range_succ, hlast, hrest]
    ring
  have hlength : ∑ k ∈ range (c.weights.width + 1), t k ^ 2 = 1 + c.weights.width * mid ^ 2 := by
    rw [sum_range_succ, hlast, sum_congr rfl fun k hk => by rw [hlt k hk], sum_const, card_range, nsmul_eq_mul]
    ring
  refine abs_le_of_sq_le_sq ?_ (mul_nonneg (Real.sqrt_nonneg _) (extent_nonneg _ _ _))
  rw [hchange, mul_pow, stretch, Real.sq_sqrt (by positivity), ← hlength, h.sq_extent_eq]
  exact sum_mul_sq_le_sq_mul_sq _ _ _

end Batch

/-! ## The first rule -/

/-- What the other associations of a batch add to what a row produces for a column. -/
noncomputable def crosstalk (c : Connection ℝ) (x y : Columns ℝ) (source target : Activator ℝ) (i q : Nat) : ℝ :=
  ∑ p ∈ (range x.count).erase q, residual c x y target i p / overlap source.midpoint (x.column p) (x.column p) *
    overlap source.midpoint (x.column p) (x.column q)

/-- The coefficients that the first rule writes with. -/
noncomputable def shares (c : Connection ℝ) (x y : Columns ℝ) (source target : Activator ℝ) (i p : Nat) : ℝ :=
  residual c x y target i p / overlap source.midpoint (x.column p) (x.column p)

namespace Batch

/-- The first rule leaves of each column what the others add to it. -/
theorem residual_hebbian (h : Batch c x y) (hne : x.patterns ≠ []) {i q : Nat} (hi : i < c.weights.height) (hq : q < x.count) :
    residual (Association.flash .hebbian c x y source target).connection x y target i q = -crosstalk c x y source target i q := by
  have hself : shares c x y source target i q * overlap source.midpoint (x.column q) (x.column q) =
      residual c x y target i q := div_mul_cancel₀ _ (zero_lt_one.trans_le (one_le_overlap_self _)).ne'
  rw [residual, h.out_hebbian hne hi (h.size_column hq), ← add_sum_erase _ _ (mem_range.mpr hq), ← crosstalk, ← shares, hself,
    residual]
  ring

/-- What the second flash by the first rule moves a row by. -/
theorem extent_hebbian_le (h : Batch c x y) (hne : x.patterns ≠ []) {i : Nat} (hi : i < c.weights.height) :
    extent source.midpoint x (shares (Association.flash .hebbian c x y source target).connection x y source target i) ≤
      ∑ q ∈ range x.count, |crosstalk c x y source target i q| / √(overlap source.midpoint (x.column q) (x.column q)) := by
  refine (h.extent_le _).trans_eq (sum_congr rfl fun q hq => ?_)
  have hpos : (0 : ℝ) < overlap source.midpoint (x.column q) (x.column q) := zero_lt_one.trans_le (one_le_overlap_self _)
  rw [shares, h.residual_hebbian hne hi (mem_range.mp hq), abs_div, abs_neg, abs_of_pos hpos, div_mul_eq_mul_div,
    div_eq_div_iff hpos.ne' (Real.sqrt_pos.mpr hpos).ne', mul_assoc, Real.mul_self_sqrt hpos.le]

end Batch

/-! ## The second rule -/

/-- No combination of the inputs, that is not zero, overlaps with them by less than a floor allows: the matrix of their
overlaps has no eigenvalue between zero and the floor. -/
def Floor (mid : ℝ) (x : Columns ℝ) (floor : ℝ) : Prop :=
  ∀ v : Nat → ℝ, floor * ∑ q ∈ range x.count, v q * overlaps mid x v q ≤ ∑ q ∈ range x.count, overlaps mid x v q ^ 2

/-- Two solutions one after the other, the second of what the first one leaves. -/
theorem Batch.extent_rehebbian_le (h : Batch c x y) {floor r : ℝ} (hfloor : 0 < floor) (hspread : Floor mid x floor) (hr : 0 < r)
    {z w e : Nat → ℝ} (hz : ∀ q < x.count, overlaps mid x z q + r * z q = e q)
    (hw : ∀ q < x.count, overlaps mid x w q + r * w q = r * z q) :
    √floor * (floor + r) * extent mid x w ≤ r * √(∑ q ∈ range x.count, e q ^ 2) := by
  let left : Nat → ℝ := fun q => r * z q
  -- what is left is no longer than what there was, as far as the inputs tell it
  have hfirst : floor * extent mid x left ^ 2 ≤ r ^ 2 * ∑ q ∈ range x.count, e q ^ 2 := by
    have hscaled : ∀ q, overlaps mid x left q = r * overlaps mid x z q := by
      intro q
      rw [overlaps, overlaps, mul_sum]
      exact sum_congr rfl fun p _ => mul_assoc _ _ _
    have hsquares : ∑ q ∈ range x.count, overlaps mid x left q ^ 2 = r ^ 2 * ∑ q ∈ range x.count, overlaps mid x z q ^ 2 := by
      rw [mul_sum]
      exact sum_congr rfl fun q _ => by rw [hscaled, mul_pow]
    have hle := sum_sq_ridge_le h hr.le hz
    have hrest : 0 ≤ ∑ q ∈ range x.count, (r * z q) ^ 2 := sum_nonneg fun q _ => sq_nonneg _
    rw [h.sq_extent]
    refine (hspread left).trans (hsquares.trans_le (mul_le_mul_of_nonneg_left (by linarith) (sq_nonneg r)))
  -- and the second solution is shorter than that by the floor and the ridge
  have hsecond : (floor + r) ^ 2 * extent mid x w ^ 2 ≤ extent mid x left ^ 2 := by
    have hproduct : (floor + r) * extent mid x w ^ 2 ≤ ∑ q ∈ range x.count, left q * overlaps mid x w q := by
      have hterm : ∀ q ∈ range x.count, left q * overlaps mid x w q =
          overlaps mid x w q ^ 2 + r * (w q * overlaps mid x w q) := by
        intro q hq
        rw [show left q = overlaps mid x w q + r * w q from (hw q (mem_range.mp hq)).symm]
        ring
      have := hspread w
      rw [sum_congr rfl hterm, sum_add_distrib, ← mul_sum, h.sq_extent, add_mul]
      linarith
    rcases (sq_nonneg (extent mid x w)).eq_or_lt with hzero | hpos
    · rw [← hzero, mul_zero]
      exact sq_nonneg _
    · have hnonneg : 0 ≤ (floor + r) * extent mid x w ^ 2 := by positivity
      have hsq : ((floor + r) * extent mid x w ^ 2) ^ 2 ≤ extent mid x left ^ 2 * extent mid x w ^ 2 :=
        (pow_le_pow_left₀ hnonneg hproduct 2).trans (h.sq_sum_mul_overlaps_le w left)
      refine le_of_mul_le_mul_right ?_ hpos
      calc (floor + r) ^ 2 * extent mid x w ^ 2 * extent mid x w ^ 2 = ((floor + r) * extent mid x w ^ 2) ^ 2 := by ring
        _ ≤ extent mid x left ^ 2 * extent mid x w ^ 2 := hsq
  have hsum : 0 ≤ ∑ q ∈ range x.count, e q ^ 2 := sum_nonneg fun q _ => sq_nonneg _
  refine abs_le_of_sq_le_sq' ?_ (mul_nonneg hr.le (Real.sqrt_nonneg _)) |>.2
  calc (√floor * (floor + r) * extent mid x w) ^ 2 = floor * ((floor + r) ^ 2 * extent mid x w ^ 2) := by
        rw [mul_pow, mul_pow, Real.sq_sqrt hfloor.le]
        ring
    _ ≤ floor * extent mid x left ^ 2 := mul_le_mul_of_nonneg_left hsecond hfloor.le
    _ ≤ r ^ 2 * ∑ q ∈ range x.count, e q ^ 2 := hfirst
    _ = (r * √(∑ q ∈ range x.count, e q ^ 2)) ^ 2 := by rw [mul_pow, Real.sq_sqrt hsum]

/-! ## A second flash -/

/-- The coefficients that the second flash of a batch writes row `i` with. -/
def Rewrites (rule : Rule) (c : Connection ℝ) (x y : Columns ℝ) (source target : Activator ℝ) (i : Nat) (v : Nat → ℝ) : Prop :=
  match rule with
  | .hebbian => ∀ q < x.count,
      v q = -crosstalk c x y source target i q / overlap source.midpoint (x.column q) (x.column q)
  | .rehebbian => ∃ z : Nat → ℝ, ∀ q < x.count,
      overlaps source.midpoint x z q + ridge source.midpoint x * z q = residual c x y target i q ∧
      overlaps source.midpoint x v q + ridge source.midpoint x * v q = ridge source.midpoint x * z q

/-- The first flash leaves so little of row `i` that the second one moves it by less than `ε`. -/
def Stays (rule : Rule) (c : Connection ℝ) (x y : Columns ℝ) (source target : Activator ℝ) (ε : ℝ) (i : Nat) : Prop :=
  match rule with
  | .hebbian => stretch source.midpoint c.weights.width * ∑ q ∈ range x.count, |crosstalk c x y source target i q| /
      √(overlap source.midpoint (x.column q) (x.column q)) < ε
  | .rehebbian => ∃ floor : ℝ, 0 < floor ∧ Floor source.midpoint x floor ∧
      stretch source.midpoint c.weights.width * (ridge source.midpoint x * √(∑ q ∈ range x.count, residual c x y target i q ^ 2)) <
        ε * (√floor * (floor + ridge source.midpoint x))

namespace Batch

/-- The second flash adds the combination with these coefficients, and its extent is small where a row stays. -/
theorem exists_rewrites (h : Batch c x y) (rule : Rule) (source target : Activator ℝ) {i : Nat} (hi : i < c.weights.height) :
    ∃ v, Rewrites rule c x y source target i v ∧
      (∀ u : Pattern ℝ, u.size = c.weights.width →
        (Association.flash rule (Association.flash rule c x y source target).connection x y source target).connection.out i u =
          (Association.flash rule c x y source target).connection.out i u +
            ∑ p ∈ range x.count, v p * overlap source.midpoint (x.column p) u) ∧
      (∀ ε, 0 < ε → Stays rule c x y source target ε i →
        stretch source.midpoint c.weights.width * extent source.midpoint x v < ε) := by
  have hstretch := one_le_stretch source.midpoint c.weights.width
  have honce := h.flash rule source target
  have hheight : (Association.flash rule c x y source target).connection.weights.height = c.weights.height := height_flash ..
  have hwidth : (Association.flash rule c x y source target).connection.weights.width = c.weights.width := width_flash ..
  by_cases hne : x.patterns = []
  · have hcount : x.count = 0 := by rw [Columns.count, hne]; rfl
    refine ⟨0, ?_, fun u _ => ?_, fun ε hε _ => ?_⟩
    · cases rule with
      | hebbian => exact fun q hq => absurd (hcount ▸ hq) (Nat.not_lt_zero q)
      | rehebbian => exact ⟨0, fun q hq => absurd (hcount ▸ hq) (Nat.not_lt_zero q)⟩
    · rw [flash_nil rule source target hne, flash_nil rule source target hne, hcount, sum_range_zero, add_zero]
    · rwa [extent, hcount, sum_range_zero, Real.sqrt_zero, mul_zero]
  cases rule with
  | hebbian =>
    refine ⟨shares (Association.flash .hebbian c x y source target).connection x y source target i, fun q hq => ?_, ?_,
      fun ε _ hstays => ?_⟩
    · rw [shares, h.residual_hebbian hne hi hq]
    · exact fun u hu => honce.out_hebbian hne (hheight ▸ hi) (hwidth ▸ hu)
    · exact (mul_le_mul_of_nonneg_left (h.extent_hebbian_le hne hi) (zero_le_one.trans hstretch)).trans_lt hstays
  | rehebbian =>
    obtain ⟨z, hz⟩ := h.exists_coefficients hne source target
    obtain ⟨w, hw⟩ := honce.exists_coefficients hne source target
    have hleft : ∀ q < x.count, overlaps source.midpoint x (w i) q + ridge source.midpoint x * w i q =
        ridge source.midpoint x * z i q := fun q hq =>
      ((hw i (hheight ▸ hi)).2 q hq).trans (h.residual_flash hq (hz i hi).1 ((hz i hi).2 q hq))
    refine ⟨w i, ⟨z i, fun q hq => ⟨(hz i hi).2 q hq, hleft q hq⟩⟩, fun u hu => ?_, ?_⟩
    · exact (hw i (hheight ▸ hi)).1 u (hwidth ▸ hu)
    · rintro ε - ⟨floor, hfloor, hspread, hsmall⟩
      have hridge := ridge_pos hne source
      have hscale : 0 < √floor * (floor + ridge source.midpoint x) :=
        mul_pos (Real.sqrt_pos.mpr hfloor) (add_pos hfloor hridge)
      have hextent := h.extent_rehebbian_le hfloor hspread hridge (hz i hi).2 hleft
      refine lt_of_mul_lt_mul_right ?_ hscale.le
      calc stretch source.midpoint c.weights.width * extent source.midpoint x (w i) * (√floor * (floor + ridge source.midpoint x))
          = stretch source.midpoint c.weights.width *
              (√floor * (floor + ridge source.midpoint x) * extent source.midpoint x (w i)) := by ring
        _ ≤ stretch source.midpoint c.weights.width *
              (ridge source.midpoint x * √(∑ q ∈ range x.count, residual c x y target i q ^ 2)) :=
            mul_le_mul_of_nonneg_left hextent (zero_le_one.trans hstretch)
        _ < ε * (√floor * (floor + ridge source.midpoint x)) := hsmall

end Batch

/-- Flashing the same batch again adds to each row the combination of its inputs that writes what the first flash left.
It changes no weight and no bias of a row by 10⁻⁸ or more where the first flash left as little as `Stays` says, and
nothing at all where it left nothing. -/
theorem flash_again (h : Batch c x y) (rule : Rule) (source : Activator ℝ) (htarget : target.Proper) :
    ∃ once again, flash? rule c x y source target = .ok once ∧ flash? rule once.connection x y source target = .ok again ∧
      (∀ i < c.weights.height, ∃ v, Rewrites rule c x y source target i v ∧
        (∀ j < c.weights.width, again.connection.weights.entry i j - once.connection.weights.entry i j =
          combined source.midpoint x v j) ∧
        again.connection.bias.entry i - once.connection.bias.entry i = combined source.midpoint x v c.weights.width -
          source.midpoint * ∑ k ∈ range c.weights.width, combined source.midpoint x v k) ∧
      (∀ i < c.weights.height, Stays rule c x y source target (1 / 10 ^ 8) i →
        (∀ j < c.weights.width, |again.connection.weights.entry i j - once.connection.weights.entry i j| < 1 / 10 ^ 8) ∧
        |again.connection.bias.entry i - once.connection.bias.entry i| < 1 / 10 ^ 8) ∧
      ((∀ i < c.weights.height, ∀ p < x.count, residual once.connection x y target i p = 0) →
        again.connection = once.connection) := by
  have hordered : target.ordered = true := (Scalar.le_eq_true _ _).mpr htarget.off_lt_on.le
  have honce := h.flash rule source target
  have hheight : (flash rule c x y source target).connection.weights.height = c.weights.height := height_flash ..
  have hwidth : (flash rule c x y source target).connection.weights.width = c.weights.width := width_flash ..
  have hwidth' : (flash rule (flash rule c x y source target).connection x y source target).connection.weights.width =
      (flash rule c x y source target).connection.weights.width := width_flash ..
  refine ⟨_, _, h.flash?_eq hordered, honce.flash?_eq hordered, fun i hi => ?_, fun i hi hstays => ?_, fun hlearned => ?_⟩
  · obtain ⟨v, hv, hout, -⟩ := h.exists_rewrites rule source target hi
    refine ⟨v, hv, ?_⟩
    rw [← hwidth] at hout ⊢
    exact honce.weight_sub hwidth' hout
  · obtain ⟨v, -, hout, hbound⟩ := h.exists_rewrites rule source target hi
    have hsmall := hbound _ (by norm_num) hstays
    rw [← hwidth] at hout hsmall ⊢
    have hextent : extent source.midpoint x v ≤ stretch source.midpoint (flash rule c x y source target).connection.weights.width *
        extent source.midpoint x v := le_mul_of_one_le_left (extent_nonneg _ _ _) (one_le_stretch _ _)
    exact ⟨fun j hj => ((honce.abs_weight_sub_le hwidth' hout hj).trans hextent).trans_lt hsmall,
      (honce.abs_bias_sub_le hwidth' hout).trans_lt hsmall⟩
  · exact honce.flash_learned rule source fun i hi p hp => hlearned i (hheight ▸ hi) p hp

/-! ### Two inputs around the midpoint -/

/-- One unit below and above the midpoint. -/
noncomputable def opposed (e : ℝ) : Columns ℝ := ⟨1, [#[e], #[-e]]⟩

theorem batch_opposed (e : ℝ) : Batch (.zero 1 1) (opposed e) (unitTargets [true, false]) := by
  refine ⟨Connection.fits_zero 1 1, rfl, rfl, fun u hu => ?_, rfl⟩
  simp only [opposed, List.mem_cons, List.not_mem_nil, or_false] at hu
  rcases hu with rfl | rfl
  · rfl
  · rfl

theorem overlap_opposed (e : ℝ) {p q : Nat} (hp : p < 2) (hq : q < 2) :
    overlap (standard : Activator ℝ).midpoint ((opposed e).column p) ((opposed e).column q) =
      if p = q then 1 + e ^ 2 else 1 - e ^ 2 := by
  have hcolumn : ∀ p < 2, (opposed e).column p = #[if p = 0 then e else -e] := by
    intro p hp
    obtain rfl | rfl : p = 0 ∨ p = 1 := by omega
    · rfl
    · rfl
  rw [hcolumn p hp, hcolumn q hq, overlap_eq (by simp), midpoint_tanh rfl, List.size_toArray, List.length_singleton,
    sum_range_one, entry_singleton, entry_singleton]
  obtain rfl | rfl : p = 0 ∨ p = 1 := by omega
  all_goals obtain rfl | rfl : q = 0 ∨ q = 1 := by omega
  all_goals norm_num
  all_goals ring

theorem ridge_opposed (e : ℝ) : ridge (standard : Activator ℝ).midpoint (opposed e) = (1 + e ^ 2) / 10 ^ 10 := by
  have hset : {g | ∃ u ∈ (opposed e).patterns, overlap (standard : Activator ℝ).midpoint u u = g} = {1 + e ^ 2} := by
    have hfirst : overlap (standard : Activator ℝ).midpoint #[e] #[e] = 1 + e ^ 2 := overlap_opposed e Nat.two_pos Nat.two_pos
    have hsecond : overlap (standard : Activator ℝ).midpoint #[-e] #[-e] = 1 + e ^ 2 :=
      overlap_opposed e Nat.one_lt_two Nat.one_lt_two
    ext g
    simp only [opposed, List.mem_cons, List.not_mem_nil, or_false, exists_eq_or_imp, exists_eq_left, hfirst, hsecond, or_self,
      Set.mem_ofPred_eq, Set.mem_singleton_iff]
    exact eq_comm
  rw [ridge, hset, csSup_singleton]
  norm_num

theorem overlaps_opposed (e : ℝ) (v : Nat → ℝ) : overlaps (standard : Activator ℝ).midpoint (opposed e) v 0 =
      v 0 * (1 + e ^ 2) + v 1 * (1 - e ^ 2) ∧
    overlaps (standard : Activator ℝ).midpoint (opposed e) v 1 = v 0 * (1 - e ^ 2) + v 1 * (1 + e ^ 2) := by
  have hcount : (opposed e).count = 2 := rfl
  constructor
  · rw [overlaps, hcount, sum_range_succ, sum_range_one, overlap_opposed e Nat.two_pos Nat.two_pos,
      overlap_opposed e Nat.one_lt_two Nat.two_pos, if_pos rfl, if_neg one_ne_zero]
  · rw [overlaps, hcount, sum_range_succ, sum_range_one, overlap_opposed e Nat.two_pos Nat.one_lt_two,
      overlap_opposed e Nat.one_lt_two Nat.one_lt_two, if_neg zero_ne_one, if_pos rfl]

theorem depth_standard : (standard : Activator ℝ).depth = Real.log 1999 / 2 := by
  have hon : (standard : Activator ℝ).on = 999 / 1000 := by
    simp only [Activator.on, standard]
    norm_num
  have hrange : (999 / 1000 : ℝ) ∈ Set.Ioo (-1 : ℝ) 1 := ⟨by norm_num, by norm_num⟩
  rw [depth, Proper.inverse_tanh rfl proper_standard.off_lt_on.le le_rfl (hon ▸ hrange), hon,
    Real.artanh_eq_half_log (Set.Ioo_subset_Icc_self hrange)]
  norm_num
  ring

theorem depth_standard_bounds : 1 / 4 ≤ (standard : Activator ℝ).depth ∧ (standard : Activator ℝ).depth ≤ 6 := by
  rw [depth_standard]
  have hlow := Real.one_sub_inv_le_log_of_pos (show (0 : ℝ) < 1999 by norm_num)
  have htwo := Real.log_le_sub_one_of_pos (show (0 : ℝ) < 2 by norm_num)
  have hhigh : Real.log 1999 ≤ 11 * Real.log 2 := by
    calc Real.log 1999 ≤ Real.log (2 ^ 11) := Real.log_le_log (by norm_num) (by norm_num)
      _ = 11 * Real.log 2 := by rw [Real.log_pow]; norm_num
  constructor
  · norm_num at hlow
    linarith
  · linarith

/-- Two orthogonal inputs stay under both rules. -/
theorem stays_opposed (rule : Rule) :
    Stays rule (.zero 1 1) (opposed 1) (unitTargets [true, false]) standard standard (1 / 10 ^ 8) 0 := by
  have hwidth : (Connection.zero 1 1 : Connection ℝ).weights.width = 1 := rfl
  have hstretch : stretch (standard : Activator ℝ).midpoint 1 = 1 := by
    rw [stretch, midpoint_tanh rfl]
    norm_num
  have hcount : (opposed 1).count = 2 := rfl
  cases rule with
  | hebbian =>
    have hnone : ∀ q ∈ range (opposed 1).count,
        crosstalk (.zero 1 1) (opposed 1) (unitTargets [true, false]) standard standard 0 q = 0 := by
      intro q hq
      rw [mem_range, hcount] at hq
      refine sum_eq_zero fun p hp => ?_
      obtain ⟨hpq, hp⟩ := mem_erase.mp hp
      rw [mem_range, hcount] at hp
      rw [overlap_opposed 1 hp hq, if_neg hpq]
      ring
    rw [Stays, sum_eq_zero fun q hq => by rw [hnone q hq, abs_zero, zero_div], mul_zero]
    norm_num
  | rehebbian =>
    have hdepth := depth_standard_bounds
    have hpos := proper_standard.depth_pos
    refine ⟨2, two_pos, fun v => ?_, ?_⟩
    · obtain ⟨hfirst, hsecond⟩ := overlaps_opposed 1 v
      rw [hcount, sum_range_succ, sum_range_one, sum_range_succ, sum_range_one, hfirst, hsecond]
      exact le_of_eq (by ring)
    · have hsquares : ∑ q ∈ range (opposed 1).count, residual (.zero 1 1) (opposed 1) (unitTargets [true, false]) standard 0 q ^ 2 =
          2 * (standard : Activator ℝ).depth ^ 2 := by
        rw [hcount, sum_range_succ, sum_range_one, residual_unitTargets Nat.two_pos, residual_unitTargets Nat.one_lt_two]
        simp only [List.getElem_cons_zero, List.getElem_cons_succ, sign_true, sign_false]
        ring
      have htwo : (0 : ℝ) < √2 := Real.sqrt_pos.mpr two_pos
      rw [hwidth, hstretch, hsquares, ridge_opposed, Real.sqrt_mul two_pos.le, Real.sqrt_sq hpos.le]
      nlinarith

/-- Two orthogonal inputs are stored by one flash. -/
theorem opposed_again : Batch (.zero 1 1) (opposed 1) (unitTargets [true, false]) ∧ (standard : Activator ℝ).Proper ∧
    ∀ rule, ∃ once again, flash? rule (.zero 1 1) (opposed 1) (unitTargets [true, false]) standard standard = .ok once ∧
      flash? rule once.connection (opposed 1) (unitTargets [true, false]) standard standard = .ok again ∧
      |again.connection.weights.entry 0 0 - once.connection.weights.entry 0 0| < 1 / 10 ^ 8 ∧
      |again.connection.bias.entry 0 - once.connection.bias.entry 0| < 1 / 10 ^ 8 := by
  refine ⟨batch_opposed 1, proper_standard, fun rule => ?_⟩
  obtain ⟨once, again, honce, hagain, -, hstays, -⟩ := flash_again (batch_opposed 1) rule standard proper_standard
  have hrow := hstays 0 Nat.one_pos (stays_opposed rule)
  exact ⟨once, again, honce, hagain, hrow.1 0 Nat.one_pos, hrow.2⟩

/-- What a second flash moves the weight between two units by. -/
theorem exists_weight_sub (h : Batch (.zero 1 1) x y) (rule : Rule) : ∃ v, Rewrites rule (.zero 1 1) x y standard standard 0 v ∧
    (flash rule (flash rule (.zero 1 1) x y standard standard).connection x y standard standard).connection.weights.entry 0 0 -
      (flash rule (.zero 1 1) x y standard standard).connection.weights.entry 0 0 =
        ∑ p ∈ range x.count, v p * (x.column p).entry 0 := by
  obtain ⟨v, hv, hout, -⟩ := h.exists_rewrites rule standard standard Nat.one_pos
  have hwidth : (flash rule (.zero 1 1) x y standard standard).connection.weights.width =
      (Connection.zero 1 1 : Connection ℝ).weights.width := width_flash ..
  rw [← hwidth] at hout
  have hweight := ((h.flash rule standard standard).weight_sub (width_flash ..) hout).1 0 (hwidth ▸ Nat.one_pos)
  refine ⟨v, hv, hweight.trans ?_⟩
  refine sum_congr rfl fun p hp => ?_
  have hsize : (x.column p).size = 1 := h.size_column (mem_range.mp hp)
  rw [entry_extend_lt (hsize ▸ Nat.one_pos), midpoint_tanh rfl, sub_zero]

/-- An input that stands twice is written twice, and each of the two is taken back as often. -/
theorem rewrites_repeated {v : Nat → ℝ}
    (hv : Rewrites .hebbian (.zero 1 1) repeated (unitTargets [true, true]) standard standard 0 v) {q : Nat} (hq : q < 2) :
    v q = -(standard : Activator ℝ).depth / 2 := by
  have hresidual : ∀ q < 2, residual (.zero 1 1) repeated (unitTargets [true, true]) standard 0 q =
      (standard : Activator ℝ).depth := by
    intro q hq
    rw [residual_unitTargets hq]
    obtain rfl | rfl : q = 0 ∨ q = 1 := by omega
    all_goals exact one_mul _
  have hother : (range repeated.count).erase q = {1 - q} := by
    obtain rfl | rfl : q = 0 ∨ q = 1 := by omega
    all_goals decide
  have hlt : 1 - q < 2 := by omega
  rw [hv q hq, crosstalk, hother, sum_singleton, hresidual _ hlt, overlap_repeated hlt hlt, overlap_repeated hlt hq,
    overlap_repeated hq hq]
  ring

/-- Two inputs that hardly differ keep enough of their residuals for the second flash to be seen. -/
theorem rewrites_opposed {v : Nat → ℝ}
    (hv : Rewrites .rehebbian (.zero 1 1) (opposed (1 / 100)) (unitTargets [true, false]) standard standard 0 v) :
    1 / 10 ^ 6 ≤ v 0 - v 1 := by
  obtain ⟨z, hz⟩ := hv
  obtain ⟨hz₀, hv₀⟩ := hz 0 Nat.two_pos
  obtain ⟨hz₁, hv₁⟩ := hz 1 Nat.one_lt_two
  rw [(overlaps_opposed _ z).1, ridge_opposed, residual_unitTargets Nat.two_pos] at hz₀
  rw [(overlaps_opposed _ z).2, ridge_opposed, residual_unitTargets Nat.one_lt_two] at hz₁
  rw [(overlaps_opposed _ v).1, ridge_opposed] at hv₀
  rw [(overlaps_opposed _ v).2, ridge_opposed] at hv₁
  simp only [List.getElem_cons_zero, List.getElem_cons_succ, sign_true, sign_false] at hz₀ hz₁
  -- the differences of the two coefficients, by the matrix of the batch twice
  have hfirst : (2 / 10 ^ 4 + (1 + 1 / 10 ^ 4) / 10 ^ 10) * (z 0 - z 1) = 2 * (standard : Activator ℝ).depth := by
    linear_combination hz₀ - hz₁
  have hsecond : (2 / 10 ^ 4 + (1 + 1 / 10 ^ 4) / 10 ^ 10) * (v 0 - v 1) = (1 + 1 / 10 ^ 4) / 10 ^ 10 * (z 0 - z 1) := by
    linear_combination hv₀ - hv₁
  have hdepth := depth_standard_bounds.1
  norm_num at hfirst hsecond ⊢
  linarith

/-- By the first rule a second flash takes away again what an input that stands twice got from the first. By the second
rule it moves two inputs further apart that hardly differ. -/
theorem flash_again_changes :
    (Batch (.zero 1 1) repeated (unitTargets [true, true]) ∧
      ∃ once again, flash? .hebbian (.zero 1 1) repeated (unitTargets [true, true]) standard standard = .ok once ∧
        flash? .hebbian once.connection repeated (unitTargets [true, true]) standard standard = .ok again ∧
        1 / 10 ^ 8 ≤ |again.connection.weights.entry 0 0 - once.connection.weights.entry 0 0|) ∧
    (Batch (.zero 1 1) (opposed (1 / 100)) (unitTargets [true, false]) ∧
      ∃ once again, flash? .rehebbian (.zero 1 1) (opposed (1 / 100)) (unitTargets [true, false]) standard standard = .ok once ∧
        flash? .rehebbian once.connection (opposed (1 / 100)) (unitTargets [true, false]) standard standard = .ok again ∧
        1 / 10 ^ 8 ≤ |again.connection.weights.entry 0 0 - once.connection.weights.entry 0 0|) := by
  have hordered : (standard : Activator ℝ).ordered = true := (Scalar.le_eq_true _ _).mpr proper_standard.off_lt_on.le
  constructor
  · have h := batch_repeated true true
    refine ⟨h, _, _, h.flash?_eq hordered, (h.flash .hebbian standard standard).flash?_eq hordered, ?_⟩
    obtain ⟨v, hv, hchange⟩ := exists_weight_sub h .hebbian
    have hsum : ∑ p ∈ range repeated.count, v p * (repeated.column p).entry 0 = -(standard : Activator ℝ).depth := by
      rw [show repeated.count = 2 from rfl, sum_range_succ, sum_range_one, rewrites_repeated hv Nat.two_pos,
        rewrites_repeated hv Nat.one_lt_two]
      show -(standard : Activator ℝ).depth / 2 * 1 + -(standard : Activator ℝ).depth / 2 * 1 = _
      ring
    have hdepth := depth_standard_bounds.1
    rw [hchange, hsum, abs_neg, abs_of_pos proper_standard.depth_pos]
    norm_num
    linarith
  · have h := batch_opposed (1 / 100)
    refine ⟨h, _, _, h.flash?_eq hordered, (h.flash .rehebbian standard standard).flash?_eq hordered, ?_⟩
    obtain ⟨v, hv, hchange⟩ := exists_weight_sub h .rehebbian
    have hsum : ∑ p ∈ range (opposed (1 / 100)).count, v p * ((opposed (1 / 100)).column p).entry 0 = (v 0 - v 1) / 100 := by
      rw [show (opposed (1 / 100)).count = 2 from rfl, sum_range_succ, sum_range_one]
      show v 0 * (1 / 100) + v 1 * -(1 / 100) = _
      ring
    have happart := rewrites_opposed hv
    rw [hchange, hsum]
    refine le_trans ?_ (le_abs_self _)
    norm_num at happart ⊢
    linarith

end Association

end Engram
