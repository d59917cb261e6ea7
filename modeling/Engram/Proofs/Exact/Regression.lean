/-
  Engram.Proofs.Exact.Regression — what the second rule leaves of a batch.

  With U the inputs of a batch around the midpoint, a row of ones under them, the rule adds to
  each row of a connection the combination of the columns of U that leaves of the residuals E
  the residuals R with

    R (Uᵀ U + λ) = λ E

  where λ, the ridge, is a ten-billionth of the largest entry on the diagonal of Uᵀ U
  (`residual_rehebbian`). For the coefficients z of the combination that is z (Uᵀ U + λ) = E, since
  what is left of a residual is the ridge times its coefficient (`exists_coefficients`). As Uᵀ U is
  positive, the squares of the residuals do not grow; and where all residuals are zero the
  coefficients are, so the connection produces what it did for every input. A connection is
  told by what it produces (`Connection.eq_of_out`), so nothing in it has changed
  (`Batch.flash_learned`).
-/

import Engram.Proofs.Exact.Batches

namespace Engram

open Finset Pattern Activator

/-! ## Connections by what they produce -/

namespace Pattern

/-- One unit at one, the others at zero. -/
noncomputable def single (n j : Nat) : Pattern ℝ := Array.ofFn fun k : Fin n => if k.1 = j then 1 else 0

@[simp] theorem size_single (n j : Nat) : (single n j).size = n := by simp [single]

@[simp] theorem size_zero (n : Nat) : (Pattern.zero n : Pattern ℝ).size = n := by simp [Pattern.zero]

theorem entry_single {n k : Nat} (j : Nat) (hk : k < n) : (single n j).entry k = if k = j then 1 else 0 :=
  entry_ofFn _ hk

theorem entry_zero (n k : Nat) : (Pattern.zero n : Pattern ℝ).entry k = 0 := by
  rw [Pattern.zero, entry_replicate, ite_self]

end Pattern

theorem Matrix.ext_entry {α : Type} [Scalar α] {w v : Matrix α} (hheight : w.height = v.height) (hwidth : w.width = v.width)
    (h : ∀ i < w.height, ∀ j < w.width, w.entry i j = v.entry i j) : w = v := by
  obtain ⟨m, n, entries, hsize⟩ := w
  obtain ⟨m', n', entries', hsize'⟩ := v
  obtain rfl : m = m' := hheight
  obtain rfl : n = n' := hwidth
  have hentries : entries = entries' := by
    refine Array.ext (hsize.trans hsize'.symm) fun k hk hk' => ?_
    rw [hsize] at hk
    have hn : 0 < n := Nat.pos_of_ne_zero fun hzero => by
      rw [hzero, Nat.mul_zero] at hk
      exact Nat.not_lt_zero k hk
    have hentry := h (k / n) (Nat.div_lt_of_lt_mul (Nat.mul_comm m n ▸ hk)) (k % n) (Nat.mod_lt k hn)
    simp only [Matrix.entry, Nat.div_add_mod'] at hentry
    rwa [getD_of_lt (hsize.symm ▸ hk), getD_of_lt hk'] at hentry
  subst hentries
  rfl

namespace Connection

variable {c d : Connection ℝ}

/-- The bias is what is produced for no activity. -/
theorem out_zero_pattern (c : Connection ℝ) (i : Nat) : c.out i (.zero c.weights.width) = c.bias.entry i := by
  rw [out, sum_eq_zero fun j _ => by rw [Pattern.entry_zero, mul_zero], zero_add]

/-- With one unit at one its weight comes on top. -/
theorem out_single (c : Connection ℝ) (i : Nat) {j : Nat} (hj : j < c.weights.width) :
    c.out i (.single c.weights.width j) = c.weights.entry i j + c.bias.entry i := by
  have hterm : ∀ k ∈ range c.weights.width, c.weights.entry i k * (Pattern.single c.weights.width j).entry k =
      if j = k then c.weights.entry i k else 0 := by
    intro k hk
    rw [entry_single j (mem_range.mp hk), mul_ite, mul_one, mul_zero]
    exact if_congr eq_comm rfl rfl
  rw [out, sum_congr rfl hterm, sum_ite_eq, if_pos (mem_range.mpr hj)]

/-- Connections that produce the same for all inputs are the same. -/
theorem eq_of_out (hc : c.Fits) (hd : d.Fits) (hheight : c.weights.height = d.weights.height)
    (hwidth : c.weights.width = d.weights.width)
    (h : ∀ i < c.weights.height, ∀ u : Pattern ℝ, u.size = c.weights.width → c.out i u = d.out i u) : c = d := by
  have hbias : ∀ i < c.weights.height, c.bias.entry i = d.bias.entry i := by
    intro i hi
    rw [← out_zero_pattern, ← out_zero_pattern, ← hwidth]
    exact h i hi _ (size_zero _)
  have hweights : c.weights = d.weights := by
    refine Matrix.ext_entry hheight hwidth fun i hi j hj => ?_
    have hout := h i hi _ (size_single _ j)
    rw [out_single c i hj, hwidth, out_single d i (hwidth ▸ hj), hbias i hi] at hout
    exact add_right_cancel hout
  have hbiases : c.bias = d.bias :=
    ext_entry (hc.trans (hheight.trans hd.symm)) fun i hi => hbias i (hc ▸ hi)
  obtain ⟨w, b⟩ := c
  obtain ⟨w', b'⟩ := d
  rw [Connection.mk.injEq]
  exact ⟨hweights, hbiases⟩

end Connection

namespace Association

variable {c : Connection ℝ} {x y : Columns ℝ} {source target : Activator ℝ}

/-! ## The ridge -/

/-- A ten-billionth of the largest overlap of an input with itself. -/
noncomputable def ridge (mid : ℝ) (x : Columns ℝ) : ℝ :=
  sSup {g | ∃ u ∈ x.patterns, overlap mid u u = g} / ((10000000000 : Nat) : ℝ)

/-- The largest entry on the diagonal is one of them, if they are positive. -/
theorem isGreatest_largest (matrix : Cholesky.Triangle ℝ) (hne : 0 < matrix.size)
    (hpos : ∀ i < matrix.size, 0 ≤ Cholesky.entryAt matrix i i) :
    IsGreatest {g | ∃ i < matrix.size, Cholesky.entryAt matrix i i = g} (largest matrix) := by
  -- the largest of the first entries, from the first one on
  have hfold : ∀ n, 0 < n → n ≤ matrix.size → IsGreatest {g | ∃ i < n, Cholesky.entryAt matrix i i = g}
      ((Array.range n).foldl (fun acc i => Scalar.larger acc (Cholesky.entryAt matrix i i)) 0) := by
    intro n
    induction n with
    | zero => exact fun h => absurd h (Nat.lt_irrefl 0)
    | succ n ih =>
      intro _ hle
      rw [Array.range_succ, ← Array.push_eq_append, Array.foldl_push, Scalar.larger_eq_max]
      rcases Nat.eq_zero_or_pos n with rfl | hn
      · refine ⟨⟨0, Nat.one_pos, ?_⟩, ?_⟩
        · exact (max_eq_right (hpos 0 (by omega))).symm
        · rintro g ⟨i, hi, rfl⟩
          obtain rfl : i = 0 := by omega
          exact le_max_right _ _
      · obtain ⟨⟨k, hk, hlargest⟩, hupper⟩ := ih hn (by omega)
        refine ⟨?_, ?_⟩
        · rcases max_choice ((Array.range n).foldl (fun acc i => Scalar.larger acc (Cholesky.entryAt matrix i i)) 0)
            (Cholesky.entryAt matrix n n) with h | h
          · exact ⟨k, by omega, hlargest.trans h.symm⟩
          · exact ⟨n, by omega, h.symm⟩
        · rintro g ⟨i, hi, rfl⟩
          rcases Nat.lt_succ_iff_lt_or_eq.mp hi with hi | rfl
          · exact (hupper ⟨i, hi, rfl⟩).trans (le_max_left _ _)
          · exact le_max_right _ _
  exact hfold matrix.size hne le_rfl

/-- The first ridge of a batch is its ridge: every input overlaps with itself in the constant unit, so the least
number that is told from zero plays no part. -/
theorem firstRidge_gram (hne : x.patterns ≠ []) :
    firstRidge (gram (extended x source)) = ridge source.midpoint x := by
  have hcount : 0 < x.count := List.length_pos_iff.mpr hne
  have hsize : (gram (extended x source)).size = x.count := by rw [size_gram, size_extended]
  have hdiagonal : ∀ i < x.count, Cholesky.entryAt (gram (extended x source)) i i =
      overlap source.midpoint (x.column i) (x.column i) := by
    intro i hi
    rw [entryAt_gram (by rw [size_extended]; exact hi) le_rfl, Batch.dot_extended hi hi]
  have hgreatest := isGreatest_largest (gram (extended x source)) (hsize ▸ hcount) fun i hi => by
    rw [hdiagonal i (hsize ▸ hi)]
    exact zero_le_one.trans (one_le_overlap_self _)
  have hset : {g | ∃ i < (gram (extended x source)).size, Cholesky.entryAt (gram (extended x source)) i i = g} =
      {g | ∃ u ∈ x.patterns, overlap source.midpoint u u = g} := by
    ext g
    rw [hsize]
    constructor
    · rintro ⟨i, hi, rfl⟩
      exact ⟨x.column i, Columns.column_mem hi, (hdiagonal i hi).symm⟩
    · rintro ⟨u, hu, rfl⟩
      obtain ⟨i, hi, rfl⟩ := List.getElem_of_mem hu
      refine ⟨i, hi, (hdiagonal i hi).trans ?_⟩
      rw [Columns.column, List.getD_eq_getElem _ _ hi]
  rw [hset] at hgreatest
  obtain ⟨u, -, hu⟩ := hgreatest.1
  have hone : 1 ≤ largest (gram (extended x source)) := hu ▸ one_le_overlap_self u
  rw [firstRidge_eq, max_eq_left (Scalar.tiny_le_one.trans hone), ridge, hgreatest.csSup_eq]
  ring

theorem ridge_pos (hne : x.patterns ≠ []) (source : Activator ℝ) : 0 < ridge source.midpoint x := by
  rw [← firstRidge_gram hne]
  exact firstRidge_pos _

/-! ## Combinations of inputs -/

/-- The combination of the inputs of a batch with the given coefficients, unit by unit. -/
noncomputable def combined (mid : ℝ) (x : Columns ℝ) (v : Nat → ℝ) (k : Nat) : ℝ :=
  ∑ p ∈ range x.count, v p * (extend mid (x.column p)).entry k

/-- How much a combination overlaps with each input. -/
noncomputable def overlaps (mid : ℝ) (x : Columns ℝ) (v : Nat → ℝ) (q : Nat) : ℝ :=
  ∑ p ∈ range x.count, v p * overlap mid (x.column p) (x.column q)

namespace Batch

variable {mid : ℝ}

theorem overlap_eq_sum (h : Batch c x y) {p : Nat} (hp : p < x.count) {u : Pattern ℝ} (hu : u.size = c.weights.width) :
    overlap mid (x.column p) u = ∑ k ∈ range (c.weights.width + 1),
      (extend mid (x.column p)).entry k * (extend mid u).entry k := by
  rw [overlap, dot_eq (by rw [size_extend, size_extend, h.size_column hp, hu]), size_extend, h.size_column hp]

/-- A combination overlaps with a pattern as its inputs do together. -/
theorem sum_overlap (h : Batch c x y) (v : Nat → ℝ) {u : Pattern ℝ} (hu : u.size = c.weights.width) :
    ∑ p ∈ range x.count, v p * overlap mid (x.column p) u =
      ∑ k ∈ range (c.weights.width + 1), combined mid x v k * (extend mid u).entry k := by
  have hterm : ∀ p ∈ range x.count, v p * overlap mid (x.column p) u = ∑ k ∈ range (c.weights.width + 1),
      v p * (extend mid (x.column p)).entry k * (extend mid u).entry k := by
    intro p hp
    rw [h.overlap_eq_sum (mem_range.mp hp) hu, mul_sum]
    exact sum_congr rfl fun k _ => (mul_assoc _ _ _).symm
  rw [sum_congr rfl hterm, sum_comm]
  exact sum_congr rfl fun k _ => (sum_mul _ _ _).symm

theorem overlaps_eq_sum (h : Batch c x y) (v : Nat → ℝ) {q : Nat} (hq : q < x.count) : overlaps mid x v q =
    ∑ k ∈ range (c.weights.width + 1), combined mid x v k * (extend mid (x.column q)).entry k :=
  h.sum_overlap v (h.size_column hq)

/-- The overlaps with the inputs, combined, are the product of the combinations. -/
theorem sum_mul_overlaps (h : Batch c x y) (v w : Nat → ℝ) : ∑ q ∈ range x.count, w q * overlaps mid x v q =
    ∑ k ∈ range (c.weights.width + 1), combined mid x w k * combined mid x v k := by
  have hterm : ∀ q ∈ range x.count, w q * overlaps mid x v q = ∑ k ∈ range (c.weights.width + 1),
      w q * (extend mid (x.column q)).entry k * combined mid x v k := by
    intro q hq
    rw [h.overlaps_eq_sum v (mem_range.mp hq), mul_sum]
    exact sum_congr rfl fun k _ => by ring
  rw [sum_congr rfl hterm, sum_comm]
  exact sum_congr rfl fun k _ => (sum_mul _ _ _).symm

/-- The overlaps of a combination with its own inputs add up to a square. -/
theorem sum_mul_overlaps_self (h : Batch c x y) (v : Nat → ℝ) : ∑ q ∈ range x.count, v q * overlaps mid x v q =
    ∑ k ∈ range (c.weights.width + 1), combined mid x v k ^ 2 := by
  rw [h.sum_mul_overlaps]
  exact sum_congr rfl fun k _ => (pow_two _).symm

/-! ## The normal equation -/

/-- The coefficients that the second rule writes with. -/
theorem exists_coefficients (h : Batch c x y) (hne : x.patterns ≠ []) (source target : Activator ℝ) :
    ∃ z : Nat → Nat → ℝ, ∀ i < c.weights.height,
    (∀ u : Pattern ℝ, u.size = c.weights.width → (flash .rehebbian c x y source target).connection.out i u =
      c.out i u + ∑ p ∈ range x.count, z i p * overlap source.midpoint (x.column p) u) ∧
    ∀ q < x.count, overlaps source.midpoint x (z i) q + ridge source.midpoint x * z i q = residual c x y target i q := by
  obtain ⟨z, hz⟩ := h.exists_out_rehebbian hne
  refine ⟨z, fun i hi => ⟨(hz i hi).1, fun q hq => ?_⟩⟩
  have hafter := (hz i hi).2 q hq
  rw [(hz i hi).1 _ (h.size_column hq), firstRidge_gram hne] at hafter
  rw [overlaps, residual]
  linarith

/-- The batch fits the connection that it was written into. -/
theorem flash (h : Batch c x y) (rule : Rule) (source target : Activator ℝ) :
    Batch (Association.flash rule c x y source target).connection x y := by
  refine ⟨fits_flash h.fits h.height, ?_, ?_, ?_, h.count⟩
  · rw [height_flash, h.height]
  · rw [width_flash, h.width]
  · rw [width_flash]
    exact h.inputs

/-- What the second rule leaves of a residual is the ridge times its coefficient. -/
theorem residual_flash (h : Batch c x y) {i q : Nat} (hq : q < x.count) {z : Nat → ℝ}
    (hout : ∀ u : Pattern ℝ, u.size = c.weights.width → (Association.flash .rehebbian c x y source target).connection.out i u =
      c.out i u + ∑ p ∈ range x.count, z p * overlap source.midpoint (x.column p) u)
    (hz : overlaps source.midpoint x z q + ridge source.midpoint x * z q = residual c x y target i q) :
    residual (Association.flash .rehebbian c x y source target).connection x y target i q =
      ridge source.midpoint x * z q := by
  rw [residual, hout _ (h.size_column hq), ← overlaps]
  rw [residual] at hz
  linarith

end Batch

/-- The coefficients of a combination that leaves of each number the ridge times its own, are no more than what there
was. -/
theorem sum_sq_ridge_le (h : Batch c x y) {mid r : ℝ} (hr : 0 ≤ r) {z e : Nat → ℝ}
    (hz : ∀ q < x.count, overlaps mid x z q + r * z q = e q) :
    ∑ q ∈ range x.count, (r * z q) ^ 2 + ∑ q ∈ range x.count, overlaps mid x z q ^ 2 ≤ ∑ q ∈ range x.count, e q ^ 2 := by
  have hcross : 0 ≤ ∑ q ∈ range x.count, z q * overlaps mid x z q := by
    rw [h.sum_mul_overlaps_self]
    exact sum_nonneg fun k _ => sq_nonneg _
  have hterm : ∀ q ∈ range x.count, e q ^ 2 = (r * z q) ^ 2 + overlaps mid x z q ^ 2 + 2 * r * (z q * overlaps mid x z q) := by
    intro q hq
    rw [← hz q (mem_range.mp hq)]
    ring
  rw [sum_congr rfl hterm, sum_add_distrib, sum_add_distrib, ← mul_sum]
  have := mul_nonneg (mul_nonneg zero_le_two hr) hcross
  linarith

/-- A flash of no inputs leaves the connection. -/
theorem flash_nil (rule : Rule) (source target : Activator ℝ) (hnil : x.patterns = []) :
    (flash rule c x y source target).connection = c := by
  simp [flash, hnil]

/-- Where there is nothing to write neither rule changes weights or bias. -/
theorem Batch.flash_learned (h : Batch c x y) (rule : Rule) (source : Activator ℝ)
    (hlearned : ∀ i < c.weights.height, ∀ p < x.count, residual c x y target i p = 0) :
    (Association.flash rule c x y source target).connection = c := by
  by_cases hne : x.patterns = []
  · exact flash_nil rule source target hne
  refine Connection.eq_of_out (fits_flash h.fits h.height) h.fits (height_flash ..) (width_flash ..) fun i hi u hu => ?_
  rw [height_flash] at hi
  rw [width_flash] at hu
  cases rule with
  | hebbian =>
    rw [h.out_hebbian hne hi hu, sum_eq_zero fun p hp => ?_, add_zero]
    rw [hlearned i hi p (mem_range.mp hp), zero_div, zero_mul]
  | rehebbian =>
    obtain ⟨z, hz⟩ := h.exists_coefficients hne source target
    have hridge := ridge_pos hne source
    -- the squares of the coefficients are no more than zero
    have hle := sum_sq_ridge_le h hridge.le (hz i hi).2
    have hsquares : 0 ≤ ∑ q ∈ range x.count, overlaps source.midpoint x (z i) q ^ 2 := sum_nonneg fun q _ => sq_nonneg _
    have hresiduals : ∑ q ∈ range x.count, residual c x y target i q ^ 2 = 0 :=
      sum_eq_zero fun q hq => by rw [hlearned i hi q (mem_range.mp hq), zero_pow two_ne_zero]
    have hnone : ∑ q ∈ range x.count, (ridge source.midpoint x * z i q) ^ 2 = 0 :=
      le_antisymm (by linarith) (sum_nonneg fun q _ => sq_nonneg _)
    have hcoefficient : ∀ q ∈ range x.count, z i q = 0 := by
      intro q hq
      have hsquare := (sum_eq_zero_iff_of_nonneg fun q _ => sq_nonneg _).mp hnone q hq
      exact (mul_eq_zero.mp (pow_eq_zero_iff two_ne_zero |>.mp hsquare)).resolve_left hridge.ne'
    rw [(hz i hi).1 u hu, sum_eq_zero fun p hp => by rw [hcoefficient p hp, zero_mul], add_zero]

/-- A flash by the second rule of any batch into any connection leaves residuals that the normal equation gives. For no
row of weights do their squares grow, and where there was nothing to write, weights and bias stay what they
were. -/
theorem residual_rehebbian (h : Batch c x y) (source : Activator ℝ) (htarget : target.Proper) :
    ∃ f, flash? .rehebbian c x y source target = .ok f ∧
      (∀ i < c.weights.height,
        (∀ q < x.count, ∑ p ∈ range x.count, residual f.connection x y target i p *
            (overlap source.midpoint (x.column p) (x.column q) + if p = q then ridge source.midpoint x else 0) =
          ridge source.midpoint x * residual c x y target i q) ∧
        ∑ p ∈ range x.count, residual f.connection x y target i p ^ 2 ≤ ∑ p ∈ range x.count, residual c x y target i p ^ 2) ∧
      ((∀ i < c.weights.height, ∀ p < x.count, residual c x y target i p = 0) → f.connection = c) := by
  have hordered : target.ordered = true := (Scalar.le_eq_true _ _).mpr htarget.off_lt_on.le
  refine ⟨_, h.flash?_eq hordered, ?_⟩
  by_cases hne : x.patterns = []
  · have hcount : x.count = 0 := by rw [Columns.count, hne]; rfl
    rw [flash_nil _ _ _ hne, hcount]
    exact ⟨fun i _ => ⟨fun q hq => absurd hq (Nat.not_lt_zero q), le_rfl⟩, fun _ => rfl⟩
  obtain ⟨z, hz⟩ := h.exists_coefficients hne source target
  have hridge := ridge_pos hne source
  set r := ridge source.midpoint x with hr
  have hleft : ∀ i < c.weights.height, ∀ q < x.count,
      residual (flash .rehebbian c x y source target).connection x y target i q = r * z i q := fun i hi q hq =>
    h.residual_flash hq (hz i hi).1 ((hz i hi).2 q hq)
  refine ⟨fun i hi => ⟨fun q hq => ?_, ?_⟩, h.flash_learned .rehebbian source⟩
  · have hterm : ∀ p ∈ range x.count, residual (flash .rehebbian c x y source target).connection x y target i p *
        (overlap source.midpoint (x.column p) (x.column q) + if p = q then r else 0) =
        r * (z i p * overlap source.midpoint (x.column p) (x.column q)) + if q = p then r * (r * z i p) else 0 := by
      intro p hp
      rw [hleft i hi p (mem_range.mp hp)]
      by_cases hpq : p = q
      · rw [if_pos hpq, if_pos hpq.symm]
        ring
      · rw [if_neg hpq, if_neg (Ne.symm hpq)]
        ring
    rw [sum_congr rfl hterm, sum_add_distrib, sum_ite_eq, if_pos (mem_range.mpr hq), ← mul_sum, ← overlaps, ← mul_add,
      (hz i hi).2 q hq]
  · rw [sum_congr rfl fun p hp => by rw [hleft i hi p (mem_range.mp hp)]]
    have hle := sum_sq_ridge_le h hridge.le (hz i hi).2
    have : 0 ≤ ∑ q ∈ range x.count, overlaps source.midpoint x (z i) q ^ 2 := sum_nonneg fun q _ => sq_nonneg _
    linarith

/-! ### One input with two targets -/

/-- One unit that is to be on or off. -/
noncomputable def unitTargets (bits : List Bool) : Columns ℝ := ⟨1, bits.map fun b => (standard : Activator ℝ).pattern [b]⟩

theorem inverse_unitTargets {bits : List Bool} {q : Nat} (hq : q < bits.length) :
    (standard : Activator ℝ).inverse (((unitTargets bits).column q).entry 0) = sign bits[q] * (standard : Activator ℝ).depth := by
  have hcolumn : (unitTargets bits).column q = (standard : Activator ℝ).pattern [bits[q]] := by
    rw [Columns.column, unitTargets, List.getD_eq_getElem _ _ (by simpa using hq), List.getElem_map]
  rw [hcolumn, entry_pattern _ (Nat.lt_succ_self 0)]
  exact proper_standard.inverse_level _

theorem residual_unitTargets {x : Columns ℝ} {bits : List Bool} {q : Nat} (hq : q < bits.length) :
    residual (.zero 1 1) x (unitTargets bits) standard 0 q = sign bits[q] * (standard : Activator ℝ).depth := by
  rw [residual, inverse_unitTargets hq, Connection.out_zero, sub_zero]

/-- One input twice. -/
noncomputable def repeated : Columns ℝ := ⟨1, [#[1], #[1]]⟩

theorem batch_repeated (b b' : Bool) : Batch (.zero 1 1) repeated (unitTargets [b, b']) := by
  refine ⟨Connection.fits_zero 1 1, rfl, rfl, fun u hu => ?_, rfl⟩
  simp only [repeated, List.mem_cons, List.not_mem_nil, or_false, or_self] at hu
  rw [hu]
  rfl

theorem overlap_repeated {p q : Nat} (hp : p < 2) (hq : q < 2) :
    overlap (standard : Activator ℝ).midpoint (repeated.column p) (repeated.column q) = 2 := by
  have hcolumn : ∀ p < 2, repeated.column p = #[1] := by
    intro p hp
    obtain rfl | rfl : p = 0 ∨ p = 1 := by omega
    · rfl
    · rfl
  rw [hcolumn p hp, hcolumn q hq, overlap_eq rfl, midpoint_tanh rfl, List.size_toArray, List.length_singleton, sum_range_one,
    entry_singleton]
  norm_num

/-- Of opposite targets for one input none is written. -/
theorem conflict_remains : Batch (.zero 1 1) repeated (unitTargets [true, false]) ∧ (standard : Activator ℝ).Proper ∧
    ∃ f, flash? .rehebbian (.zero 1 1) repeated (unitTargets [true, false]) standard standard = .ok f ∧
      residual f.connection repeated (unitTargets [true, false]) standard 0 0 = (standard : Activator ℝ).depth ∧
      residual f.connection repeated (unitTargets [true, false]) standard 0 1 = -(standard : Activator ℝ).depth := by
  obtain ⟨f, hf, hrows, -⟩ := residual_rehebbian (batch_repeated true false) standard proper_standard
  have hridge : 0 < ridge (standard : Activator ℝ).midpoint repeated := ridge_pos (List.cons_ne_nil _ _) standard
  have hequation := (hrows 0 Nat.one_pos).1
  have hfirst := hequation 0 Nat.two_pos
  have hsecond := hequation 1 Nat.one_lt_two
  rw [residual_unitTargets Nat.two_pos] at hfirst
  rw [residual_unitTargets Nat.one_lt_two] at hsecond
  set r := ridge (standard : Activator ℝ).midpoint repeated
  set left := residual f.connection repeated (unitTargets [true, false]) standard 0
  have hcount : repeated.count = 2 := rfl
  rw [hcount, sum_range_succ, sum_range_one, overlap_repeated Nat.two_pos Nat.two_pos,
    overlap_repeated Nat.one_lt_two Nat.two_pos, if_pos rfl, if_neg one_ne_zero] at hfirst
  rw [hcount, sum_range_succ, sum_range_one, overlap_repeated Nat.two_pos Nat.one_lt_two,
    overlap_repeated Nat.one_lt_two Nat.one_lt_two, if_neg zero_ne_one, if_pos rfl] at hsecond
  simp only [List.getElem_cons_zero, List.getElem_cons_succ, sign_true, sign_false] at hfirst hsecond
  -- what is left of the two residuals is opposite, as they are
  have hopposite : left 0 + left 1 = 0 := by
    have hsum : (4 + r) * (left 0 + left 1) = 0 := by linear_combination hfirst + hsecond
    exact (mul_eq_zero.mp hsum).resolve_left (by linarith)
  have hleft : left 0 = (standard : Activator ℝ).depth :=
    mul_left_cancel₀ hridge.ne' (by linear_combination hfirst - 2 * hopposite)
  exact ⟨batch_repeated true false, proper_standard, f, hf, hleft, by linarith⟩

end Association

end Engram
