/-
  Engram.Proofs.Exact.Survival — which bits of a batch are recalled.

  When all inputs of a batch overlap with themselves alike and with each other in the constant
  unit only (`Even`), the two rules differ in two numbers: how much of the sum of all residuals
  leaks into each input, and the slack that divides what is written (`Even.out_flash`). So a bit of
  a batch that is written from zero survives unless the bits of its unit in all targets outweigh
  it (`Survives`), and nothing is missed if and only if all bits do (`Even.errors_eq_zero_iff`).

  By the second rule the leak of all bits is less than the ridge. The columns of the Sylvester
  matrix, the sign of each unit flipped or not, overlap with themselves by far more than that, so
  all their bits survive (`errors_rehebbian_sylvester`).
-/

import Mathlib.Algebra.BigOperators.Field
import Engram.Proofs.Exact.Crosstalk
import Engram.Proofs.Layer.Orthogonal

namespace Engram

open Finset Pattern Activator

namespace Association

/-- Inputs that overlap with themselves alike and with each other in the constant unit only. -/
structure Even (mid reach : ℝ) (x : Columns ℝ) : Prop where
  self : ∀ p < x.count, overlap mid (x.column p) (x.column p) = reach + 1
  other : ∀ p < x.count, ∀ q < x.count, p ≠ q → overlap mid (x.column p) (x.column q) = 1

end Association

namespace Rule

/-- What a rule adds to the overlap of an input with itself, the constant unit or the ridge. -/
noncomputable def slack (reach : ℝ) : Rule → ℝ
  | hebbian => 1
  | rehebbian => (reach + 1) / ((10 : Nat) : ℝ) ^ 10

/-- How much of the sum of all residuals of a batch is added to what each input recalls. -/
noncomputable def leak (reach : ℝ) (count : Nat) : Rule → ℝ
  | hebbian => 1
  | rehebbian => slack reach rehebbian / (reach + slack reach rehebbian + count)

variable {reach : ℝ}

theorem slack_pos (h : 0 ≤ reach) (r : Rule) : 0 < r.slack reach := by
  cases r with
  | hebbian => exact one_pos
  | rehebbian => exact div_pos (by linarith) (by norm_num)

theorem leak_pos (h : 0 ≤ reach) (count : Nat) (r : Rule) : 0 < r.leak reach count := by
  have hslack := slack_pos h r
  cases r with
  | hebbian => exact one_pos
  | rehebbian => exact div_pos hslack (by positivity)

end Rule

namespace Association

variable {rule : Rule} {c : Connection ℝ} {x y : Columns ℝ} {source target : Activator ℝ} {reach : ℝ}

/-- The first ridge of even inputs. -/
theorem Even.firstRidge_eq (heven : Even source.midpoint reach x) (hreach : 0 ≤ reach)
    (hne : 0 < x.count) : firstRidge (gram (extended x source)) = Rule.slack reach .rehebbian := by
  refine firstRidge_of_diagonal (by rw [size_gram, size_extended]; exact hne) (by linarith) fun i hi => ?_
  have hi : i < x.count := by rwa [size_gram, size_extended] at hi
  rw [entryAt_gram (by rw [size_extended]; exact hi) le_rfl, Batch.dot_extended hi hi, heven.self i hi]

/-- What even inputs recall after a flash: what they did, most of the residual, and what leaks. -/
theorem Even.out_flash (heven : Even source.midpoint reach x) (h : Batch c x y) (hreach : 0 ≤ reach) {i q : Nat}
    (hi : i < c.weights.height) (hq : q < x.count) :
    (flash rule c x y source target).connection.out i (x.column q) = c.out i (x.column q) +
      (reach * residual c x y target i q + rule.leak reach x.count * ∑ p ∈ range x.count, residual c x y target i p) /
        (reach + rule.slack reach) := by
  have hne : x.patterns ≠ [] := fun hnil => by
    rw [Columns.count, hnil] at hq
    exact Nat.not_lt_zero q hq
  -- with the same overlaps everywhere a combination is one of its own coefficient and the sum
  have hcombination : ∀ (z : Nat → ℝ), ∀ q < x.count, ∑ p ∈ range x.count,
      z p * overlap source.midpoint (x.column p) (x.column q) = reach * z q + ∑ p ∈ range x.count, z p := by
    intro z q hq
    have hterm : ∀ p ∈ range x.count, z p * overlap source.midpoint (x.column p) (x.column q) =
        z p + if q = p then reach * z p else 0 := by
      intro p hp
      by_cases hpq : q = p
      · subst hpq
        rw [heven.self q hq, if_pos rfl]
        ring
      · rw [heven.other p (mem_range.mp hp) q hq (Ne.symm hpq), if_neg hpq]
        ring
    rw [sum_congr rfl hterm, sum_add_distrib, sum_ite_eq, if_pos (mem_range.mpr hq)]
    ring
  cases rule with
  | hebbian =>
    have hterm : ∀ p ∈ range x.count, residual c x y target i p / overlap source.midpoint (x.column p) (x.column p) *
        overlap source.midpoint (x.column p) (x.column q) =
        residual c x y target i p / (reach + 1) * overlap source.midpoint (x.column p) (x.column q) := fun p hp => by
      rw [heven.self p (mem_range.mp hp)]
    rw [h.out_hebbian hne hi (h.size_column hq), sum_congr rfl hterm,
      hcombination (fun p => residual c x y target i p / (reach + 1)) q hq, ← sum_div, Rule.slack, Rule.leak]
    ring
  | rehebbian =>
    set ridge := Rule.slack reach .rehebbian with hridge
    have hpos : 0 < ridge := Rule.slack_pos hreach _
    obtain ⟨z, hz⟩ := h.exists_out_rehebbian hne
    obtain ⟨hgrows, hmissing⟩ := hz i hi
    rw [heven.firstRidge_eq hreach (by omega), ← hridge] at hmissing
    have hcoefficient : ∀ p < x.count, (reach + ridge) * z i p = residual c x y target i p - ∑ p ∈ range x.count, z i p := by
      intro p hp
      have hafter := hgrows _ (h.size_column hp)
      rw [hmissing p hp, hcombination (z i) p hp] at hafter
      rw [residual]
      linarith
    -- the sum of the coefficients, from the sum of these equations
    have hsum : (reach + ridge + x.count) * ∑ p ∈ range x.count, z i p = ∑ p ∈ range x.count, residual c x y target i p := by
      have hadded : ∑ p ∈ range x.count, (reach + ridge) * z i p =
          ∑ p ∈ range x.count, (residual c x y target i p - ∑ p ∈ range x.count, z i p) :=
        sum_congr rfl fun p hp => hcoefficient p (mem_range.mp hp)
      rw [← mul_sum, sum_sub_distrib, sum_const, card_range, nsmul_eq_mul] at hadded
      linarith
    have hdivisor : reach + ridge ≠ 0 := by linarith
    have hall : reach + ridge + x.count ≠ 0 := by positivity
    have hleak : Rule.leak reach x.count .rehebbian * ∑ p ∈ range x.count, residual c x y target i p =
        ridge * ∑ p ∈ range x.count, z i p := by
      rw [← hsum, Rule.leak, ← hridge]
      field_simp
    rw [hgrows _ (h.size_column hq), hcombination (z i) q hq, hleak, eq_comm, add_right_inj, div_eq_iff hdivisor]
    linear_combination (-reach) * hcoefficient q hq

end Association

/-! ## Batches of bits -/

/-- The patterns of the given bits side by side. -/
noncomputable def Activator.columns (a : Activator ℝ) (height : Nat) (bits : List Bits) : Columns ℝ :=
  ⟨height, bits.map a.pattern⟩

@[simp] theorem Activator.count_columns (a : Activator ℝ) (height : Nat) (bits : List Bits) :
    (a.columns height bits).count = bits.length := List.length_map _

theorem Activator.column_columns (a : Activator ℝ) (height : Nat) {bits : List Bits} {q : Nat} (hq : q < bits.length) :
    (a.columns height bits).column q = a.pattern (bits.getD q []) := by
  rw [Columns.column, columns, List.getD_eq_getElem _ _ (by simpa using hq), List.getElem_map, List.getD_eq_getElem _ _ hq]

/-- The bit of a unit in a column of the targets. -/
def bitAt (targets : List Bits) (q i : Nat) : Bool := (targets.getD q []).getD i false

/-- The columns in which a unit is on, less those in which it is off. -/
noncomputable def tally (targets : List Bits) (i : Nat) : ℝ := ∑ q ∈ range targets.length, sign (bitAt targets q i)

/-- Whether a unit takes its bit in a column against what leaks from all columns. A unit that is not
driven is off. -/
def Survives (rule : Rule) (reach : ℝ) (targets : List Bits) (q i : Nat) : Prop :=
  if bitAt targets q i then 0 < reach + rule.leak reach targets.length * tally targets i
  else rule.leak reach targets.length * tally targets i ≤ reach

/-- The columns with the same bit in a unit are not all against one of them. -/
theorem two_sub_le_sign_mul_tally {targets : List Bits} {q : Nat} (hq : q < targets.length) (i : Nat) :
    2 - (targets.length : ℝ) ≤ sign (bitAt targets q i) * tally targets i := by
  have hcard : (((range targets.length).erase q).card : ℝ) = targets.length - 1 := by
    rw [card_erase_of_mem (mem_range.mpr hq), card_range, Nat.cast_sub (by omega), Nat.cast_one]
  have hothers : -(targets.length - 1 : ℝ) ≤
      ∑ p ∈ (range targets.length).erase q, sign (bitAt targets q i) * sign (bitAt targets p i) := by
    rw [← hcard, ← mul_neg_one, ← nsmul_eq_mul]
    refine card_nsmul_le_sum _ _ _ fun p _ => ?_
    cases bitAt targets q i <;> cases bitAt targets p i <;> simp
  rw [tally, ← add_sum_erase _ _ (mem_range.mpr hq), mul_add, sign_mul_self, mul_sum]
  linarith

/-- A bit survives when the other columns together leak less than the reach. -/
theorem survives_of_leak_lt {rule : Rule} {reach : ℝ} (hreach : 0 ≤ reach) {targets : List Bits} {q : Nat}
    (hq : q < targets.length) (hleak : rule.leak reach targets.length * (targets.length - 2) < reach) (i : Nat) :
    Survives rule reach targets q i := by
  have htally := mul_le_mul_of_nonneg_left (two_sub_le_sign_mul_tally hq i) (Rule.leak_pos hreach targets.length rule).le
  unfold Survives
  cases hbit : bitAt targets q i with
  | true =>
    rw [hbit, sign_true, one_mul] at htally
    rw [if_pos rfl]
    linarith
  | false =>
    rw [hbit, sign_false] at htally
    rw [if_neg Bool.false_ne_true]
    linarith

namespace Association

/-- Inputs with targets of the given bits, for a connection of the given dimensions. -/
structure BitBatch (x : Columns ℝ) (targets : List Bits) (height width : Nat) : Prop where
  units : x.height = width
  inputs : ∀ u ∈ x.patterns, u.size = width
  count : x.count = targets.length
  lengths : ∀ t ∈ targets, t.length = height

section Survival

variable {rule : Rule} {x : Columns ℝ} {source target : Activator ℝ} {reach : ℝ} {height width : Nat} {targets : List Bits}

theorem BitBatch.batch (h : BitBatch x targets height width) :
    Batch (.zero height width) x (target.columns height targets) :=
  ⟨Connection.fits_zero _ _, rfl, h.units, h.inputs, by rw [count_columns, h.count]⟩

theorem BitBatch.length_target (h : BitBatch x targets height width) {q : Nat} (hq : q < targets.length) :
    (targets.getD q []).length = height := by
  rw [List.getD_eq_getElem _ _ hq]
  exact h.lengths _ (List.getElem_mem hq)

theorem BitBatch.entry_column (h : BitBatch x targets height width) {q i : Nat} (hq : q < targets.length) (hi : i < height) :
    ((target.columns height targets).column q).entry i = target.level (bitAt targets q i) := by
  rw [column_columns _ _ hq, entry_pattern _ (h.length_target hq ▸ hi), bitAt]

/-- Written from zero, a unit takes its bit exactly if the bit survives. -/
theorem Even.isOn_out_iff (heven : Even source.midpoint reach x) (hreach : 0 ≤ reach) (htarget : target.Proper)
    (h : BitBatch x targets height width) {q i : Nat} (hq : q < targets.length) (hi : i < height) :
    target.isOn (target.squash ((flash rule (.zero height width) x (target.columns height targets) source target).connection.out
      i (x.column q))) = bitAt targets q i ↔ Survives rule reach targets q i := by
  have hresidual : ∀ p < x.count, residual (.zero height width) x (target.columns height targets) target i p =
      target.depth * sign (bitAt targets p i) := by
    intro p hp
    rw [residual, h.entry_column (h.count ▸ hp) hi, htarget.inverse_level, Connection.out_zero, sub_zero, mul_comm]
  have hslack := Rule.slack_pos hreach rule
  have hdepth := htarget.depth_pos
  have hout : (flash rule (.zero height width) x (target.columns height targets) source target).connection.out i
      (x.column q) = target.depth / (reach + rule.slack reach) *
        (reach * sign (bitAt targets q i) + rule.leak reach targets.length * tally targets i) := by
    rw [heven.out_flash h.batch hreach hi (h.count ▸ hq), Connection.out_zero, zero_add,
      hresidual q (h.count ▸ hq), sum_congr rfl fun p hp => hresidual p (mem_range.mp hp), ← mul_sum, h.count, tally]
    ring
  have hfactor : 0 < target.depth / (reach + rule.slack reach) := div_pos hdepth (by linarith)
  rw [hout, Survives]
  cases bitAt targets q i with
  | true => rw [htarget.isOn_squash, if_pos rfl, mul_pos_iff_of_pos_left hfactor, sign_true, mul_one]
  | false =>
    rw [htarget.isOn_squash_eq_false, if_neg Bool.false_ne_true, mul_nonpos_iff_pos_imp_nonpos, sign_false]
    constructor
    · intro h
      linarith [h.1 hfactor]
    · intro h
      exact ⟨fun _ => by linarith, fun _ => hfactor.le⟩

/-- A column is recalled with its bits exactly if they all survive. -/
theorem Even.bits_recalled_iff (heven : Even source.midpoint reach x) (hreach : 0 ≤ reach) (htarget : target.Proper)
    (h : BitBatch x targets height width) {q : Nat} (hq : q < targets.length) :
    target.bits ((flash rule (.zero height width) x (target.columns height targets) source target).connection.recalled
      target (x.column q)) = targets.getD q [] ↔ ∀ i < height, Survives rule reach targets q i := by
  have hlength := h.length_target hq
  have hwidth : (x.column q).size =
      (flash rule (.zero height width) x (target.columns height targets) source target).connection.weights.width := by
    rw [width_flash, h.inputs _ (Columns.column_mem (h.count ▸ hq))]
    rfl
  have hout : ∀ i < height, (target.isOn (target.squash ((flash rule (.zero height width) x (target.columns height targets)
      source target).connection.out i (x.column q))) = (targets.getD q []).getD i false ↔ Survives rule reach targets q i) :=
    fun i hi => heven.isOn_out_iff hreach htarget h hq hi
  have hbatch : Batch (.zero height width) x (target.columns height targets) := h.batch
  rw [Connection.bits_recalled (fits_flash hbatch.fits hbatch.height) hwidth, height_flash]
  constructor
  · intro heq i hi
    have hi' : i < ((List.range height).map fun i => target.isOn (target.squash ((flash rule (.zero height width) x
        (target.columns height targets) source target).connection.out i (x.column q)))).length := by simpa using hi
    rw [← hout i hi, ← heq]
    exact ((List.getD_eq_getElem _ _ hi').trans (by simp)).symm
  · intro hall
    refine List.ext_getElem (by rw [List.length_map, List.length_range, hlength]; rfl) fun i h₁ h₂ => ?_
    rw [List.getElem_map, List.getElem_range, (hout i (hlength ▸ h₂)).mpr (hall i (hlength ▸ h₂)), List.getD_eq_getElem _ _ h₂]

/-- Nothing is missed exactly if all bits survive. -/
theorem Even.errors_eq_zero_iff (heven : Even source.midpoint reach x) (hreach : 0 ≤ reach) (htarget : target.Proper)
    (h : BitBatch x targets height width) :
    (flash rule (.zero height width) x (target.columns height targets) source target).errors = 0 ↔
      ∀ q < targets.length, ∀ i < height, Survives rule reach targets q i := by
  have hbatch : Batch (.zero height width) x (target.columns height targets) := h.batch
  by_cases hne : x.patterns = []
  · have hnone : targets.length = 0 := by
      rw [← h.count, Columns.count, hne]
      rfl
    simp [flash, hne, hnone]
  rw [errors_flash _ _ _ _ _ _ hne, Connection.errors_eq_zero_iff (fits_flash hbatch.fits hbatch.height) hbatch.count
    (by rw [width_flash]; exact hbatch.inputs) ?_, height_flash, h.count]
  · refine forall₂_congr fun q hq => forall₂_congr fun i hi => ?_
    rw [h.entry_column hq hi, htarget.isOn_level, heven.isOn_out_iff hreach htarget h hq hi]
  · rw [height_flash]
    intro v hv
    obtain ⟨t, ht, rfl⟩ := List.mem_map.mp hv
    rw [size_pattern, h.lengths t ht]
    rfl

end Survival

/-! ## Columns of the Sylvester matrix -/

open CodeBook

/-- Different columns of the Sylvester matrix are even inputs, however the units are flipped. -/
theorem even_sylvester (a : Activator ℝ) {size : Nat} (hsize : Sylvester.isPowerOfTwo size = true) {f : OrthogonalFamily}
    (hsigns : f.signs.length = size) {columns : List Nat} (hnodup : columns.Nodup) (hlt : ∀ j ∈ columns, j < size) :
    Even a.midpoint (size * a.span ^ 2) (a.columns size (columns.map (OrthogonalFamily.bits f))) := by
  have hlength : (columns.map (OrthogonalFamily.bits f)).length = columns.length := List.length_map _
  have hoverlap : ∀ p (hp : p < columns.length) q (hq : q < columns.length),
      overlap a.midpoint ((a.columns size (columns.map (OrthogonalFamily.bits f))).column p)
        ((a.columns size (columns.map (OrthogonalFamily.bits f))).column q) =
      (if columns[p] = columns[q] then size * a.span ^ 2 else 0) + 1 := by
    intro p hp q hq
    rw [column_columns _ _ (hlength ▸ hp), column_columns _ _ (hlength ▸ hq), List.getD_eq_getElem _ _ (hlength ▸ hp),
      List.getD_eq_getElem _ _ (hlength ▸ hq), List.getElem_map, List.getElem_map, overlap_eq (by simp), size_pattern,
      length_familyBits, hsigns, sum_centred f a hsigns hsize (hlt _ (List.getElem_mem hp)) (hlt _ (List.getElem_mem hq))]
  refine ⟨fun p hp => ?_, fun p hp q hq hpq => ?_⟩
  · rw [count_columns, hlength] at hp
    rw [hoverlap p hp p hp, if_pos rfl]
  · rw [count_columns, hlength] at hp hq
    rw [hoverlap p hp q hq, if_neg fun heq => hpq (hnodup.getElem_inj_iff.mp heq), zero_add]

/-- By the second rule the others leak less than the ridge. -/
theorem leak_rehebbian_lt {reach : ℝ} (hreach : 0 < reach) (hridge : Rule.slack reach .rehebbian ≤ reach) (count : Nat) :
    Rule.leak reach count .rehebbian * (count - 2) < reach := by
  have hslack := Rule.slack_pos hreach.le .rehebbian
  have hdivisor : 0 < reach + Rule.slack reach .rehebbian + count := by positivity
  refine lt_of_lt_of_le ?_ hridge
  rw [Rule.leak, div_mul_eq_mul_div, div_lt_iff₀ hdivisor]
  exact mul_lt_mul_of_pos_left (by linarith) hslack

/-- Written by the second rule from zero, any targets of different columns of the Sylvester matrix, the units
flipped in any way, are recalled without errors. -/
theorem errors_rehebbian_sylvester {source target : Activator ℝ} (hkind : source.kind = .tanh) (hsource : source.Proper)
    (htarget : target.Proper) {k : Nat} {f : OrthogonalFamily}
    (hsigns : f.signs.length = 2 ^ k) {columns : List Nat} (hnodup : columns.Nodup) (hlt : ∀ j ∈ columns, j < 2 ^ k)
    {height : Nat} {targets : List Bits} (hcount : targets.length = columns.length)
    (hheight : ∀ t ∈ targets, t.length = height) :
    ∃ flashed, flash? .rehebbian (.zero height (2 ^ k)) (source.columns (2 ^ k) (columns.map (OrthogonalFamily.bits f)))
        (target.columns height targets) source target = .ok flashed ∧ flashed.errors = 0 := by
  set x := source.columns (2 ^ k) (columns.map (OrthogonalFamily.bits f)) with hx
  have heven : Even source.midpoint ((2 ^ k : Nat) * source.span ^ 2) x :=
    even_sylvester source (Sylvester.isPowerOfTwo_two_pow k) hsigns hnodup hlt
  have hbatch : BitBatch x targets height (2 ^ k) := by
    refine ⟨rfl, fun u hu => ?_, by rw [hx, count_columns, List.length_map, hcount], hheight⟩
    obtain ⟨b, hb, rfl⟩ := List.mem_map.mp hu
    obtain ⟨j, -, rfl⟩ := List.mem_map.mp hb
    rw [size_pattern, length_familyBits, hsigns]
  -- the levels are more than one half from the midpoint, so the reach is more than a quarter
  have hreach : 1 / 4 ≤ ((2 ^ k : Nat) : ℝ) * source.span ^ 2 := by
    have hspan : 1 / 2 ≤ source.span := by
      rw [span_tanh hkind]
      linarith [hsource.pad_lt]
    have hone : (1 : ℝ) ≤ ((2 ^ k : Nat) : ℝ) := by exact_mod_cast Nat.one_le_two_pow
    nlinarith
  have hridge : Rule.slack ((2 ^ k : Nat) * source.span ^ 2) .rehebbian ≤ (2 ^ k : Nat) * source.span ^ 2 := by
    rw [Rule.slack, Nat.cast_ofNat, div_le_iff₀ (by norm_num)]
    linarith
  have hordered : target.ordered = true := (Scalar.le_eq_true _ _).mpr htarget.off_lt_on.le
  refine ⟨_, hbatch.batch.flash?_eq hordered, ?_⟩
  exact (heven.errors_eq_zero_iff (by linarith) htarget hbatch).mpr fun q hq i _ =>
    survives_of_leak_lt (by linarith) hq (leak_rehebbian_lt (by linarith) hridge targets.length) i

/-- All four columns of the matrix of size four, two units flipped, with targets of three units. -/
theorem four_columns_recalled : (standard : Activator ℝ).kind = .tanh ∧ (standard : Activator ℝ).Proper ∧
    [0, 3, 1, 2].Nodup ∧ (∀ j ∈ [0, 3, 1, 2], j < 2 ^ 2) ∧
    ∃ flashed, flash? .rehebbian (.zero 3 (2 ^ 2))
        ((standard : Activator ℝ).columns (2 ^ 2)
          ([0, 3, 1, 2].map (OrthogonalFamily.bits ⟨[true, false, false, true], [], 0⟩)))
        ((standard : Activator ℝ).columns 3
          [[true, false, true], [true, true, true], [false, false, true], [true, false, true]])
        standard standard = .ok flashed ∧ flashed.errors = 0 :=
  ⟨rfl, proper_standard, by decide, by decide,
    errors_rehebbian_sylvester rfl proper_standard proper_standard rfl (by decide) (by decide) rfl (by decide)⟩

end Association

end Engram
