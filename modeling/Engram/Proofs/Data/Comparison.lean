/-
  Engram.Proofs.Data.Comparison — what the comparison answers.

  The dipole from the comparison input to its output is cleared by each write, so what it holds
  depends on the newest key only (`dipoleAfter_append_singleton`). A row of it starts at the
  level of `false` and moves towards `true` by the share of the overlap of an input with the key
  (`out_dipoleAfter`):

    off + share (on - off) ⟨key, input⟩ / ⟨key, key⟩

  Overlaps fall with the number of units in which the input differs from the key
  (`overlap_pattern`). So the comparison answers `true` to the key and to every input near it,
  and `false` to the inputs that differ in about a quarter of the units or more
  (`recalled_dipole`): one unit does not tell two keys apart.
-/

import Engram.Proofs.Exact.Batches
import Engram.Proofs.Data.Store

namespace Engram

open Activator

/-! ## Units that differ -/

/-- The number of units in which two patterns of bits differ. -/
def Bits.distance (a b : Bits) : Nat := (a.zip b).countP fun p => p.1 != p.2

@[simp] theorem Bits.distance_self (a : Bits) : Bits.distance a a = 0 := by
  induction a with
  | nil => rfl
  | cons b a ih => simpa [distance] using ih

theorem Bits.sum_sign {x z : Bits} (h : x.length = z.length) :
    ∑ j ∈ Finset.range x.length, sign (x.getD j false) * sign (z.getD j false) =
      x.length - 2 * (Bits.distance x z : ℝ) := by
  induction x generalizing z with
  | nil => simp [distance]
  | cons b x ih =>
    obtain ⟨d, z, rfl⟩ := List.exists_cons_of_length_eq_add_one h.symm
    have hlength : x.length = z.length := Nat.succ.inj h
    rw [List.length_cons, Finset.sum_range_succ']
    simp only [List.getD_cons_succ, List.getD_cons_zero]
    rw [ih hlength]
    unfold distance
    rw [List.zip_cons_cons, List.countP_cons]
    cases b <;> cases d <;> simp <;> ring

/-- Each unit in which two patterns agree adds to their overlap what a unit in which they differ
takes. -/
theorem Activator.overlap_pattern (a : Activator ℝ) {x z : Bits} (h : x.length = z.length) :
    Association.overlap a.midpoint (a.pattern x) (a.pattern z) =
      a.span ^ 2 * (x.length - 2 * (Bits.distance x z : ℝ)) + 1 := by
  rw [Association.overlap_eq (by simpa using h), size_pattern, ← Bits.sum_sign h, Finset.mul_sum]
  congr 1
  refine Finset.sum_congr rfl fun j hj => ?_
  rw [Finset.mem_range] at hj
  rw [a.entry_pattern hj, a.entry_pattern (h ▸ hj), level_eq, level_eq]
  ring

/-! ## The newest key -/

/-- The overlap of two keys of the comparison that differ in some number of units. -/
noncomputable def Config.keyOverlap (c : Config ℝ) (distance : Nat) : ℝ :=
  c.activator.span ^ 2 * (c.layerSize - (2 * distance : Nat)) + 1

/-- What some writes, each of a key and a pattern on the output, leave of a dipole. -/
noncomputable def dipoleAfter (c : Config ℝ) (rule : Rule) (on off : Bits) (writes : List (Bits × Bits)) : Connection ℝ :=
  let dipole : Plasticity ℝ := .dipole (c.activator.pattern on) (c.activator.pattern off)
  writes.foldl (fun held w => (dipole.write rule held (c.activator.pattern w.1) (c.activator.pattern w.2)
    c.activator c.activator).connection) (dipole.baseline c.activator off.length c.layerSize)

/-- A dipole that nothing was written to. -/
noncomputable def clearedDipole (c : Config ℝ) (off : Bits) : Connection ℝ :=
  ⟨.zero off.length c.layerSize, (c.activator.pattern off).map c.activator.inverse⟩

section

variable {c : Config ℝ} {rule : Rule} {on off : Bits}

theorem dipoleAfter_append_singleton (writes : List (Bits × Bits)) (w : Bits × Bits) :
    dipoleAfter c rule on off (writes ++ [w]) = (Association.flash rule
      ⟨.zero (dipoleAfter c rule on off writes).weights.height (dipoleAfter c rule on off writes).weights.width,
        (c.activator.pattern off).map c.activator.inverse⟩
      (.single (c.activator.pattern w.1)) (.single (c.activator.pattern on)) c.activator c.activator).connection := by
  simp only [dipoleAfter, List.foldl_append, List.foldl_cons, List.foldl_nil]
  rfl

theorem dimensions_dipoleAfter (rule : Rule) (on off : Bits) (writes : List (Bits × Bits)) :
    (dipoleAfter c rule on off writes).weights.height = off.length ∧
      (dipoleAfter c rule on off writes).weights.width = c.layerSize := by
  induction writes using List.reverseRecOn with
  | nil => exact ⟨rfl, rfl⟩
  | append_singleton writes w ih =>
    rw [dipoleAfter_append_singleton, Association.height_flash, Association.width_flash]
    exact ih

/-- Each write forgets those before it. -/
theorem dipoleAfter_append_singleton_eq (writes : List (Bits × Bits)) (w : Bits × Bits) :
    dipoleAfter c rule on off (writes ++ [w]) = (Association.flash rule (clearedDipole c off)
      (.single (c.activator.pattern w.1)) (.single (c.activator.pattern on)) c.activator c.activator).connection := by
  obtain ⟨hheight, hwidth⟩ := dimensions_dipoleAfter (c := c) rule on off writes
  rw [dipoleAfter_append_singleton, hheight, hwidth]
  rfl

theorem fits_clearedDipole (c : Config ℝ) (off : Bits) : (clearedDipole c off).Fits := by
  simp [Connection.Fits, clearedDipole]

theorem fits_dipoleAfter (rule : Rule) (hlength : on.length = off.length) (writes : List (Bits × Bits)) :
    (dipoleAfter c rule on off writes).Fits := by
  induction writes using List.reverseRecOn with
  | nil => exact fits_clearedDipole c off
  | append_singleton writes w =>
    rw [dipoleAfter_append_singleton_eq]
    exact Association.fits_flash (fits_clearedDipole c off) (by simpa [clearedDipole, Columns.single] using hlength)

/-- The bits that are recalled are those of the signs that the rows produce. -/
theorem bits_recalled_dipole (hproper : c.activator.Proper) {d : Connection ℝ} (hfits : d.Fits)
    (hwidth : d.weights.width = c.layerSize) {bits z : Bits} (hheight : d.weights.height = bits.length)
    (hz : z.length = c.layerSize)
    (hout : ∀ i, i < bits.length → 0 < sign (bits.getD i false) * d.out i (c.activator.pattern z)) :
    c.activator.bits (d.recalled c.activator (c.activator.pattern z)) = bits := by
  rw [Connection.bits_recalled hfits (by rw [size_pattern, hz, hwidth]), hheight]
  apply List.ext_getElem
  · simp
  · intro i h₁ h₂
    rw [List.getElem_map, List.getElem_range, hproper.isOn_squash_of_sign (hout i h₂), List.getD_eq_getElem _ _ h₂]

/-- A row of a dipole that nothing was written to produces the level of `off`. -/
theorem out_clearedDipole (hproper : c.activator.Proper) {i : Nat} (hi : i < off.length) (x : Pattern ℝ) :
    (clearedDipole c off).out i x = sign (off.getD i false) * c.activator.depth := by
  have hbias : (clearedDipole c off).bias.entry i = sign (off.getD i false) * c.activator.depth := by
    unfold clearedDipole
    rw [Pattern.entry_map _ (by simpa using hi), c.activator.entry_pattern hi, hproper.inverse_level]
  rw [Connection.out, hbias]
  simp [clearedDipole, Matrix.entry_zero]

/-- A row of a dipole moves from `off` towards `on` by the share of the overlap with the newest
key. -/
theorem out_dipoleAfter (hproper : c.activator.Proper) (hlength : on.length = off.length)
    (writes : List (Bits × Bits)) {x y z : Bits} (hx : x.length = c.layerSize) (hz : z.length = c.layerSize)
    {i : Nat} (hi : i < off.length) :
    (dipoleAfter c rule on off (writes ++ [(x, y)])).out i (c.activator.pattern z) =
      c.activator.depth * (sign (off.getD i false) + rule.share *
        (sign (on.getD i false) - sign (off.getD i false)) * (c.keyOverlap (Bits.distance x z) / c.keyOverlap 0)) := by
  have hoverlap : ∀ z : Bits, z.length = c.layerSize →
      Association.overlap c.activator.midpoint (c.activator.pattern x) (c.activator.pattern z) =
        c.keyOverlap (Bits.distance x z) := fun z hz => by
    rw [c.activator.overlap_pattern (hx.trans hz.symm), hx, Config.keyOverlap]
    push_cast
    rfl
  have hon : i < on.length := hlength ▸ hi
  rw [dipoleAfter_append_singleton_eq, Association.out_flash_single _ _ _ (fits_clearedDipole c off)
    (by simpa [clearedDipole] using hx) (by simpa [clearedDipole] using hlength) (by simpa [clearedDipole] using hz) hi,
    out_clearedDipole hproper hi, out_clearedDipole hproper hi, c.activator.entry_pattern hon, hproper.inverse_level,
    hoverlap x hx, hoverlap z hz, Bits.distance_self]
  ring

theorem Config.keyOverlap_zero_pos (c : Config ℝ) : 0 < c.keyOverlap 0 := by
  unfold keyOverlap
  rw [Nat.mul_zero, Nat.cast_zero, sub_zero]
  positivity

theorem Rule.one_lt_two_mul_share (r : Rule) : 1 < 2 * r.share := by
  cases r <;> simp only [share] <;> norm_num

/-- An input near the newest key is answered as the key is. -/
theorem recalled_dipole_near (hproper : c.activator.Proper) (hlength : on.length = off.length)
    (writes : List (Bits × Bits)) {x y z : Bits} (hx : x.length = c.layerSize) (hz : z.length = c.layerSize)
    (hnear : c.keyOverlap 0 < 2 * rule.share * c.keyOverlap (Bits.distance x z)) :
    c.activator.bits ((dipoleAfter c rule on off (writes ++ [(x, y)])).recalled c.activator (c.activator.pattern z)) =
      on := by
  obtain ⟨hheight, hwidth⟩ := dimensions_dipoleAfter (c := c) rule on off (writes ++ [(x, y)])
  refine bits_recalled_dipole hproper (fits_dipoleAfter rule hlength _) hwidth (hheight.trans hlength.symm) hz
    fun i hi => ?_
  rw [out_dipoleAfter hproper hlength writes hx hz (hlength ▸ hi)]
  have hratio : 1 < 2 * rule.share * (c.keyOverlap (Bits.distance x z) / c.keyOverlap 0) := by
    rw [← mul_div_assoc, one_lt_div c.keyOverlap_zero_pos]
    exact hnear
  have hdepth := hproper.depth_pos
  cases on.getD i false <;> cases off.getD i false <;> simp only [sign_true, sign_false] <;> nlinarith

/-- An input far from the newest key is answered as if nothing was written. -/
theorem recalled_dipole_far (hproper : c.activator.Proper) (hlength : on.length = off.length)
    (writes : List (Bits × Bits)) {x y z : Bits} (hx : x.length = c.layerSize) (hz : z.length = c.layerSize)
    (hfar : 2 * rule.share * c.keyOverlap (Bits.distance x z) < c.keyOverlap 0) :
    c.activator.bits ((dipoleAfter c rule on off (writes ++ [(x, y)])).recalled c.activator (c.activator.pattern z)) =
      off := by
  obtain ⟨hheight, hwidth⟩ := dimensions_dipoleAfter (c := c) rule on off (writes ++ [(x, y)])
  refine bits_recalled_dipole hproper (fits_dipoleAfter rule hlength _) hwidth hheight hz fun i hi => ?_
  rw [out_dipoleAfter hproper hlength writes hx hz hi]
  have hratio : 2 * rule.share * (c.keyOverlap (Bits.distance x z) / c.keyOverlap 0) < 1 := by
    rw [← mul_div_assoc, div_lt_one c.keyOverlap_zero_pos]
    exact hfar
  have hdepth := hproper.depth_pos
  cases on.getD i false <;> cases off.getD i false <;> simp only [sign_true, sign_false] <;> nlinarith

end

/-- A comparison that nothing was written to answers `off`. After any writes it answers `on` to the
newest key and to the inputs near it, and `off` to the inputs far from it. -/
theorem comparison_answers (c : Config ℝ) (hc : c.validate = .ok ()) (rule : Rule) (on off : Bits)
    (hlength : on.length = off.length) :
    (∀ z : Bits, z.length = c.layerSize →
      c.activator.bits ((dipoleAfter c rule on off []).recalled c.activator (c.activator.pattern z)) = off) ∧
    ∀ (writes : List (Bits × Bits)) (x y : Bits), x.length = c.layerSize →
      let held := dipoleAfter c rule on off (writes ++ [(x, y)])
      c.activator.bits (held.recalled c.activator (c.activator.pattern x)) = on ∧
      ∀ z : Bits, z.length = c.layerSize →
        (c.keyOverlap 0 < 2 * rule.share * c.keyOverlap (Bits.distance x z) →
          c.activator.bits (held.recalled c.activator (c.activator.pattern z)) = on) ∧
        (2 * rule.share * c.keyOverlap (Bits.distance x z) < c.keyOverlap 0 →
          c.activator.bits (held.recalled c.activator (c.activator.pattern z)) = off) := by
  have hproper := (Config.sized_of_validate hc).proper
  refine ⟨fun z hz => ?_, fun writes x y hx => ⟨?_, fun z hz => ⟨?_, ?_⟩⟩⟩
  · exact bits_recalled_dipole hproper (fits_clearedDipole c off) rfl rfl hz fun i hi => by
      rw [out_clearedDipole hproper hi, ← mul_assoc, sign_mul_self, one_mul]
      exact hproper.depth_pos
  · refine recalled_dipole_near hproper hlength writes hx hx ?_
    rw [Bits.distance_self]
    exact lt_mul_of_one_lt_left c.keyOverlap_zero_pos rule.one_lt_two_mul_share
  · exact recalled_dipole_near hproper hlength writes hx hz
  · exact recalled_dipole_far hproper hlength writes hx hz

theorem Config.keyOverlap_standard (distance : Nat) :
    (Config.standard : Config ℝ).keyOverlap distance = (1 - 1 / 1000) ^ 2 * (64 - 2 * distance) + 1 := by
  rw [keyOverlap, span_standard]
  push_cast
  rfl

/-- The standard comparison tells a key from its opposite. -/
theorem standard_comparison_answers :
    (Config.standard : Config ℝ).validate = .ok () ∧ [true].length = [false].length ∧
      (let held := dipoleAfter (Config.standard : Config ℝ) .rehebbian [true] [false] [(List.replicate 64 true, [true])]
      (Config.standard : Config ℝ).activator.bits (held.recalled (Config.standard : Config ℝ).activator
        ((Config.standard : Config ℝ).activator.pattern (List.replicate 64 true))) = [true] ∧
      (Config.standard : Config ℝ).activator.bits (held.recalled (Config.standard : Config ℝ).activator
        ((Config.standard : Config ℝ).activator.pattern (List.replicate 64 false))) = [false]) := by
  obtain ⟨hkey, hother⟩ := (comparison_answers Config.standard Config.validate_standard .rehebbian [true] [false] rfl).2
    [] (List.replicate 64 true) [true] rfl
  refine ⟨Config.validate_standard, rfl, hkey, (hother (List.replicate 64 false) rfl).2 ?_⟩
  rw [show Bits.distance (List.replicate 64 true) (List.replicate 64 false) = 64 from by decide,
    Config.keyOverlap_standard, Config.keyOverlap_standard, Rule.share]
  norm_num

/-- The standard comparison answers `on` to all that differs from the key in at most sixteen of the
64 units. -/
theorem standard_recalled_near {on off x z : Bits} (hlength : on.length = off.length) (hx : x.length = 64)
    (hz : z.length = 64) (hnear : Bits.distance x z ≤ 16) (writes : List (Bits × Bits)) (y : Bits) :
    (Config.standard : Config ℝ).activator.bits ((dipoleAfter Config.standard (Config.standard : Config ℝ).rule on off
      (writes ++ [(x, y)])).recalled (Config.standard : Config ℝ).activator
        ((Config.standard : Config ℝ).activator.pattern z)) = on := by
  have hnear : ((Bits.distance x z : Nat) : ℝ) ≤ 16 := by exact_mod_cast hnear
  refine recalled_dipole_near (Config.sized_of_validate Config.validate_standard).proper hlength writes hx hz ?_
  rw [Config.keyOverlap_standard, Config.keyOverlap_standard, Nat.cast_zero]
  simp only [Config.standard, Rule.share]
  norm_num
  linarith

/-- One unit more or less is the same key to the standard comparison. -/
theorem standard_comparison_confuses :
    (Config.standard : Config ℝ).validate = .ok () ∧
      ∃ x z on off : Bits, x.length = 64 ∧ z.length = 64 ∧ on.length = 64 ∧ off.length = 64 ∧ x ≠ z ∧ on ≠ off ∧
        (Config.standard : Config ℝ).activator.bits ((dipoleAfter Config.standard (Config.standard : Config ℝ).rule on off
          ([] ++ [(x, x)])).recalled (Config.standard : Config ℝ).activator
            ((Config.standard : Config ℝ).activator.pattern z)) = on := by
  have hon : (List.replicate 64 true).length = 64 := List.length_replicate
  have hoff : (List.replicate 64 false).length = 64 := List.length_replicate
  have hz : (false :: List.replicate 63 true).length = 64 := rfl
  have hnear : Bits.distance (List.replicate 64 true) (false :: List.replicate 63 true) ≤ 16 := by decide
  exact ⟨Config.validate_standard, _, _, _, _, hon, hz, hon, hoff, by decide, by decide,
    standard_recalled_near (hon.trans hoff.symm) hon hz hnear [] _⟩

end Engram
