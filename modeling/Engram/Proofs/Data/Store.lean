/-
  Engram.Proofs.Data.Store — cells keep what was last written to them.

  A store is written one association at a time, from zero, under the slot patterns of a pointer
  layer. Row by row it is the system of coefficients of `Interference`: a row produces for a slot
  pattern what the key of that slot reads (`out_storeAfter`), since the slot patterns are
  orthogonal but for the constant unit (`SlotKeys`).

  So a slot is recalled with the bits last written under it, after any history
  (`recalled_last_written`), provided that the other slots are few against the overlap of a slot
  with itself (`Config.Roomy`). Validity alone does not give that: with small layers, a wide pad
  and both slots in use, the second write turns a bit of the first cell
  (`crowded_store_turns_bit`).
-/

import Engram.Proofs.Exact.Batches
import Engram.Proofs.Data.Interference
import Engram.Proofs.Data.Slots
import Engram.Proofs.Layer.Orthogonal
import Engram.Proofs.Network.Built
import Engram.Data.Plasticity

namespace Engram

open Activator

/-! ## Valid configurations -/

namespace Config

/-- What validity says about the numbers of a configuration. -/
structure Sized (c : Config ℝ) : Prop where
  power : Sylvester.isPowerOfTwo c.layerSize = true
  eight_le : 8 ≤ c.layerSize
  two_le_slots : 2 ≤ c.pointerSlots
  slots_le : c.pointerSlots ≤ c.layerSize
  proper : c.activator.Proper

theorem sized_of_validate {c : Config ℝ} (h : c.validate = .ok ()) : c.Sized := by
  have hf := fault?_eq_none h
  unfold fault? at hf
  split at hf
  · cases hf
  split at hf
  · cases hf
  split at hf
  · cases hf
  next hlayer =>
  split at hf
  · cases hf
  split at hf
  · cases hf
  next hpad =>
  split at hf
  · cases hf
  next hslots =>
  simp only [Bool.or_eq_true, Bool.not_eq_true', decide_eq_true_eq, not_or, Bool.not_eq_false, not_lt] at hlayer
  simp only [Bool.not_eq_true', Bool.and_eq_false_iff, Scalar.lt_eq_false, not_or, not_le] at hpad
  simp only [not_or, not_lt] at hslots
  exact ⟨hlayer.1, hlayer.2, hslots.1, hslots.2, ⟨hpad.1, by simpa [activator] using hpad.2⟩⟩

end Config

/-! ## Slot patterns -/

namespace Config

variable (c : Config ℝ)

/-- The slot patterns of a pointer layer of a configuration. -/
noncomputable def slotKeys (name : String) (seed : UInt64) : Except (Fault ℝ) (List (Pattern ℝ)) :=
  ((Layer.new name c.layerSize c.activator seed).encodeAll true ((List.range c.pointerSlots).map Pointer.slotToken)).1

/-- The overlap of a slot pattern with itself without the constant unit. -/
noncomputable def slotOverlap : ℝ := c.layerSize * c.activator.span ^ 2

/-- Patterns of the size of a layer that have the constant unit in common and nothing else. -/
structure SlotKeys (keys : List (Pattern ℝ)) : Prop where
  length : keys.length = c.pointerSlots
  size : ∀ k (h : k < keys.length), keys[k].size = c.layerSize
  overlap : ∀ j k (hj : j < keys.length) (hk : k < keys.length),
    Association.overlap c.activator.midpoint keys[j] keys[k] = if j = k then c.slotOverlap + 1 else 1

variable {c}

theorem Sized.slotOverlap_pos (h : c.Sized) : 0 < c.slotOverlap := by
  have h₁ : (0 : ℝ) < c.layerSize := by
    have := h.eight_le
    exact_mod_cast (by omega : 0 < c.layerSize)
  have h₂ := h.proper.span_pos
  unfold slotOverlap
  positivity

theorem SlotKeys.size_slot {keys : List (Pattern ℝ)} (h : c.SlotKeys keys) (s : Fin c.pointerSlots) :
    (keys.getD s #[]).size = c.layerSize := by
  have hs : s.val < keys.length := by rw [h.length]; exact s.isLt
  rw [List.getD_eq_getElem _ _ hs, h.size]

theorem SlotKeys.overlap_slot {keys : List (Pattern ℝ)} (h : c.SlotKeys keys) (s s' : Fin c.pointerSlots) :
    Association.overlap c.activator.midpoint (keys.getD s #[]) (keys.getD s' #[]) =
      if s = s' then c.slotOverlap + 1 else 1 := by
  have hs : s.val < keys.length := by rw [h.length]; exact s.isLt
  have hs' : s'.val < keys.length := by rw [h.length]; exact s'.isLt
  rw [List.getD_eq_getElem _ _ hs, List.getD_eq_getElem _ _ hs', h.overlap]
  simp only [Fin.ext_iff]

/-- Every pointer layer has its slot patterns. -/
theorem exists_slotKeys (h : c.Sized) (name : String) (seed : UInt64) :
    ∃ keys, c.slotKeys name seed = .ok keys ∧ c.SlotKeys keys := by
  obtain ⟨f, columns, hf, hnodup, hlen, hlt, hall⟩ :=
    CodeBook.encodeAll_fresh c.layerSize c.activator seed name h.power (Pointer.nodup_slotTokens c.pointerSlots)
      (by simpa using h.slots_le)
  have hsize : ∀ d, (c.activator.pattern (CodeBook.OrthogonalFamily.bits f d)).size = c.layerSize := by
    intro d
    rw [CodeBook.pattern_familyBits_size, hf.signs]
  refine ⟨_, hall, ⟨by simpa using hlen, fun k hk => ?_, fun j k hj hk => ?_⟩⟩
  · rw [List.getElem_map]
    exact hsize _
  · rw [List.getElem_map, List.getElem_map, Association.overlap_eq (by rw [hsize, hsize]), hsize,
      CodeBook.sum_centred f c.activator hf.signs h.power (hlt _ (List.getElem_mem _)) (hlt _ (List.getElem_mem _))]
    by_cases hjk : j = k
    · subst hjk
      rw [if_pos rfl, if_pos rfl, slotOverlap]
    · have hj' : j < columns.length := by simpa using hj
      have hk' : k < columns.length := by simpa using hk
      have hne : ¬ columns[j] = columns[k] := by
        intro heq
        exact hjk ((List.Nodup.getElem_inj_iff hnodup).mp heq)
      rw [if_neg hne, if_neg hjk, zero_add]

end Config

/-! ## Writing cells -/

/-- What some writes, each of bits under a slot, leave of a store that had nothing. -/
noncomputable def storeAfter (c : Config ℝ) (keys : List (Pattern ℝ)) (height : Nat)
    (writes : List (Fin c.pointerSlots × Bits)) : Connection ℝ :=
  writes.foldl (fun store w => (Plasticity.store.write c.rule store (keys.getD w.1 #[]) (c.activator.pattern w.2)
    c.activator c.activator).connection) (Plasticity.store.baseline c.activator height c.layerSize)

/-- The writes as one unit of the target sees them. -/
def unitWrites {K : Nat} (i : Nat) (writes : List (Fin K × Bits)) : List (Fin K × Bool) :=
  writes.map fun w => (w.1, w.2.getD i false)

theorem unitWrites_append_singleton {K : Nat} (i : Nat) (writes : List (Fin K × Bits)) (w : Fin K × Bits) :
    unitWrites i (writes ++ [w]) = unitWrites i writes ++ [(w.1, w.2.getD i false)] := by
  simp [unitWrites]

theorem lookup_reverse_unitWrites {K : Nat} {writes : List (Fin K × Bits)} {slot : Fin K} {bits : Bits}
    (h : writes.reverse.lookup slot = some bits) (i : Nat) :
    (unitWrites i writes).reverse.lookup slot = some (bits.getD i false) := by
  obtain ⟨after, before, hrev, hne⟩ := List.lookup_eq_some_iff.mp h
  rw [unitWrites, ← List.map_reverse, hrev, List.lookup_eq_some_iff]
  refine ⟨after.map fun w => (w.1, w.2.getD i false), before.map fun w => (w.1, w.2.getD i false), by simp, ?_⟩
  intro p hp
  obtain ⟨w, hw, rfl⟩ := List.mem_map.mp hp
  exact hne w hw

section

variable {c : Config ℝ} {keys : List (Pattern ℝ)} {height : Nat}

theorem storeAfter_append_singleton (writes : List (Fin c.pointerSlots × Bits)) (w : Fin c.pointerSlots × Bits) :
    storeAfter c keys height (writes ++ [w]) = (Association.flash c.rule (storeAfter c keys height writes)
      (.single (keys.getD w.1 #[])) (.single (c.activator.pattern w.2)) c.activator c.activator).connection := by
  simp only [storeAfter, List.foldl_append, List.foldl_cons, List.foldl_nil]
  rfl

theorem dimensions_storeAfter (keys : List (Pattern ℝ)) (writes : List (Fin c.pointerSlots × Bits)) (h : ∀ w ∈ writes, w.2.length = height) :
    (storeAfter c keys height writes).Fits ∧ (storeAfter c keys height writes).weights.height = height ∧
      (storeAfter c keys height writes).weights.width = c.layerSize := by
  induction writes using List.reverseRecOn with
  | nil => exact ⟨Connection.fits_zero _ _, rfl, rfl⟩
  | append_singleton writes w ih =>
    obtain ⟨h₁, h₂, h₃⟩ := ih fun v hv => h v (List.mem_append_left _ hv)
    have hw : w.2.length = height := h w (by simp)
    rw [storeAfter_append_singleton, Association.height_flash, Association.width_flash]
    refine ⟨Association.fits_flash h₁ ?_, h₂, h₃⟩
    rw [h₂]
    simpa [Columns.single] using hw

/-- What a row of a store produces for a slot is what the slot's key reads in the system of
coefficients of the row. -/
theorem out_storeAfter (hc : c.Sized) (hk : c.SlotKeys keys) {i : Nat} (hi : i < height) (slot : Fin c.pointerSlots)
    (writes : List (Fin c.pointerSlots × Bits)) (h : ∀ w ∈ writes, w.2.length = height) :
    (storeAfter c keys height writes).out i (keys.getD slot #[]) =
      Interference.read c.slotOverlap
        (Interference.run c.slotOverlap c.activator.depth c.rule.share (unitWrites i writes)) slot := by
  induction writes using List.reverseRecOn generalizing slot with
  | nil =>
    have hzero : (storeAfter c keys height []).out i (keys.getD slot #[]) = 0 := Connection.out_zero _ _ _ _
    rw [hzero]
    simp [unitWrites, Interference.run, Interference.read]
  | append_singleton writes w ih =>
    have hprev : ∀ v ∈ writes, v.2.length = height := fun v hv => h v (List.mem_append_left _ hv)
    have hw : w.2.length = height := h w (by simp)
    obtain ⟨hfits, hheight, hwidth⟩ := dimensions_storeAfter keys writes hprev
    have hentry : c.activator.inverse ((c.activator.pattern w.2).entry i) = c.activator.depth * sign (w.2.getD i false) := by
      rw [c.activator.entry_pattern (hw ▸ hi), hc.proper.inverse_level, mul_comm]
    rw [storeAfter_append_singleton, Association.out_flash_single _ _ _ hfits (by rw [hk.size_slot, hwidth])
      (by rw [hheight]; simpa using hw) (by rw [hk.size_slot, hwidth]) (by rw [hheight]; exact hi), ih slot hprev,
      ih w.1 hprev, hentry, hk.overlap_slot, hk.overlap_slot, if_pos rfl, unitWrites_append_singleton, Interference.run_append_singleton, Interference.read_write]

end

/-! ## What is recalled -/

/-- The other slots are few against the overlap of a slot with itself. -/
def Config.Roomy (c : Config ℝ) : Prop :=
  (2 : Nat) * (c.pointerSlots - 1) * ((2 : Nat) - c.rule.share) < ((2 : Nat) * c.rule.share - 1) * c.slotOverlap

theorem Rule.share_nonneg (r : Rule) : 0 ≤ r.share := by
  cases r <;> simp only [share] <;> norm_num

theorem Rule.share_le_one (r : Rule) : r.share ≤ 1 := by
  cases r <;> simp only [share] <;> norm_num

/-- A written slot is recalled with the bits last written under it, whatever was written under
the others before or since. -/
theorem recalled_last_written (c : Config ℝ) (hc : c.validate = .ok ()) (hroom : c.Roomy) (name : String)
    (seed : UInt64) (height : Nat) :
    ∃ keys, c.slotKeys name seed = .ok keys ∧ keys.length = c.pointerSlots ∧
      ∀ writes : List (Fin c.pointerSlots × Bits), (∀ w ∈ writes, w.2.length = height) →
        ∀ slot bits, writes.reverse.lookup slot = some bits →
          c.activator.bits ((storeAfter c keys height writes).recalled c.activator (keys.getD slot #[])) = bits := by
  have hs := Config.sized_of_validate hc
  obtain ⟨keys, hkeys, hk⟩ := Config.exists_slotKeys hs name seed
  refine ⟨keys, hkeys, hk.length, fun writes hlen slot bits hlast => ?_⟩
  obtain ⟨hfits, hheight, hwidth⟩ := dimensions_storeAfter keys writes hlen
  have hsize : (keys.getD slot #[]).size = (storeAfter c keys height writes).weights.width := by
    rw [hk.size_slot, hwidth]
  have hbits : bits.length = height := by
    obtain ⟨before, after, rfl, -⟩ := Interference.exists_last_write hlast
    exact hlen (slot, bits) (by simp)
  rw [Connection.bits_recalled hfits hsize, hheight]
  apply List.ext_getElem
  · simpa using hbits.symm
  · intro i h₁ h₂
    have hi : i < height := by simpa using h₁
    rw [List.getElem_map, List.getElem_range, out_storeAfter hs hk hi slot writes hlen]
    have hread := Interference.read_run hs.slotOverlap_pos hs.proper.depth_pos c.rule.share_nonneg c.rule.share_le_one
      hroom (lookup_reverse_unitWrites hlast i)
    rw [List.getD_eq_getElem _ _ h₂] at hread
    exact hs.proper.isOn_squash_of_sign hread

/-! ## The standard configuration has room -/

theorem Config.pad_standard : (Config.standard : Config ℝ).pad = 1 / 1000 := by
  show (1 : ℝ) / ((1000 : Nat) : ℝ) = 1 / 1000
  norm_num

theorem Config.span_standard : (Config.standard : Config ℝ).activator.span = 1 - 1 / 1000 := by
  rw [span_tanh rfl]
  exact congrArg (1 - ·) Config.pad_standard

theorem Config.validate_standard : (Config.standard : Config ℝ).validate = .ok () := by
  have hpad := Config.pad_standard
  have hregs : Config.registersFault? [] ["r0", "r1", "r2"] = (none : Option (ConfigFault ℝ)) := by rfl
  have hpower : Sylvester.isPowerOfTwo 64 = true := by decide
  unfold Config.validate Config.fault?
  simp only [hpad]
  simp only [Config.standard, hregs, hpower]
  norm_num

theorem Config.roomy_standard : (Config.standard : Config ℝ).Roomy := by
  unfold Config.Roomy Config.slotOverlap
  rw [span_standard]
  simp only [Config.standard, Rule.share]
  norm_num

/-- With the standard configuration every history of its 32 slots is recalled. -/
theorem standard_recalled_last_written :
    (Config.standard : Config ℝ).validate = .ok () ∧ (Config.standard : Config ℝ).Roomy ∧
      ∃ keys, (Config.standard : Config ℝ).slotKeys "mf" 11 = .ok keys ∧ keys.length = 32 ∧
        ∀ writes : List (Fin 32 × Bits), (∀ w ∈ writes, w.2.length = 64) →
          ∀ slot bits, writes.reverse.lookup slot = some bits →
            (Config.standard : Config ℝ).activator.bits ((storeAfter Config.standard keys 64 writes).recalled
              (Config.standard : Config ℝ).activator (keys.getD slot #[])) = bits :=
  ⟨Config.validate_standard, Config.roomy_standard,
    recalled_last_written Config.standard Config.validate_standard Config.roomy_standard "mf" 11 64⟩

/-! ## A configuration without room -/

/-- Two slots on small layers whose levels are close. -/
noncomputable def crowded : Config ℝ :=
  { (Config.standard : Config ℝ) with registers := ["r0"], layerSize := 8, squashing := .logistic, pad := 1 / 4, pointerSlots := 2 }

theorem crowded_validate : crowded.validate = .ok () := by
  have hregs : Config.registersFault? [] ["r0"] = (none : Option (ConfigFault ℝ)) := by rfl
  have hpower : Sylvester.isPowerOfTwo 8 = true := by decide
  unfold Config.validate Config.fault?
  simp only [crowded, Config.standard, hregs, hpower]
  norm_num

theorem crowded_slotOverlap : crowded.slotOverlap = 1 / 2 := by
  have hspan : crowded.activator.span = 1 / 4 := by
    rw [span_logistic rfl]
    show (1 : ℝ) / 2 - 1 / 4 = 1 / 4
    norm_num
  rw [Config.slotOverlap, hspan]
  show ((8 : Nat) : ℝ) * _ = _
  norm_num

/-- A cell of an `off` unit reads `on` after the other cell was written. -/
theorem crowded_store_turns_bit :
    crowded.validate = .ok () ∧
      ∃ keys, crowded.slotKeys "mf" 11 = .ok keys ∧ keys.length = crowded.pointerSlots ∧
        ∃ writes : List (Fin crowded.pointerSlots × Bits), (∀ w ∈ writes, w.2.length = 1) ∧
          ∃ slot, writes.reverse.lookup slot = some [false] ∧
            crowded.activator.bits ((storeAfter crowded keys 1 writes).recalled crowded.activator
              (keys.getD slot #[])) = [true] := by
  have hs := Config.sized_of_validate crowded_validate
  obtain ⟨keys, hkeys, hk⟩ := Config.exists_slotKeys hs "mf" 11
  let first : Fin crowded.pointerSlots := ⟨0, by decide⟩
  let second : Fin crowded.pointerSlots := ⟨1, by decide⟩
  let writes : List (Fin crowded.pointerSlots × Bits) := [(first, [false]), (second, [true])]
  have hlen : ∀ w ∈ writes, w.2.length = 1 := by simp [writes]
  refine ⟨crowded_validate, keys, hkeys, hk.length, writes, hlen, first, by rfl, ?_⟩
  obtain ⟨hfits, hheight, hwidth⟩ := dimensions_storeAfter keys writes hlen
  have hsize : (keys.getD first #[]).size = (storeAfter crowded keys 1 writes).weights.width := by
    rw [hk.size_slot, hwidth]
  rw [Connection.bits_recalled hfits hsize, hheight]
  have hout := out_storeAfter hs hk (show 0 < 1 by omega) first writes hlen
  have hdepth := hs.proper.depth_pos
  have hread : 0 < Interference.read crowded.slotOverlap
      (Interference.run crowded.slotOverlap crowded.activator.depth crowded.rule.share (unitWrites 0 writes)) first := by
    have hne : second ≠ first := by simp [first, second]
    have hpair := Interference.read_run_pair hs.slotOverlap_pos crowded.activator.depth crowded.rule.share hne
    have hshare : crowded.rule.share = 1 / (1 + 1 / 10 ^ 10) := rfl
    rw [show unitWrites 0 writes = [(first, false), (second, true)] from rfl, hpair, crowded_slotOverlap, hshare]
    apply mul_pos (mul_pos (by norm_num) hdepth)
    norm_num
  rw [List.range_one, List.map_singleton, hout, (hs.proper.isOn_squash _).mpr hread]

end Engram
