/-
  Engram.Proofs.Control.Blocks — a joint connection acts as its blocks together.

  The automaton is written as one connection from the hidden layer and the condition layers
  together, and run as one connection from each of them. Every row of the joint connection adds up
  what its columns produce, so on an input that is zero in all condition blocks but one it
  produces what the hidden block and that one block produce (`entry_drive_none`,
  `entry_drive_some`); the bias goes with the hidden block.
-/

import Engram.Proofs.Scalar.Sums
import Engram.Proofs.Exact.Entries
import Engram.Proofs.Control.Sequencing
import Engram.Proofs.Data.Pathways

namespace Engram

open LayerId

variable {α : Type} [Scalar α]

namespace Matrix

/-- What the columns from `start` on of row `i` produce for a vector. -/
def part (w : Matrix α) (i start : Nat) (x : Pattern α) : α :=
  Scalar.sumBelow x.size fun j => w.entry i (start + j) * x.entry j

theorem entry_apply_eq_part {w : Matrix α} {i : Nat} (hi : i < w.height) {x : Pattern α} (hx : x.size ≤ w.width) :
    (w.apply x).entry i = w.part i 0 x := by
  rw [apply, Pattern.entry_ofFn _ hi, part, Nat.min_eq_right hx]
  simp only [Nat.zero_add]

theorem entry_slice_apply {w : Matrix α} {i : Nat} (hi : i < w.height) {start : Nat} {x : Pattern α}
    (hx : start + x.size ≤ w.width) : ((w.slice start x.size).apply x).entry i = w.part i start x := by
  have hheight : i < (w.slice start x.size).height := hi
  have hwidth : x.size ≤ (w.slice start x.size).width := le_rfl
  rw [entry_apply_eq_part hheight hwidth, part, part]
  refine Scalar.sumBelow_congr fun j hj => ?_
  rw [Nat.zero_add, slice, entry_ofRows _ hi hj]
  congr 1
  have hrows : i < w.rows.size := by simpa using hi
  have hget : (w.rows.map fun r => r.extract start (start + x.size)).getD i #[] =
      (w.row i).extract start (start + x.size) := by
    simp [Array.getD, rows, hi]
  have hsize : ((w.row i).extract start (start + x.size)).size = x.size := by
    rw [Array.size_extract, size_row hi, Nat.min_eq_left hx, Nat.add_sub_cancel_left]
  rw [hget, Pattern.entry_of_lt (by rw [hsize]; exact hj), Array.getElem_extract,
    ← Pattern.entry_of_lt (by rw [size_row hi]; omega), entry_row hi (by omega)]

variable [ExactSums α]

theorem part_append (w : Matrix α) (i start : Nat) (x y : Pattern α) :
    w.part i start (x ++ y) = w.part i start x + w.part i (start + x.size) y := by
  unfold part
  rw [Array.size_append, Scalar.sumBelow_add]
  congr 1
  · refine Scalar.sumBelow_congr fun j hj => ?_
    rw [Pattern.entry_of_lt (by rw [Array.size_append]; omega), Pattern.entry_of_lt hj, Array.getElem_append_left hj]
  · refine Scalar.sumBelow_congr fun j hj => ?_
    rw [Pattern.entry_of_lt (by rw [Array.size_append]; omega), Pattern.entry_of_lt hj,
      Array.getElem_append_right (Nat.le_add_right _ _), Nat.add_assoc]
    simp only [Nat.add_sub_cancel_left]

/-- A block of zeros produces nothing. -/
theorem part_zero (w : Matrix α) (i start n : Nat) : w.part i start (Pattern.zero n) = 0 := by
  refine Scalar.sumBelow_eq_zero fun j _ => ?_
  have hentry : (Pattern.zero n : Pattern α).entry j = 0 := by
    rw [Pattern.zero, Pattern.entry_replicate, ite_self]
  rw [hentry, ExactSums.mul_zero]

end Matrix

namespace Sequencer

/-- The input of a transit on a condition, as far as the given layers. -/
def layered (n : Network α) (layer : LayerId) (p : Pattern α) (layers : List LayerId) (x : Pattern α) : Pattern α :=
  layers.foldl (fun input l => input ++ if l = layer then p else Pattern.zero (n.size l)) x

section

variable {n : Network α} {layer : LayerId} {p : Pattern α}

theorem layered_cons (l : LayerId) (rest : List LayerId) (x : Pattern α) : layered n layer p (l :: rest) x =
    layered n layer p rest (x ++ if l = layer then p else Pattern.zero (n.size l)) := rfl

theorem size_layered (hp : p.size = n.size layer) (layers : List LayerId) (x : Pattern α) :
    (layered n layer p layers x).size = x.size + layers.foldr (fun l total => n.size l + total) 0 := by
  induction layers generalizing x with
  | nil => rfl
  | cons l rest ih =>
    have hsize : (if l = layer then p else Pattern.zero (n.size l)).size = n.size l := by
      split
      next h => rw [hp, h]
      · exact Array.size_replicate
    rw [layered_cons, ih, Array.size_append, hsize, List.foldr_cons, Nat.add_assoc]

variable [ExactSums α]

/-- Layers that the transit is not keyed on add nothing. -/
theorem part_layered_of_not_mem (w : Matrix α) (i : Nat) {layers : List LayerId} (h : layer ∉ layers) (x : Pattern α) :
    w.part i 0 (layered n layer p layers x) = w.part i 0 x := by
  induction layers generalizing x with
  | nil => rfl
  | cons l rest ih =>
    rw [List.mem_cons, not_or] at h
    rw [layered_cons, ih h.2, if_neg (Ne.symm h.1), Matrix.part_append, Matrix.part_zero, ExactSums.add_zero]

/-- The layer that the transit is keyed on adds what its own block produces. -/
theorem exists_block (joint : Connection α) (target : LayerId) (hp : p.size = n.size layer) {layers : List LayerId}
    (hnodup : layers.Nodup) (h : layer ∈ layers) (x : Pattern α) : ∃ start,
      block n target joint start layer (Pattern.zero joint.bias.size) ∈ blocksFrom n target joint x.size layers ∧
      start + p.size ≤ (layered n layer p layers x).size ∧
      ∀ i, joint.weights.part i 0 (layered n layer p layers x) =
        joint.weights.part i 0 x + joint.weights.part i start p := by
  induction layers generalizing x with
  | nil => exact (List.not_mem_nil h).elim
  | cons l rest ih =>
    obtain ⟨hl, hrest⟩ := List.nodup_cons.mp hnodup
    rw [layered_cons]
    by_cases heq : l = layer
    · subst heq
      rw [if_pos rfl]
      refine ⟨x.size, List.mem_cons_self, ?_, fun i => ?_⟩
      · rw [size_layered hp, Array.size_append]
        exact Nat.le_add_right _ _
      · rw [part_layered_of_not_mem _ _ hl, Matrix.part_append, Nat.zero_add]
    · rw [if_neg heq]
      have hmem : layer ∈ rest := (List.mem_cons.mp h).resolve_left (Ne.symm heq)
      obtain ⟨start, hblock, hle, hpart⟩ := ih hrest hmem (x ++ Pattern.zero (n.size l))
      rw [Array.size_append, Pattern.zero, Array.size_replicate] at hblock
      refine ⟨start, List.mem_cons_of_mem _ hblock, hle, fun i => ?_⟩
      rw [hpart, Matrix.part_append, Matrix.part_zero, ExactSums.add_zero]

/-- The block that the hidden layer drives. -/
def hiddenBlock (n : Network α) (joint : Connection α) : Connection α :=
  ⟨joint.weights.slice 0 (n.size gh), joint.bias⟩

variable {joint : Connection α} {hidden : Pattern α}

omit [ExactSums α] in
theorem entry_drive {c : Connection α} (hc : c.Fits) (x : Pattern α) {i : Nat} (hi : i < c.weights.height) :
    (c.drive x).entry i = (c.weights.apply x).entry i + c.bias.entry i := by
  rw [Connection.drive, Pattern.entry_add (by rw [Matrix.size_apply]; exact hi) (by rw [hc]; exact hi)]

omit [ExactSums α] in
theorem entry_hiddenBlock (hfits : joint.Fits) (hhidden : hidden.size = n.size gh)
    (hwidth : n.size gh ≤ joint.weights.width) {i : Nat} (hi : i < joint.weights.height) :
    ((hiddenBlock n joint).drive hidden).entry i = joint.weights.part i 0 hidden + joint.bias.entry i := by
  have hfits' : (hiddenBlock n joint).Fits := hfits
  rw [entry_drive hfits' hidden hi, hiddenBlock, ← hhidden, Matrix.entry_slice_apply hi (by omega)]

omit [ExactSums α] in
theorem size_hiddenBlock (hfits : joint.Fits) : ((hiddenBlock n joint).drive hidden).size = joint.weights.height :=
  Connection.size_drive (show (hiddenBlock n joint).Fits from hfits) hidden

/-- Without a condition the hidden block produces everything. -/
theorem drive_none (hfits : joint.Fits) (hwidth : joint.weights.width = inputSize n) (hhidden : hidden.size = n.size gh) :
    joint.drive (hidden ++ Pattern.zero (conditionSize n)) = (hiddenBlock n joint).drive hidden := by
  have hsize : (hidden ++ Pattern.zero (conditionSize n) : Pattern α).size ≤ joint.weights.width := by
    rw [Array.size_append, Pattern.zero, Array.size_replicate, hhidden, hwidth, inputSize]
  have hle : n.size gh ≤ joint.weights.width := by
    rw [hwidth]
    exact Nat.le_add_right _ _
  refine Pattern.ext_entry (by rw [Connection.size_drive hfits, size_hiddenBlock hfits]) fun i hi => ?_
  rw [Connection.size_drive hfits] at hi
  rw [entry_hiddenBlock hfits hhidden hle hi, entry_drive hfits _ hi, Matrix.entry_apply_eq_part hi hsize,
    Matrix.part_append, Matrix.part_zero, ExactSums.add_zero]

/-- Under a condition the hidden block and the block of its layer do. -/
theorem drive_some (hfits : joint.Fits) (hwidth : joint.weights.width = inputSize n) (hhidden : hidden.size = n.size gh)
    (hlayer : layer ∈ conditions) (hp : p.size = n.size layer) (target : LayerId) : ∃ b : Connection α,
      (⟨target, layer⟩, b) ∈ blocksFrom n target joint (n.size gh) conditions ∧
      joint.drive (layered n layer p conditions hidden) = ((hiddenBlock n joint).drive hidden).add (b.drive p) := by
  obtain ⟨start, hblock, hle, hpart⟩ := exists_block joint target hp (by decide) hlayer hidden
  rw [hhidden] at hblock
  have hsize : (layered n layer p conditions hidden).size = joint.weights.width := by
    rw [size_layered hp, hhidden, hwidth, inputSize, conditionSize]
  refine ⟨_, hblock, ?_⟩
  have hhiddenLe : n.size gh ≤ joint.weights.width := by
    rw [hwidth]
    exact Nat.le_add_right _ _
  have hfits' : (⟨joint.weights.slice start (n.size layer), Pattern.zero joint.bias.size⟩ : Connection α).Fits := by
    rw [Connection.Fits, Pattern.zero, Array.size_replicate]
    exact hfits
  have hblockSize := Connection.size_drive hfits' p
  refine Pattern.ext_entry ?_ fun i hi => ?_
  · rw [Connection.size_drive hfits, Pattern.size_add, size_hiddenBlock hfits, hblockSize]
    exact (Nat.min_self _).symm
  · rw [Connection.size_drive hfits] at hi
    have hzero : (Pattern.zero joint.bias.size : Pattern α).entry i = 0 := by
      rw [Pattern.zero, Pattern.entry_replicate, ite_self]
    rw [Pattern.entry_add (by rw [size_hiddenBlock hfits]; exact hi) (by rw [hblockSize]; exact hi),
      entry_hiddenBlock hfits hhidden hhiddenLe hi, entry_drive hfits _ hi, entry_drive hfits' _ hi, ← hp,
      Matrix.entry_slice_apply hi (by rw [← hsize]; exact hle), hzero, ExactSums.add_zero,
      Matrix.entry_apply_eq_part hi hsize.le, hpart, ExactSums.add_assoc, ExactSums.add_assoc,
      ExactSums.add_comm (joint.bias.entry i)]

end

/-! ## The weights of a flash -/

section

variable (s : Sequencer α)

/-- The joint connection of one of the control layers, written over all transits. -/
def joint (target : LayerId) (patterns : Transit α → Pattern α) : Flash α :=
  Association.flash s.network.rule (.zero (s.network.size target) (inputSize s.network))
    ⟨inputSize s.network, s.transits.map (·.input)⟩ ⟨s.network.size target, s.transits.map patterns⟩
    (s.network.activator gh) (s.network.activator target)

/-- The joint connection into the hidden layer. -/
def recurrent : Flash α := s.joint gh (·.target.hidden)

/-- The joint connection into the gate layer. -/
def readout : Flash α := s.joint go (·.target.gates)

theorem weights_flash (verbose : Bool) : (s.flash verbose).value.weights =
    (split s.network gh s.recurrent.connection ++ split s.network go s.readout.connection).foldl
      (fun (w : Weights α) (p, c) => w.insert p c) {} := by
  unfold Sequencer.flash
  rw [Noted.value_bind, Noted.value_bind]
  dsimp only
  split
  · rfl
  · split <;> rfl

theorem errors_flash (verbose : Bool) : (s.flash verbose).value.errors = s.recurrent.errors + s.readout.errors := by
  unfold Sequencer.flash
  rw [Noted.value_bind, Noted.value_bind]
  dsimp only
  split
  · rfl
  · split <;> rfl

end

/-- A flash leaves every block of both joint connections. -/
theorem getElem?_flash (s : Sequencer α) (verbose : Bool) {p : Pathway} {c : Connection α}
    (h : (p, c) ∈ split s.network gh s.recurrent.connection ++ split s.network go s.readout.connection) :
    (s.flash verbose).value.weights[p]? = some c := by
  have hkeys : ((split s.network gh s.recurrent.connection ++ split s.network go s.readout.connection).map (·.1)).Nodup :=
    show ((gh :: conditions).map (Pathway.mk gh) ++ (gh :: conditions).map (Pathway.mk go)).Nodup by decide
  rw [weights_flash]
  exact Pathway.getElem?_foldl_insert_of_mem hkeys {} h

theorem fits_joint (s : Sequencer α) (target : LayerId) (patterns : Transit α → Pattern α) :
    (s.joint target patterns).connection.Fits :=
  Association.fits_flash (Connection.fits_zero _ _) rfl

theorem height_joint (s : Sequencer α) (target : LayerId) (patterns : Transit α → Pattern α) :
    (s.joint target patterns).connection.weights.height = s.network.size target :=
  Association.height_flash _ _ _ _ _ _

theorem width_joint (s : Sequencer α) (target : LayerId) (patterns : Transit α → Pattern α) :
    (s.joint target patterns).connection.weights.width = inputSize s.network :=
  Association.width_flash _ _ _ _ _ _

/-- A joint connection that misses nothing recalls the bits of every target. -/
theorem bits_joint {s : Sequencer α} {target : LayerId} {patterns : Transit α → Pattern α}
    (herrors : (s.joint target patterns).errors = 0) {t : Transit α} (ht : t ∈ s.transits)
    (hsize : (patterns t).size = s.network.size target) :
    (s.network.activator target).bits
        ((s.joint target patterns).connection.recalled (s.network.activator target) t.input) =
      (s.network.activator target).bits (patterns t) := by
  have hne : s.transits.map (·.input) ≠ [] := fun hnil => List.ne_nil_of_mem ht (List.map_eq_nil_iff.mp hnil)
  have hcount : (s.joint target patterns).errors = (s.joint target patterns).connection.errors
      (s.network.activator target) ⟨inputSize s.network, s.transits.map (·.input)⟩
      ⟨s.network.size target, s.transits.map patterns⟩ := by
    unfold joint
    exact Association.errors_flash _ _ _ _ _ _ hne
  rw [hcount, Connection.errors, List.countP_eq_zero] at herrors
  have hmem : (t.input, patterns t) ∈ (s.transits.map (·.input)).zip (s.transits.map patterns) := by
    rw [List.zip_map']
    exact List.mem_map_of_mem ht
  have hmissed := herrors _ hmem
  dsimp only at hmissed
  rw [Bool.not_eq_true] at hmissed
  refine Pairs.bits_recalled_of_not_misses (s.fits_joint target patterns) ?_ hmissed
  rw [height_joint, hsize]

end Sequencer

end Engram
