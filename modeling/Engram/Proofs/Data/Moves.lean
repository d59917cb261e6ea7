/-
  Engram.Proofs.Data.Moves — which moves of the pointers are recalled.

  The slots of a pointer layer are different columns of one family. A move is written from zero
  over such columns, so a slot is taken to the slot that it should be exactly if all bits of that
  slot survive the other pairs of the move (`Network.Kept`). The pointers have no errors exactly
  if every move takes every slot where it should (`moves_recall`), and that is so whenever the
  reach of a slot is more than what all others leak (`Config.Spacious`).

  Slots come from orthogonal families, and every move is documented to recall exactly for that
  reason. But the inputs of a move share the constant unit: three slots on layers of eight units
  with levels at 1/4 and 3/4 are not all taken where they should be (`narrow_moves_miss`).
-/

import Engram.Proofs.Data.Store
import Engram.Proofs.Data.Shifts
import Engram.Proofs.Exact.Survival
import Engram.Proofs.Layer.Columns
import Engram.Proofs.Network.Capacity

namespace Engram

open LayerId Activator Association

/-! ## Slots -/

/-- The bits of the slots on a layer. -/
def Network.slotBits {α : Type} [Scalar α] (n : Network α) (slots : Nat) (l : LayerId) : List Bits :=
  (List.range slots).map fun k => (n.layer l).bits (((n.layer l).pattern? (Pointer.slotToken k)).getD #[])

namespace Pointer

/-- The question mark is no slot. -/
theorem unknownToken_not_mem_slots (slots : Nat) : unknownToken ∉ (List.range slots).map slotToken := by
  intro h
  obtain ⟨k, -, hk⟩ := List.mem_map.mp h
  have hdigits : (slotToken k).toList = Nat.toDigits 10 k := Nat.toList_repr
  have hmem : '?' ∈ Nat.toDigits 10 k := by
    rw [← hdigits, hk]
    exact List.mem_singleton_self _
  exact absurd (Nat.isDigit_of_mem_toDigits (by decide) (by decide) hmem) (by decide)

variable {α : Type} [Scalar α]

/-- Layers without tokens give the slots different columns. -/
theorem columned_encodeSlots {tokens : List String} {a : Activator α} (hlevels : ∀ bit, a.isOn (a.level bit) = bit) {size : Nat}
    (hsize : Sylvester.isPowerOfTwo size = true) (hnodup : tokens.Nodup) (hroom : tokens.length ≤ size)
    (hknown : unknownToken ∉ tokens) {layers : List LayerId} (hlayers : layers.Nodup) {n : Network α}
    (hfresh : ∀ l ∈ layers, l.position < n.layers.size ∧ ∃ name seed, n.layer l = .new name size a seed) :
    ∃ patterns later, encodeSlots tokens n layers = (.ok patterns, later) ∧
      ∀ l ∈ layers, ∃ f columns, (later.layer l).size = size ∧ (later.layer l).activator = a ∧
        (later.layer l).book.Columned tokens f columns ∧
        patterns.lookup l = some ⟨size, columns.map fun j => a.pattern (CodeBook.OrthogonalFamily.bits f j)⟩ := by
  induction layers generalizing n with
  | nil => exact ⟨[], n, rfl, fun l hl => (List.not_mem_nil hl).elim⟩
  | cons layer rest ih =>
    obtain ⟨hlayer, hrest⟩ := List.nodup_cons.mp hlayers
    obtain ⟨hposition, name, seed, hnew⟩ := hfresh layer List.mem_cons_self
    obtain ⟨f, columns, b, hb, ha, hall, hcolumned⟩ :=
      CodeBook.exists_columned hlevels seed name hsize hnodup hroom hknown
    let n₁ := n.modifyLayer layer ⟨name, b⟩
    have hencode : n.encodeAll layer true tokens =
        (.ok ⟨size, columns.map fun j => a.pattern (CodeBook.OrthogonalFamily.bits f j)⟩, n₁) := by
      unfold Network.encodeAll Layer.encodeAll Network.size
      rw [hnew]
      unfold Layer.new
      dsimp only
      rw [hall]
      rfl
    have hfirst : n₁.layer layer = ⟨name, b⟩ := by
      rw [Network.layer_modifyLayer, if_pos ⟨rfl, hposition⟩]
    obtain ⟨patterns, later, hslots, hspec⟩ := ih hrest (n := n₁) fun l hl => by
      have hne : l ≠ layer := fun heq => hlayer (heq ▸ hl)
      obtain ⟨hl', name', seed', hnew'⟩ := hfresh l (List.mem_cons_of_mem _ hl)
      refine ⟨?_, name', seed', ?_⟩
      · show l.position < (n.layers.setIfInBounds _ _).size
        rw [Array.size_setIfInBounds]
        exact hl'
      · rw [Network.layer_modifyLayer_of_ne n hne, hnew']
    refine ⟨_, later, by simp only [encodeSlots, hencode, hslots]; rfl, fun l hl => ?_⟩
    rw [List.lookup_cons]
    by_cases heq : l = layer
    · subst heq
      have hkept : later.layer l = ⟨name, b⟩ := by
        have h := layer_encodeSlots_of_not_mem tokens n₁ hlayer
        rw [hslots] at h
        exact h.trans hfirst
      rw [beq_self_eq_true, hkept]
      exact ⟨f, columns, hb, ha, hcolumned, rfl⟩
    · rw [beq_false_of_ne heq]
      exact hspec l ((List.mem_cons.mp hl).resolve_left heq)

end Pointer

/-- The slots of a configuration have different columns of a family on a layer. -/
structure Config.SlotsOn (c : Config ℝ) (n : Network ℝ) (l : LayerId) (f : OrthogonalFamily) (columns : List Nat) : Prop where
  size : (n.layer l).size = c.layerSize
  activator : (n.layer l).activator = c.activator
  book : (n.layer l).book.Columned ((List.range c.pointerSlots).map Pointer.slotToken) f columns

namespace Config.SlotsOn

open CodeBook

variable {c : Config ℝ} {n : Network ℝ} {l : LayerId} {f : OrthogonalFamily} {columns : List Nat}

theorem length_columns (h : c.SlotsOn n l f columns) : columns.length = c.pointerSlots := by
  rw [h.book.length, List.length_map, List.length_range]

theorem signs (h : c.SlotsOn n l f columns) : f.signs.length = c.layerSize := h.book.signs.trans h.size

theorem pattern? (h : c.SlotsOn n l f columns) {k : Nat} (hk : k < c.pointerSlots) (hk' : k < columns.length) :
    (n.layer l).pattern? (Pointer.slotToken k) = some (c.activator.pattern (OrthogonalFamily.bits f columns[k])) := by
  have hpattern := h.book.pattern k (by simpa using hk) hk'
  rw [List.getElem_map, List.getElem_range] at hpattern
  rw [← h.activator]
  exact hpattern

theorem slotBits_eq (h : c.SlotsOn n l f columns) (hproper : c.activator.Proper) :
    n.slotBits c.pointerSlots l = columns.map (OrthogonalFamily.bits f) := by
  refine List.ext_getElem (by simp [Network.slotBits, h.length_columns]) fun k h₁ h₂ => ?_
  have hk : k < c.pointerSlots := by simpa [Network.slotBits] using h₁
  have hk' : k < columns.length := by simpa using h₂
  simp only [Network.slotBits, List.getElem_map, List.getElem_range]
  rw [h.pattern? hk hk', Option.getD_some, Layer.bits, h.activator, hproper.bits_pattern]

theorem decode_iff (h : c.SlotsOn n l f columns) {k : Nat} (hk : k < c.pointerSlots) (hk' : k < columns.length)
    (p : Pattern ℝ) : (n.layer l).decode p = Pointer.slotToken k ↔
      c.activator.bits p = OrthogonalFamily.bits f columns[k] := by
  have hdecode := h.book.decodeBits k (by simpa using hk) hk' (c.activator.bits p)
  rw [List.getElem_map, List.getElem_range] at hdecode
  rw [← hdecode, ← h.activator]
  rfl

/-- Two slots are different in some unit. -/
theorem exists_bitAt_ne (h : c.SlotsOn n l f columns) (hproper : c.activator.Proper) {j k : Nat} (hj : j < c.pointerSlots)
    (hk : k < c.pointerSlots) (hjk : j ≠ k) : ∃ u < c.layerSize,
      bitAt (n.slotBits c.pointerSlots l) j u ≠ bitAt (n.slotBits c.pointerSlots l) k u := by
  have hj' : j < columns.length := h.length_columns.symm ▸ hj
  have hk' : k < columns.length := h.length_columns.symm ▸ hk
  have hbitAt : ∀ {i : Nat} (hi : i < columns.length) (u : Nat),
      bitAt (n.slotBits c.pointerSlots l) i u = (OrthogonalFamily.bits f columns[i]).getD u false := by
    intro i hi u
    have hi' : i < (columns.map (OrthogonalFamily.bits f)).length := by simpa using hi
    rw [bitAt, h.slotBits_eq hproper, List.getD_eq_getElem _ [] hi', List.getElem_map]
  by_contra hall
  have hsame : OrthogonalFamily.bits f columns[j] = OrthogonalFamily.bits f columns[k] := by
    refine List.ext_getElem (by rw [length_familyBits, length_familyBits]) fun u h₁ h₂ => ?_
    rw [← List.getD_eq_getElem _ false h₁, ← List.getD_eq_getElem _ false h₂, ← hbitAt hj', ← hbitAt hk']
    exact not_not.mp fun hne => hall ⟨u, by rwa [length_familyBits, h.signs] at h₁, hne⟩
  -- the bits of a slot decode to that slot only
  have htokens := ((h.book.decodeBits j (by simpa using hj) hj' _).mpr rfl).symm.trans
    ((h.book.decodeBits k (by simpa using hk) hk' _).mpr hsame)
  exact hjk ((Pointer.nodup_slotTokens c.pointerSlots).getElem_inj_iff.mp htokens)

/-- The slots that a move starts from are even inputs. -/
theorem even_starts (h : c.SlotsOn n l f columns) (hc : c.Sized) (shift : Pointer.Shift) :
    Even c.activator.midpoint c.slotOverlap
      (c.activator.columns c.layerSize ((shift.starts columns).map (OrthogonalFamily.bits f))) :=
  even_sylvester c.activator hc.power h.signs ((shift.starts_sublist columns).nodup h.book.nodup) fun j hj =>
    h.size ▸ h.book.lt j ((shift.starts_sublist columns).mem hj)

end Config.SlotsOn

namespace Pointer

/-- The patterns are those of the slots on the layers of the pointers. -/
def Slotted (c : Config ℝ) (n : Network ℝ) (patterns : List (LayerId × Columns ℝ)) : Prop :=
  ∀ l ∈ layers, ∃ f columns, c.SlotsOn n l f columns ∧ patterns.lookup l =
    some (c.activator.columns c.layerSize (columns.map (CodeBook.OrthogonalFamily.bits f)))

theorem exists_slotted {c : Config ℝ} {n : Network ℝ} (hn : n.BuiltFrom c) :
    ∃ patterns later, encodeSlots ((List.range c.pointerSlots).map slotToken) n layers = (.ok patterns, later) ∧
      Slotted c later patterns := by
  have hc := Config.sized_of_validate hn.valid
  have hlayers : ∀ l ∈ layers, l.position < controlNames.length ∧ l ≠ go ∧ l ≠ gh := by decide
  have hfresh : ∀ l ∈ layers, l.position < n.layers.size ∧
      ∃ name seed, n.layer l = .new name c.layerSize c.activator seed := by
    intro l hl
    obtain ⟨hposition, hgo, hgh⟩ := hlayers l hl
    have hlt : l.position < n.layers.size := Nat.lt_of_lt_of_le hposition hn.numbered.control
    have hid : (⟨UInt16.ofNat l.position⟩ : LayerId) = l := congrArg LayerId.mk UInt16.ofNat_toNat
    obtain ⟨name, hname⟩ := hn.layer_eq hlt
    refine ⟨hlt, name, c.seed * Network.seedFactor + UInt64.ofNat (l.position + 1), ?_⟩
    rw [hname, Network.buildLayer, hid, if_neg hgo, if_neg hgh]
  obtain ⟨patterns, later, hslots, hspec⟩ := columned_encodeSlots hc.proper.isOn_level hc.power
    (nodup_slotTokens c.pointerSlots) (by simpa using hc.slots_le) (unknownToken_not_mem_slots c.pointerSlots)
    (by decide) hfresh
  refine ⟨patterns, later, hslots, fun l hl => ?_⟩
  obtain ⟨f, columns, hsize, hactivator, hbook, hlookup⟩ := hspec l hl
  refine ⟨f, columns, ⟨hsize, hactivator, hbook⟩, ?_⟩
  rw [hlookup, Activator.columns, List.map_map]
  rfl

end Pointer

/-! ## Moving -/

/-- Whether all bits of the slot `j` survive the other pairs of a move that takes the slot `i` there. -/
def Network.Kept (n : Network ℝ) (c : Config ℝ) (p : Pathway) (shift : Pointer.Shift) (i j : Nat) : Prop :=
  ∀ u < c.layerSize, Survives c.rule c.slotOverlap (shift.goals (n.slotBits c.pointerSlots p.target)) (min i j) u

namespace Config

variable (c : Config ℝ)

/-- A move between layers with the given slots. -/
noncomputable def move (shift : Pointer.Shift) (source target : List Bits) : Flash ℝ :=
  flash c.rule (.zero c.layerSize c.layerSize) (c.activator.columns c.layerSize (shift.starts source))
    (c.activator.columns c.layerSize (shift.goals target)) c.activator c.activator

variable {c}

theorem Sized.length_slotBits (h : c.Sized) {n : Network ℝ} {l : LayerId} (hl : ∃ f columns, c.SlotsOn n l f columns) :
    (n.slotBits c.pointerSlots l).length = c.pointerSlots ∧ ∀ b ∈ n.slotBits c.pointerSlots l, b.length = c.layerSize := by
  obtain ⟨f, columns, hslots⟩ := hl
  refine ⟨by simp [Network.slotBits], ?_⟩
  rw [hslots.slotBits_eq h.proper]
  intro b hb
  obtain ⟨j, -, rfl⟩ := List.mem_map.mp hb
  rw [CodeBook.length_familyBits, hslots.signs]

/-- The two layers of a pathway have slots. -/
structure Moves (c : Config ℝ) (n : Network ℝ) (p : Pathway) : Prop where
  sized : c.Sized
  source : ∃ f columns, c.SlotsOn n p.source f columns
  target : ∃ f columns, c.SlotsOn n p.target f columns

namespace Moves

variable {n : Network ℝ} {p : Pathway}

theorem even (h : c.Moves n p) (shift : Pointer.Shift) : Even c.activator.midpoint c.slotOverlap
    (c.activator.columns c.layerSize (shift.starts (n.slotBits c.pointerSlots p.source))) := by
  obtain ⟨f, columns, hslots⟩ := h.source
  rw [hslots.slotBits_eq h.sized.proper, ← shift.map_starts]
  exact hslots.even_starts h.sized shift

theorem batch (h : c.Moves n p) (shift : Pointer.Shift) :
    BitBatch (c.activator.columns c.layerSize (shift.starts (n.slotBits c.pointerSlots p.source)))
      (shift.goals (n.slotBits c.pointerSlots p.target)) c.layerSize c.layerSize := by
  obtain ⟨hsource, hsources⟩ := h.sized.length_slotBits h.source
  obtain ⟨htarget, htargets⟩ := h.sized.length_slotBits h.target
  refine ⟨rfl, fun u hu => ?_, ?_, fun t ht => htargets t ((shift.goals_sublist _).mem ht)⟩
  · obtain ⟨b, hb, rfl⟩ := List.mem_map.mp hu
    rw [size_pattern, hsources b ((shift.starts_sublist _).mem hb)]
  · rw [count_columns, shift.length_starts _ (n.slotBits c.pointerSlots p.target) (hsource.trans htarget.symm)]

/-- A move has no errors exactly if it keeps all slots. -/
theorem errors_eq_zero_iff (h : c.Moves n p) (shift : Pointer.Shift) :
    (c.move shift (n.slotBits c.pointerSlots p.source) (n.slotBits c.pointerSlots p.target)).errors = 0 ↔
      ∀ i j, shift.Takes c.pointerSlots i j → n.Kept c p shift i j := by
  have htarget := (h.sized.length_slotBits h.target).1
  rw [move, (h.even shift).errors_eq_zero_iff h.sized.slotOverlap_pos.le h.sized.proper (h.batch shift)]
  constructor
  · intro hall i j htakes
    exact hall (min i j) (Pointer.Shift.min_lt_of_takes (by rw [htarget]; exact htakes))
  · intro hall q hq
    obtain ⟨i, j, htakes, rfl⟩ := Pointer.Shift.exists_takes hq
    rw [htarget] at htakes
    exact hall i j htakes

/-- A move takes a slot where it should exactly if it keeps that slot. -/
theorem decode_iff (h : c.Moves n p) {shift : Pointer.Shift} {i j : Nat} (htakes : shift.Takes c.pointerSlots i j) :
    ∃ x, (n.layer p.source).pattern? (Pointer.slotToken i) = some x ∧ ((n.layer p.target).decode
      ((c.move shift (n.slotBits c.pointerSlots p.source) (n.slotBits c.pointerSlots p.target)).connection.recalled
        c.activator x) = Pointer.slotToken j ↔ n.Kept c p shift i j) := by
  obtain ⟨hi, hj⟩ := Pointer.Shift.lt_of_takes htakes
  have hbatch := h.batch shift
  have heven := h.even shift
  obtain ⟨hsource, -⟩ := h.sized.length_slotBits h.source
  obtain ⟨htarget, hlengths⟩ := h.sized.length_slotBits h.target
  obtain ⟨f, columns, hf⟩ := h.source
  obtain ⟨g, others, hg⟩ := h.target
  have hi' : i < columns.length := hf.length_columns.symm ▸ hi
  have hj' : j < others.length := hg.length_columns.symm ▸ hj
  -- the slots that the pair of the move is made of
  have hstart : (shift.starts (n.slotBits c.pointerSlots p.source))[min i j]? =
      some (CodeBook.OrthogonalFamily.bits f columns[i]) := by
    rw [Pointer.Shift.getElem?_starts (by rw [hsource]; exact htakes), hf.slotBits_eq h.sized.proper, List.getElem?_map,
      List.getElem?_eq_getElem hi', Option.map_some]
  have hgoal : (shift.goals (n.slotBits c.pointerSlots p.target))[min i j]? =
      some (CodeBook.OrthogonalFamily.bits g others[j]) := by
    rw [Pointer.Shift.getElem?_goals (by rw [htarget]; exact htakes), hg.slotBits_eq h.sized.proper, List.getElem?_map,
      List.getElem?_eq_getElem hj', Option.map_some]
  have hq : min i j < (shift.goals (n.slotBits c.pointerSlots p.target)).length := (List.getElem?_eq_some_iff.mp hgoal).1
  refine ⟨_, hf.pattern? hi hi', ?_⟩
  have hcolumn : (c.activator.columns c.layerSize (shift.starts (n.slotBits c.pointerSlots p.source))).column (min i j) =
      c.activator.pattern (CodeBook.OrthogonalFamily.bits f columns[i]) := by
    rw [column_columns _ _ (List.getElem?_eq_some_iff.mp hstart).1, List.getD_eq_getElem?_getD, hstart, Option.getD_some]
  have hbits : (shift.goals (n.slotBits c.pointerSlots p.target)).getD (min i j) [] = CodeBook.OrthogonalFamily.bits g others[j] := by
    rw [List.getD_eq_getElem?_getD, hgoal, Option.getD_some]
  rw [hg.decode_iff hj hj', ← hcolumn, ← hbits]
  exact heven.bits_recalled_iff h.sized.slotOverlap_pos.le h.sized.proper hbatch hq

end Moves

end Config

/-! ## The pointers -/

namespace Pointer

/-- What the connection of a move makes of a slot. -/
def moved {α : Type} [Scalar α] (n : Network α) (weights : Weights α) (p : Pathway) (i : Nat) : Option String :=
  weights[p]?.bind fun connection => ((n.layer p.source).pattern? (slotToken i)).map fun x =>
    (n.layer p.target).decode (connection.recalled (n.activator p.target) x)

/-- The slots of a layer are told apart. -/
theorem pairwise_pairs {c : Config ℝ} {n : Network ℝ} {p : Pathway} (h : c.Moves n p) (shift : Shift) :
    (((c.activator.columns c.layerSize (shift.starts (n.slotBits c.pointerSlots p.source))).patterns.zip
      (c.activator.columns c.layerSize (shift.goals (n.slotBits c.pointerSlots p.target))).patterns).Pairwise
        fun x y => Pairs.samePattern x.1 y.1 = false) := by
  have heven := h.even shift
  set x := c.activator.columns c.layerSize (shift.starts (n.slotBits c.pointerSlots p.source))
  rw [List.pairwise_iff_getElem]
  intro i j hi hj hij
  rw [List.length_zip] at hi hj
  have hi' : i < x.count := Nat.lt_of_lt_of_le hi (Nat.min_le_left _ _)
  have hj' : j < x.count := Nat.lt_of_lt_of_le hj (Nat.min_le_left _ _)
  rw [List.getElem_zip, List.getElem_zip, Bool.eq_false_iff]
  intro hsame
  -- the same slot would overlap with itself in the constant unit only
  have heq : x.column i = x.column j := by
    rw [Columns.column, Columns.column, List.getD_eq_getElem _ _ hi', List.getD_eq_getElem _ _ hj']
    exact Pairs.eq_of_samePattern (fun a b => (Scalar.same_eq_true a b).mp) hsame
  have hone := heven.other i hi' j hj' (Nat.ne_of_lt hij)
  rw [← heq, heven.self i hi'] at hone
  linarith [h.sized.slotOverlap_pos]

/-- The pathway of a move is flashed over the pairs of the move. -/
theorem flashed_eq {c : Config ℝ} {n : Network ℝ} {p : Pathway} (h : c.Moves n p) (hrule : n.rule = c.rule) (shift : Shift) :
    PairMap.flashed n p ⟨c.layerSize, c.layerSize,
      (c.activator.columns c.layerSize (shift.starts (n.slotBits c.pointerSlots p.source))).patterns.zip
        (c.activator.columns c.layerSize (shift.goals (n.slotBits c.pointerSlots p.target))).patterns⟩ =
      c.move shift (n.slotBits c.pointerSlots p.source) (n.slotBits c.pointerSlots p.target) := by
  have hlength : (c.activator.columns c.layerSize (shift.starts (n.slotBits c.pointerSlots p.source))).patterns.length =
      (c.activator.columns c.layerSize (shift.goals (n.slotBits c.pointerSlots p.target))).patterns.length := by
    have hcount := (h.batch shift).count
    rw [← count_columns c.activator c.layerSize] at hcount
    exact hcount
  obtain ⟨_, _, hsource⟩ := h.source
  obtain ⟨_, _, htarget⟩ := h.target
  have hvalue : ∀ s : Pairs ℝ, PairMap.flashed n p s = Association.flash n.rule (.zero s.targetSize s.sourceSize) s.inputs
      s.targets (n.activator p.source) (n.activator p.target) := fun s => rfl
  rw [hvalue, Config.move, hrule, Network.activator, Network.activator, hsource.activator, htarget.activator, Pairs.inputs,
    Pairs.targets, List.map_fst_zip hlength.le, List.map_snd_zip hlength.ge]
  rfl

/-- What flashing the pointers gives, once the slots have patterns. -/
theorem exists_value_flash {α : Type} [Scalar α] {n later : Network α} {slots : Nat} {patterns : List (LayerId × Columns α)}
    {pairs : PairMap α} (hslots : encodeSlots ((List.range slots).map slotToken) n layers = (.ok patterns, later))
    (hpairs : movePairs later patterns = .ok pairs) :
    ∃ warning, (flash n slots).value = (.ok (pairs.flash later warning).value, later) := by
  unfold flash
  rw [hslots]
  dsimp only
  rw [hpairs]
  exact ⟨_, rfl⟩

namespace Slotted

variable {c : Config ℝ} {n : Network ℝ} {patterns : List (LayerId × Columns ℝ)} {x : Pathway × Shift}

theorem moves (h : Slotted c n patterns) (hc : c.Sized) (hx : x ∈ Pointer.moves) : c.Moves n x.1 := by
  obtain ⟨hsource, htarget⟩ := ends_of_moves x hx
  obtain ⟨f, columns, hslots, -⟩ := h _ hsource
  obtain ⟨g, others, hslots', -⟩ := h _ htarget
  exact ⟨hc, ⟨f, columns, hslots⟩, ⟨g, others, hslots'⟩⟩

theorem lookup (h : Slotted c n patterns) (hc : c.Sized) {l : LayerId} (hl : l ∈ layers) :
    (patterns.lookup l).getD ⟨0, []⟩ = c.activator.columns c.layerSize (n.slotBits c.pointerSlots l) := by
  obtain ⟨f, columns, hslots, hlookup⟩ := h l hl
  rw [hlookup, Option.getD_some, hslots.slotBits_eq hc.proper]

/-- The pairs of a move are those that its slots start from, with those that they are to be taken to. -/
theorem pairsOf_eq (h : Slotted c n patterns) (hc : c.Sized) (hx : x ∈ Pointer.moves) : pairsOf patterns x =
    (c.activator.columns c.layerSize (x.2.starts (n.slotBits c.pointerSlots x.1.source))).patterns.zip
      (c.activator.columns c.layerSize (x.2.goals (n.slotBits c.pointerSlots x.1.target))).patterns := by
  obtain ⟨hsource, htarget⟩ := ends_of_moves x hx
  have hlength : ((n.slotBits c.pointerSlots x.1.source).map c.activator.pattern).length =
      ((n.slotBits c.pointerSlots x.1.target).map c.activator.pattern).length := by
    simp [Network.slotBits]
  rw [pairsOf, h.lookup hc hsource, h.lookup hc htarget]
  simp only [Activator.columns]
  rw [Shift.pairs_eq _ hlength, Shift.map_starts, Shift.map_goals]

/-- The pathway of a move stores the pairs of the move, and is flashed over them. -/
theorem exists_flashed (h : Slotted c n patterns) (hc : c.Sized) (hrule : n.rule = c.rule) {pairs : PairMap ℝ}
    (hpairs : movePairs n patterns = .ok pairs) (hx : x ∈ Pointer.moves) : ∃ s, pairs[x.1]? = some s ∧
      PairMap.flashed n x.1 s =
        c.move x.2 (n.slotBits c.pointerSlots x.1.source) (n.slotBits c.pointerSlots x.1.target) := by
  have hmoves := h.moves hc hx
  have hget := getElem?_movePairs hpairs hx (by rw [h.pairsOf_eq hc hx]; exact pairwise_pairs hmoves x.2)
  obtain ⟨_, _, hsource⟩ := hmoves.source
  obtain ⟨_, _, htarget⟩ := hmoves.target
  rw [h.pairsOf_eq hc hx, Network.size, Network.size, hsource.size, htarget.size] at hget
  exact ⟨_, hget, flashed_eq hmoves hrule x.2⟩

end Slotted

/-- The pathways of the pointers are flashed over the pairs of their moves. -/
theorem exists_flash_moves {c : Config ℝ} {n : Network ℝ} (hn : n.BuiltFrom c) :
    ∃ (weights : Weights ℝ) (errors : Nat) (later : Network ℝ), (flash n c.pointerSlots).value = (.ok (weights, errors), later) ∧
      (∀ x ∈ moves, c.Moves later x.1 ∧ weights[x.1]? = some (c.move x.2 (later.slotBits c.pointerSlots x.1.source)
        (later.slotBits c.pointerSlots x.1.target)).connection) ∧
      (errors = 0 ↔ ∀ x ∈ moves, (c.move x.2 (later.slotBits c.pointerSlots x.1.source)
        (later.slotBits c.pointerSlots x.1.target)).errors = 0) := by
  have hc := Config.sized_of_validate hn.valid
  obtain ⟨patterns, later, hslots, hslotted⟩ := exists_slotted hn
  obtain ⟨pairs, hpairs⟩ := exists_movePairs (lookup_encodeSlots hslots)
  obtain ⟨warning, hvalue⟩ := exists_value_flash hslots hpairs
  have hrule : later.rule = c.rule := by
    have hgrows := grows_encodeSlots ((List.range c.pointerSlots).map slotToken) n layers
    rw [hslots] at hgrows
    exact hgrows.rule.trans hn.rule
  have hflashed : ∀ x ∈ moves, ∃ s, pairs[x.1]? = some s ∧ PairMap.flashed later x.1 s =
      c.move x.2 (later.slotBits c.pointerSlots x.1.source) (later.slotBits c.pointerSlots x.1.target) := fun x hx =>
    hslotted.exists_flashed hc hrule hpairs hx
  refine ⟨_, _, later, hvalue, fun x hx => ⟨hslotted.moves hc hx, ?_⟩, ?_⟩
  · obtain ⟨s, hs, heq⟩ := hflashed x hx
    rw [PairMap.getElem?_flash, hs, Option.map_some, heq]
  · rw [PairMap.errors_flash_eq_zero_iff]
    constructor
    · intro hall x hx
      obtain ⟨s, hs, heq⟩ := hflashed x hx
      rw [← heq]
      exact hall x.1 s hs
    · intro hall p s hs
      have hmem : p ∈ moves.map (·.1) := ((of_movePairs hpairs).2 p).mp (by rw [hs]; rfl)
      obtain ⟨x, hx, rfl⟩ := List.mem_map.mp hmem
      obtain ⟨s', hs', heq⟩ := hflashed x hx
      obtain rfl : s' = s := Option.some.inj (hs'.symm.trans hs)
      rw [heq]
      exact hall x hx

end Pointer

/-- A slot reaches further than what all slots leak: by the first rule there are few slots against the reach, by
the second the reach is not less than the ridge. -/
def Config.Spacious (c : Config ℝ) : Prop :=
  match c.rule with
  | .hebbian => ((c.pointerSlots - 2 : Nat) : ℝ) < c.slotOverlap
  | .rehebbian => Rule.slack c.slotOverlap .rehebbian ≤ c.slotOverlap

theorem Config.Spacious.leak_lt {c : Config ℝ} (h : c.Spacious) (hc : c.Sized) {count : Nat} (hcount : count ≤ c.pointerSlots) :
    c.rule.leak c.slotOverlap count * (count - 2) < c.slotOverlap := by
  have hle : (count : ℝ) ≤ c.pointerSlots := by exact_mod_cast hcount
  unfold Spacious at h
  cases hrule : c.rule with
  | hebbian =>
    rw [hrule] at h
    dsimp only at h
    rw [Nat.cast_sub hc.two_le_slots, Nat.cast_ofNat] at h
    rw [Rule.leak, one_mul]
    linarith
  | rehebbian =>
    rw [hrule] at h
    exact leak_rehebbian_lt hc.slotOverlap_pos h count

theorem Config.Spacious.kept {c : Config ℝ} (h : c.Spacious) {n : Network ℝ} {p : Pathway} (hmoves : c.Moves n p)
    {shift : Pointer.Shift} {i j : Nat} (htakes : shift.Takes c.pointerSlots i j) : n.Kept c p shift i j := by
  have hlength := (hmoves.sized.length_slotBits hmoves.target).1
  have hle := (shift.goals_sublist (n.slotBits c.pointerSlots p.target)).length_le
  exact fun u _ => survives_of_leak_lt hmoves.sized.slotOverlap_pos.le
    (Pointer.Shift.min_lt_of_takes (by rw [hlength]; exact htakes)) (h.leak_lt hmoves.sized (hle.trans hlength.le)) u

namespace Pointer

/-- The connection of a move takes a slot where it should exactly if the move keeps it. -/
theorem moved_eq_iff {c : Config ℝ} {n : Network ℝ} {weights : Weights ℝ} {p : Pathway} {shift : Shift} {i j : Nat}
    (h : c.Moves n p) (hweights : weights[p]? = some (c.move shift (n.slotBits c.pointerSlots p.source)
      (n.slotBits c.pointerSlots p.target)).connection) (htakes : shift.Takes c.pointerSlots i j) :
    moved n weights p i = some (slotToken j) ↔ n.Kept c p shift i j := by
  obtain ⟨x, hx, hdecode⟩ := h.decode_iff htakes
  obtain ⟨_, _, htarget⟩ := h.target
  rw [moved, hweights, Option.bind_some, hx, Option.map_some, Option.some_inj, Network.activator, htarget.activator]
  exact hdecode

/-- Each move of the pointers takes each slot where it should exactly if all bits of that slot survive; the
pointers are flashed without errors exactly if all moves do so for all slots, as they do on spacious layers. -/
theorem moves_recall {c : Config ℝ} {n : Network ℝ} (hn : (Network.build c).value = .ok n) :
    ∃ (weights : Weights ℝ) (errors : Nat) (later : Network ℝ), (flash n c.pointerSlots).value = (.ok (weights, errors), later) ∧
      (∀ p shift, (p, shift) ∈ moves → ∀ i j, shift.Takes c.pointerSlots i j →
        (moved later weights p i = some (slotToken j) ↔ later.Kept c p shift i j)) ∧
      (errors = 0 ↔ ∀ p shift, (p, shift) ∈ moves → ∀ i j, shift.Takes c.pointerSlots i j →
        moved later weights p i = some (slotToken j)) ∧
      (c.Spacious → errors = 0) := by
  obtain ⟨weights, errors, later, hvalue, hmoves, herrors⟩ := exists_flash_moves (Network.builtFrom_of_build hn)
  have hmoved : ∀ p shift, (p, shift) ∈ moves → ∀ i j, shift.Takes c.pointerSlots i j →
      (moved later weights p i = some (slotToken j) ↔ later.Kept c p shift i j) := fun p shift hp i j htakes =>
    moved_eq_iff (hmoves _ hp).1 (hmoves _ hp).2 htakes
  have hall : errors = 0 ↔ ∀ p shift, (p, shift) ∈ moves → ∀ i j, shift.Takes c.pointerSlots i j → later.Kept c p shift i j := by
    rw [herrors]
    constructor
    · exact fun h p shift hp => ((hmoves _ hp).1.errors_eq_zero_iff shift).mp (h _ hp)
    · exact fun h x hx => ((hmoves x hx).1.errors_eq_zero_iff x.2).mpr (h x.1 x.2 hx)
  refine ⟨weights, errors, later, hvalue, hmoved, hall.trans ?_, fun hspacious => hall.mpr fun p shift hp i j htakes =>
    hspacious.kept (hmoves _ hp).1 htakes⟩
  exact forall₂_congr fun p shift => forall_congr' fun hp => forall₂_congr fun i j => forall_congr' fun htakes =>
    (hmoved p shift hp i j htakes).symm

end Pointer

theorem Config.spacious_standard : (Config.standard : Config ℝ).Spacious := by
  have hrule : (Config.standard : Config ℝ).rule = .rehebbian := rfl
  unfold Spacious slotOverlap Rule.slack
  rw [hrule, span_standard]
  simp only [standard]
  norm_num

/-- The 32 slots of the standard configuration are moved without errors. -/
theorem Pointer.moves_recall_standard : (Config.standard : Config ℝ).Spacious ∧
    ∃ n, (Network.build (Config.standard : Config ℝ)).value = .ok n ∧
      ∃ weights later, (flash n 32).value = (.ok (weights, 0), later) ∧
        moved later weights ⟨sf, sf⟩ 30 = some "31" ∧ moved later weights ⟨mf, mb⟩ 31 = some "30" := by
  obtain ⟨n, hn⟩ := Network.exists_build Config.validate_standard (show 3 ≤ 65522 by omega)
  obtain ⟨weights, errors, later, hvalue, -, herrors, hspacious⟩ := moves_recall hn
  obtain rfl := hspacious Config.spacious_standard
  have hall := herrors.mp rfl
  exact ⟨Config.spacious_standard, n, hn, weights, later, hvalue,
    hall ⟨sf, sf⟩ .on (by decide) 30 31 ⟨rfl, by decide⟩, hall ⟨mf, mb⟩ .back (by decide) 31 30 ⟨rfl, by decide⟩⟩

/-! ## Layers that are too narrow -/

/-- Three slots on small layers whose levels are close. -/
noncomputable def narrow : Config ℝ := { crowded with pointerSlots := 3, rule := .hebbian }

theorem narrow_validate : narrow.validate = .ok () := by
  have hregs : Config.registersFault? [] ["r0"] = (none : Option (ConfigFault ℝ)) := by rfl
  have hpower : Sylvester.isPowerOfTwo 8 = true := by decide
  unfold Config.validate Config.fault?
  simp only [narrow, crowded, Config.standard, hregs, hpower]
  norm_num

theorem narrow_slotOverlap : narrow.slotOverlap = 1 / 2 := crowded_slotOverlap

namespace Association

/-- Of three bits of a unit that are not all the same, one is lost. -/
theorem exists_not_survives {targets : List Bits} (hlength : targets.length = 3) {reach : ℝ} (hreach : reach < 1)
    {i : Nat} (hne : bitAt targets 0 i ≠ bitAt targets 1 i) : ∃ q < 3, ¬ Survives .hebbian reach targets q i := by
  -- the first two bits cancel, and the one of them that is not the third loses against it
  have htally : tally targets i = sign (bitAt targets 2 i) := by
    have hcancel : sign (bitAt targets 0 i) + sign (bitAt targets 1 i) = 0 := by
      cases h₀ : bitAt targets 0 i <;> cases h₁ : bitAt targets 1 i <;> simp [h₀, h₁] at hne ⊢
    rw [tally, hlength, Finset.sum_range_succ, Finset.sum_range_succ, Finset.sum_range_one, hcancel, zero_add]
  have hlost : ∀ q, bitAt targets q i ≠ bitAt targets 2 i → ¬ Survives .hebbian reach targets q i := by
    intro q hq
    unfold Survives Rule.leak
    rw [htally]
    cases hbit : bitAt targets q i with
    | true =>
      rw [Bool.eq_false_of_not_eq_true fun h => hq (hbit.trans h.symm), sign_false, if_pos rfl]
      linarith
    | false =>
      rw [Bool.eq_true_of_not_eq_false fun h => hq (hbit.trans h.symm), sign_true, if_neg Bool.false_ne_true]
      linarith
  by_cases h : bitAt targets 0 i = bitAt targets 2 i
  · exact ⟨1, by decide, hlost 1 fun h' => hne (h.trans h'.symm)⟩
  · exact ⟨0, by decide, hlost 0 h⟩

end Association

namespace Pointer

/-- The slots of the memory pointer are not all staged: one of the three is taken to no slot or to another. -/
theorem narrow_moves_miss : narrow.validate = .ok () ∧ ∃ n, (Network.build narrow).value = .ok n ∧
    ∃ weights errors later, (flash n 3).value = (.ok (weights, errors), later) ∧ errors ≠ 0 ∧
      ∃ i < 3, moved later weights ⟨mp, mb⟩ i ≠ some (slotToken i) := by
  obtain ⟨n, hn⟩ := Network.exists_build narrow_validate (show 1 ≤ 65522 by omega)
  obtain ⟨weights, errors, later, hvalue, hmoves, herrors⟩ := exists_flash_moves (Network.builtFrom_of_build hn)
  have hmem : ((⟨mp, mb⟩, .stay) : Pathway × Shift) ∈ moves := by decide
  obtain ⟨h, hweights⟩ := hmoves _ hmem
  obtain ⟨f, columns, hslots⟩ := h.target
  obtain ⟨u, hu, hne⟩ := hslots.exists_bitAt_ne h.sized.proper (show 0 < 3 by decide) (show 1 < 3 by decide) Nat.zero_ne_one
  have hreach : narrow.slotOverlap < 1 := by
    rw [narrow_slotOverlap]
    norm_num
  obtain ⟨i, hi, hlost⟩ := exists_not_survives (h.sized.length_slotBits h.target).1 hreach hne
  have hkept : ¬ later.Kept narrow ⟨mp, mb⟩ .stay i i := fun hkept => hlost (min_self i ▸ hkept u hu)
  refine ⟨narrow_validate, n, hn, weights, errors, later, hvalue, fun hzero => ?_, i, hi, fun hmoved => ?_⟩
  · exact hkept ((h.errors_eq_zero_iff .stay).mp (herrors.mp hzero _ hmem) i i ⟨rfl, hi⟩)
  · exact hkept ((moved_eq_iff h hweights ⟨rfl, hi⟩).mp hmoved)

end Pointer

end Engram
