/-
  Engram.Proofs.Network.Built — what every network that is built is like.

  The layers have the names of the configuration, in order, and empty code books. Layers are
  numbered by 16 bits; with so many registers that the numbers would start again some gate would
  be listed twice, and then nothing is built. So the registers of a network that is built are
  numbered one after the other from the last control layer on (`numbered_of_build`).
-/

import Engram.Proofs.Network.Books
import Mathlib.Data.List.Nodup

namespace Engram

namespace Config

variable {α : Type} [Scalar α]

omit [Scalar α] in
/-- Register names that pass are all different. -/
theorem nodup_of_registersFault? {earlier names : List String}
    (h : (registersFault? earlier names : Option (ConfigFault α)) = none) : names.Nodup ∧ ∀ x ∈ names, x ∉ earlier := by
  induction names generalizing earlier with
  | nil => exact ⟨List.nodup_nil, fun x hx => by cases hx⟩
  | cons name rest ih =>
    unfold registersFault? at h
    cases hfault : (registerFault? earlier name : Option (ConfigFault α)) with
    | some fault =>
      rw [hfault] at h
      cases h
    | none =>
      rw [hfault] at h
      obtain ⟨hrest, hearlier⟩ := ih h
      have hname : name ∉ earlier := by
        intro hmem
        unfold registerFault? at hfault
        rw [if_pos (List.contains_iff_mem.mpr hmem)] at hfault
        split at hfault
        · cases hfault
        · split at hfault <;> cases hfault
      refine ⟨List.nodup_cons.mpr ⟨fun hmem => hearlier name hmem (by simp), hrest⟩, fun x hx => ?_⟩
      rcases List.mem_cons.mp hx with rfl | hx
      · exact hname
      · exact fun hmem => hearlier x hx (List.mem_append_left _ hmem)

omit [Scalar α] in
/-- Register names that pass are not names of control layers. -/
theorem not_control_of_registersFault? {earlier names : List String}
    (h : (registersFault? earlier names : Option (ConfigFault α)) = none) : ∀ x ∈ names, x ∉ controlNames := by
  induction names generalizing earlier with
  | nil => exact fun x hx => (List.not_mem_nil hx).elim
  | cons name rest ih =>
    unfold registersFault? at h
    cases hfault : (registerFault? earlier name : Option (ConfigFault α)) with
    | some fault =>
      rw [hfault] at h
      cases h
    | none =>
      rw [hfault] at h
      intro x hx
      rcases List.mem_cons.mp hx with rfl | hx
      · intro hmem
        unfold registerFault? at hfault
        rw [List.contains_iff_mem.mpr hmem, Bool.true_or, if_pos rfl] at hfault
        split at hfault <;> cases hfault
      · exact ih h x hx

theorem fault?_eq_none {c : Config α} (h : c.validate = .ok ()) : c.fault? = none := by
  unfold validate at h
  cases hf : c.fault? with
  | none => rfl
  | some f => rw [hf] at h; cases h

/-- What is checked of a configuration. -/
theorem of_validate {c : Config α} (h : c.validate = .ok ()) :
    c.registers ≠ [] ∧ (registersFault? [] c.registers : Option (ConfigFault α)) = none ∧
      Sylvester.isPowerOfTwo c.layerSize = true := by
  have hnone := fault?_eq_none h
  unfold fault? at hnone
  split at hnone
  · cases hnone
  next hempty =>
  split at hnone
  · cases hnone
  next hregisters =>
  refine ⟨fun hnil => hempty (by rw [hnil]; rfl), hregisters, ?_⟩
  cases hpower : Sylvester.isPowerOfTwo c.layerSize with
  | true => rfl
  | false =>
    rw [hpower, Bool.not_false, Bool.true_or, if_pos rfl] at hnone
    cases hnone

theorem pointerSlots_of_validate {c : Config α} (h : c.validate = .ok ()) :
    2 ≤ c.pointerSlots ∧ c.pointerSlots ≤ c.layerSize := by
  have hnone := fault?_eq_none h
  unfold fault? at hnone
  split at hnone
  · cases hnone
  split at hnone
  · cases hnone
  split at hnone
  · cases hnone
  split at hnone
  · cases hnone
  split at hnone
  · cases hnone
  split at hnone
  · cases hnone
  next hslots =>
  omega

theorem nodup_of_validate {c : Config α} (h : c.validate = .ok ()) : c.registers.Nodup :=
  (nodup_of_registersFault? (of_validate h).2.1).1

end Config

end Engram

namespace Engram.Network

open LayerId

variable {α : Type} [Scalar α]

/-- The parts of a network that was built. -/
structure BuiltFrom (c : Config α) (n : Network α) : Prop where
  valid : c.validate = .ok ()
  registers : n.registers = (List.range (UInt16.ofNat c.registers.length).toNat).map LayerId.register
  layers : n.layers = ((controlNames ++ c.registers).mapIdx (buildLayer c n.gates.size)).toArray
  gates : n.gates.gates = gateList n.registers (controlNames ++ c.registers).length
  rule : n.rule = c.rule
  seed : n.seed = c.seed

theorem gates_of_ofList {gates : List Gate} {m : GateMap} (h : GateMap.ofList gates = .ok m) : m.gates = gates := by
  unfold GateMap.ofList at h
  split at h
  · cases h
  · cases h
    rfl

theorem builtFrom_of_build {c : Config α} {n : Network α} (h : (Network.build c).value = .ok n) : n.BuiltFrom c := by
  unfold Network.build at h
  split at h
  · cases h
  next hvalid =>
  dsimp only at h
  split at h
  · cases h
  next gates hgates =>
  simp only [Noted.value_bind, Noted.value_pure] at h
  cases h
  exact ⟨hvalid, rfl, rfl, gates_of_ofList hgates, rfl, rfl⟩

/-- A layer that is found has the name that was looked for. -/
theorem name_of_id? {n : Network α} (hroom : n.layers.size ≤ 65536) {name : String} {l : LayerId}
    (h : n.id? name = some l) : n.name l = name := by
  obtain ⟨i, hfind, rfl⟩ := Option.map_eq_some_iff.mp h
  obtain ⟨hi, hname, -⟩ := Array.findIdx?_eq_some_iff_getElem.mp hfind
  have hposition : LayerId.position ⟨UInt16.ofNat i⟩ = i :=
    (UInt16.toNat_ofNat' ..).trans (Nat.mod_eq_of_lt (by omega))
  unfold Network.name Network.layer
  rw [hposition, Array.getD_eq_getD_getElem?, Array.getElem?_eq_getElem hi, Option.getD_some]
  exact beq_iff_eq.mp hname

namespace BuiltFrom

variable {c : Config α} {n : Network α}

theorem nodup_gateList (h : n.BuiltFrom c) :
    (gateList n.registers (controlNames ++ c.registers).length).Nodup := by
  rw [← h.gates]
  exact n.gates.nodup

theorem size_layers (h : n.BuiltFrom c) : n.layers.size = controlNames.length + c.registers.length := by
  rw [h.layers]
  simp

theorem layer_eq (h : n.BuiltFrom c) {l : LayerId} (hl : l.position < n.layers.size) :
    ∃ name, n.layer l = buildLayer c n.gates.size l.position name := by
  unfold Network.layer
  rw [Array.getD_eq_getD_getElem?, Array.getElem?_eq_getElem hl, Option.getD_some]
  simp only [h.layers, List.getElem_toArray, List.getElem_mapIdx]
  exact ⟨_, rfl⟩

/-- Layers have their names in the order of the configuration. -/
theorem name_eq (h : n.BuiltFrom c) {l : LayerId} {name : String}
    (hname : (controlNames ++ c.registers)[l.position]? = some name) : n.name l = name := by
  unfold Network.name Network.layer
  rw [Array.getD_eq_getD_getElem?, h.layers, List.getElem?_toArray, List.getElem?_mapIdx, hname]
  rfl

/-- A layer but for the two of the control automaton has the size of the data layers. -/
theorem size_data (h : n.BuiltFrom c) {l : LayerId} (hl : l.position < n.layers.size) (hgo : l ≠ go) (hgh : l ≠ gh) :
    n.size l = c.layerSize := by
  obtain ⟨name, hname⟩ := h.layer_eq hl
  have hid : (⟨UInt16.ofNat l.position⟩ : LayerId) = l := congrArg LayerId.mk UInt16.ofNat_toNat
  unfold Network.size
  rw [hname, buildLayer, hid, if_neg hgo, if_neg hgh]
  rfl

/-- Every layer has the activator of the configuration. -/
theorem activator_eq (h : n.BuiltFrom c) {l : LayerId} (hl : l.position < n.layers.size) :
    n.activator l = c.activator := by
  obtain ⟨name, hname⟩ := h.layer_eq hl
  unfold Network.activator
  rw [hname]
  rfl

/-- No two layers have the same name. -/
theorem nodup_layerNames (h : n.BuiltFrom c) : (controlNames ++ c.registers).Nodup := by
  refine List.nodup_append.mpr ⟨by decide, Config.nodup_of_validate h.valid, fun x hx y hy => ?_⟩
  rintro rfl
  exact Config.not_control_of_registersFault? (Config.of_validate h.valid).2.1 x hy hx

theorem names_layers (h : n.BuiltFrom c) : n.layers.map (·.name) = (controlNames ++ c.registers).toArray := by
  rw [h.layers, List.map_toArray]
  refine congrArg List.toArray (List.ext_getElem (by simp) fun i h₁ h₂ => ?_)
  rw [List.getElem_map, List.getElem_mapIdx]
  rfl

theorem getElem?_names (h : n.BuiltFrom c) {l : LayerId} (hl : l.position < n.layers.size) :
    (controlNames ++ c.registers)[l.position]? = some (n.name l) := by
  have hlt : l.position < (controlNames ++ c.registers).length := by
    rw [List.length_append, ← h.size_layers]
    exact hl
  rw [List.getElem?_eq_getElem hlt, h.name_eq (List.getElem?_eq_getElem hlt)]

/-- Layers of the same name are the same. -/
theorem eq_of_name (h : n.BuiltFrom c) {l l' : LayerId} (hl : l.position < n.layers.size)
    (hl' : l'.position < n.layers.size) (hname : n.name l = n.name l') : l = l' := by
  obtain ⟨hlt, hget⟩ := List.getElem?_eq_some_iff.mp (h.getElem?_names hl)
  obtain ⟨hlt', hget'⟩ := List.getElem?_eq_some_iff.mp (h.getElem?_names hl')
  have hsame : (controlNames ++ c.registers)[l.position] = (controlNames ++ c.registers)[l'.position] := by
    rw [hget, hget', hname]
  exact LayerId.position_injective (h.nodup_layerNames.getElem_inj_iff.mp hsame)

/-- A layer is found under its name. -/
theorem id_name (h : n.BuiltFrom c) {l : LayerId} (hl : l.position < n.layers.size) : n.id (n.name l) = .ok l := by
  have hfind : n.layers.findIdx? (·.name == n.name l) = (n.layers.map (·.name)).findIdx? (· == n.name l) := by
    rw [Array.findIdx?_map]
    rfl
  obtain ⟨hlt, hget⟩ := List.getElem?_eq_some_iff.mp (h.getElem?_names hl)
  have hposition : n.layers.findIdx? (·.name == n.name l) = some l.position := by
    rw [hfind, h.names_layers, List.findIdx?_toArray, List.findIdx?_eq_some_iff_getElem]
    refine ⟨hlt, beq_iff_eq.mpr hget, fun j hj hname => ?_⟩
    rw [beq_iff_eq, ← hget] at hname
    exact absurd (h.nodup_layerNames.getElem_inj_iff.mp hname) (Nat.ne_of_lt hj)
  have hid : (⟨UInt16.ofNat l.position⟩ : LayerId) = l := congrArg LayerId.mk UInt16.ofNat_toNat
  rw [id, id?, hposition, Option.map_some, hid]

/-- The sizes of layers. -/
theorem size_eq (h : n.BuiltFrom c) {l : LayerId} (hl : l.position < n.layers.size) :
    n.size l = if l = go then n.gates.size else if l = gh then c.hiddenSize else c.layerSize := by
  obtain ⟨name, hname⟩ := h.layer_eq hl
  have hid : (⟨UInt16.ofNat l.position⟩ : LayerId) = l := congrArg LayerId.mk UInt16.ofNat_toNat
  rw [Network.size, hname, buildLayer, hid]
  rfl

/-- Nothing has been named on the hidden layer. -/
theorem history_gh (h : n.BuiltFrom c) : (n.layer gh).book.history = [] := by
  obtain ⟨name, hname⟩ := h.layer_eq (l := gh) (by rw [h.size_layers]; exact Nat.lt_add_right _ (by decide))
  rw [hname]
  rfl

/-- The gate layer has one unit for each gate. -/
theorem size_go (h : n.BuiltFrom c) : n.size go = n.gates.size := by
  obtain ⟨name, hname⟩ := h.layer_eq (l := go) (by rw [h.size_layers]; exact Nat.lt_add_right _ (by decide))
  unfold Network.size
  rw [hname]
  rfl

theorem sound (h : n.BuiltFrom c) : n.Sound := by
  intro l
  by_cases hl : l.position < n.layers.size
  · obtain ⟨name, hname⟩ := h.layer_eq hl
    rw [hname]
    exact CodeBook.sound_new _ _ _
  · unfold Network.layer
    rw [Array.getD_eq_getD_getElem?, Array.getElem?_eq_none (Nat.not_lt.mp hl)]
    exact CodeBook.sound_new _ _ _

/-- The flow from the second operand into a register named `go` would be there twice. -/
theorem go_not_register (h : n.BuiltFrom c) : go ∉ n.registers := by
  intro hgo
  have hflows : ((flowPathways n.registers).map fun p => Gate.copy p.target p.source).Nodup := by
    have := h.nodup_gateList
    unfold gateList at this
    exact (List.nodup_append.mp (List.nodup_append.mp this).1).1
  have hflows : (flowPathways n.registers).Nodup := List.Nodup.of_map _ hflows
  have hleft : (⟨go, op2⟩ : Pathway) ∈ [⟨gh, gh⟩, ⟨go, gh⟩] ++ conditions.flatMap (fun c => [⟨gh, c⟩, ⟨go, c⟩]) := by decide
  have hright : (⟨go, op2⟩ : Pathway) ∈
      n.registers.flatMap (fun r => [⟨r, op2⟩, ⟨ip, r⟩, ⟨ci, r⟩, ⟨r, mf⟩, ⟨mf, r⟩, ⟨mb, r⟩]) :=
    List.mem_flatMap.mpr ⟨go, hgo, by simp⟩
  unfold flowPathways at hflows
  simp only [List.append_assoc] at hflows
  rw [← List.append_assoc] at hflows
  refine (List.nodup_append.mp hflows).2.2 _ hleft _ ?_ rfl
  exact List.mem_append_right _ (List.mem_append_left _ hright)

theorem position_register {i : Nat} (hi : controlNames.length + i < 65536) :
    (LayerId.register i).position = controlNames.length + i := by
  show (UInt16.ofNat (controlNames.length + i)).toNat = _
  rw [UInt16.toNat_ofNat']
  exact Nat.mod_eq_of_lt hi

/-- Layer numbers do not start again: the register after the last number would be the first layer. -/
theorem room (h : n.BuiltFrom c) : controlNames.length + c.registers.length % 65536 ≤ 65536 := by
  have hnames : controlNames.length = 13 := rfl
  by_contra hlt
  apply h.go_not_register
  rw [h.registers, UInt16.toNat_ofNat', List.mem_map]
  refine ⟨65523, List.mem_range.mpr (by omega), by decide⟩

theorem numbered (h : n.BuiltFrom c) : n.Numbered := by
  have hcount : (UInt16.ofNat c.registers.length).toNat = c.registers.length % 65536 := UInt16.toNat_ofNat'
  have hnames : controlNames.length = 13 := rfl
  have hroom := h.room
  refine ⟨by rw [h.size_layers]; omega, fun r hr => ?_⟩
  rw [h.registers, List.mem_map] at hr
  obtain ⟨i, hi, rfl⟩ := hr
  rw [List.mem_range, hcount] at hi
  rw [position_register (by omega), h.size_layers]
  omega

theorem name_register (h : n.BuiltFrom c) {i : Nat} (hi : i < c.registers.length)
    (hroom : controlNames.length + i < 65536) : n.name (LayerId.register i) = c.registers[i] := by
  refine h.name_eq ?_
  rw [position_register hroom, List.getElem?_append_right (Nat.le_add_right _ _), Nat.add_sub_cancel_left,
    List.getElem?_eq_getElem hi]

/-- Register layers have different names. -/
theorem nodup_names (h : n.BuiltFrom c) : (n.registers.map n.name).Nodup := by
  have hnodup : c.registers.Nodup := Config.nodup_of_validate h.valid
  have hroom := h.room
  have hle := Nat.mod_le c.registers.length 65536
  rw [h.registers, List.map_map, UInt16.toNat_ofNat']
  refine List.Nodup.map_on (fun i hi j hj heq => ?_) List.nodup_range
  rw [List.mem_range] at hi hj
  rw [Function.comp_apply, Function.comp_apply, h.name_register (by omega) (by omega),
    h.name_register (by omega) (by omega)] at heq
  exact (List.Nodup.getElem_inj_iff hnodup).mp heq

/-- The registers, when there are numbers for all layers. -/
theorem registers_eq (h : n.BuiltFrom c) (hroom : controlNames.length + c.registers.length ≤ 65536) :
    n.registers = (List.range c.registers.length).map LayerId.register := by
  have hnames : controlNames.length = 13 := rfl
  rw [h.registers, UInt16.toNat_ofNat', Nat.mod_eq_of_lt (by omega)]

theorem registerNames_eq (h : n.BuiltFrom c) (hroom : controlNames.length + c.registers.length ≤ 65536) :
    n.registerNames = c.registers := by
  rw [registerNames, h.registers_eq hroom, List.map_map]
  refine List.ext_getElem (by simp) fun i h₁ h₂ => ?_
  rw [List.getElem_map, List.getElem_range]
  exact h.name_register h₂ (by omega)

/-- The layers that are registers are those of the configuration. -/
theorem isRegister_iff (h : n.BuiltFrom c) (hroom : controlNames.length + c.registers.length ≤ 65536) {name : String} :
    n.isRegister name = true ↔ name ∈ c.registers := by
  rw [← h.registerNames_eq hroom, registerNames, List.mem_map]
  unfold isRegister
  have hsize : n.layers.size ≤ 65536 := h.size_layers ▸ hroom
  constructor
  · intro hregister
    cases hid : n.id? name with
    | none =>
      rw [hid] at hregister
      cases hregister
    | some l =>
      rw [hid] at hregister
      exact ⟨l, List.contains_iff_mem.mp hregister, name_of_id? hsize hid⟩
  · rintro ⟨l, hl, rfl⟩
    have hid := h.id_name (h.numbered.registers l hl).2
    unfold id at hid
    cases hid? : n.id? (n.name l) with
    | none =>
      rw [hid?] at hid
      cases hid
    | some l' =>
      rw [hid?] at hid
      cases hid
      exact List.contains_iff_mem.mpr hl

end BuiltFrom

end Engram.Network
