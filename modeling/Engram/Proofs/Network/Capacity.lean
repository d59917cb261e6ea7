/-
  Engram.Proofs.Network.Capacity — how many registers a network has numbers for.

  A pathway is between two control layers, or between a register and a control layer, or between
  two registers; within each of the three no pathway is listed twice, as long as the registers are
  different and none of them is a control layer (`nodup_flowPathways`, `nodup_plasticPathways`).
  Layers have 16-bit numbers, and the number of layers is one as well. So with 65522 registers at
  most every gate is listed once, and the network of a valid configuration is built
  (`exists_build`). With one more there is a layer whose decay gate is not listed
  (`length_registers_le`).
-/

import Engram.Proofs.Network.Gates
import Engram.Proofs.Network.Built

namespace Engram

open LayerId

namespace GateMap

theorem firstRepeated?_eq_none {seen gates : List Gate} (h : gates.Nodup) (hseen : ∀ g ∈ gates, g ∉ seen) :
    firstRepeated? seen gates = none := by
  induction gates generalizing seen with
  | nil => rfl
  | cons g rest ih =>
    rw [List.nodup_cons] at h
    rw [firstRepeated?, if_neg (hseen g List.mem_cons_self)]
    refine ih h.2 fun x hx hmem => ?_
    rcases List.mem_cons.mp hmem with rfl | hmem
    · exact h.1 hx
    · exact hseen x (List.mem_cons_of_mem _ hx) hmem

/-- Gates of which none is listed twice have a map. -/
theorem exists_ofList {gates : List Gate} (h : gates.Nodup) : ∃ m, ofList gates = .ok m := by
  have hnone : firstRepeated? [] gates = none :=
    firstRepeated?_eq_none h fun _ _ hmem => (List.not_mem_nil hmem).elim
  unfold ofList
  split
  next g hsome =>
    rw [hnone] at hsome
    cases hsome
  next => exact ⟨_, rfl⟩

end GateMap

/-! ## Pathways of different kinds -/

section

variable {registers : List LayerId} {r s : LayerId} {p : Pathway}

/-- The flows between a register and control layers. -/
def registerFlows (r : LayerId) : List Pathway := [⟨r, op2⟩, ⟨ip, r⟩, ⟨ci, r⟩, ⟨r, mf⟩, ⟨mf, r⟩, ⟨mb, r⟩]

/-- The plastic pathways between a register and control layers. -/
def registerPlastic (r : LayerId) : List Pathway := [⟨r, mf⟩, ⟨mf, r⟩, ⟨mb, r⟩]

theorem flowPathways_perm (registers : List LayerId) : (flowPathways registers).Perm
    (flowPathways [] ++ (registers.flatMap registerFlows ++ registers.flatMap fun r => registers.map (Pathway.mk r))) := by
  unfold flowPathways registerFlows
  simp only [List.flatMap_nil, List.append_nil, List.append_assoc, List.perm_append_left_iff]
  rw [← List.append_assoc]
  refine List.perm_append_comm.trans ?_
  simp only [List.append_assoc, List.Perm.refl]

theorem plasticPathways_perm (registers : List LayerId) :
    (plasticPathways registers).Perm (plasticPathways [] ++ registers.flatMap registerPlastic) := by
  unfold plasticPathways registerPlastic
  simp only [List.flatMap_nil, List.append_nil, List.append_assoc, List.perm_append_left_iff]
  exact List.perm_append_comm

theorem mem_flowPathways_fixed {p : Pathway} (hp : p ∈ flowPathways []) : p ∈ flowPathways registers :=
  (flowPathways_perm registers).mem_iff.mpr (List.mem_append_left _ hp)

theorem mem_flowPathways_register {p : Pathway} (hr : r ∈ registers) (hp : p ∈ registerFlows r) :
    p ∈ flowPathways registers :=
  (flowPathways_perm registers).mem_iff.mpr
    (List.mem_append_right _ (List.mem_append_left _ (List.mem_flatMap.mpr ⟨r, hr, hp⟩)))

theorem mem_flowPathways_registers (hr : r ∈ registers) (hs : s ∈ registers) : ⟨r, s⟩ ∈ flowPathways registers :=
  (flowPathways_perm registers).mem_iff.mpr (List.mem_append_right _ (List.mem_append_right _
    (List.mem_flatMap.mpr ⟨r, hr, List.mem_map_of_mem hs⟩)))

theorem mem_plasticPathways_fixed {p : Pathway} (hp : p ∈ plasticPathways []) : p ∈ plasticPathways registers :=
  (plasticPathways_perm registers).mem_iff.mpr (List.mem_append_left _ hp)

theorem mem_plasticPathways_register {p : Pathway} (hr : r ∈ registers) (hp : p ∈ registerPlastic r) :
    p ∈ plasticPathways registers :=
  (plasticPathways_perm registers).mem_iff.mpr (List.mem_append_right _ (List.mem_flatMap.mpr ⟨r, hr, hp⟩))

/-- The layer is one of those that every network has. -/
def IsControl (l : LayerId) : Prop := l.position < controlNames.length

instance (l : LayerId) : Decidable (IsControl l) := inferInstanceAs (Decidable (_ < _))

/-- One end of the pathway is the register, and the other end is a control layer. -/
def Joins (r : LayerId) (p : Pathway) : Prop :=
  (p.source = r ∧ IsControl p.target) ∨ (p.target = r ∧ IsControl p.source)

theorem joins_registerFlows : ∀ p ∈ registerFlows r, Joins r p := by
  have hsource {l : LayerId} (hl : IsControl l := by decide) : Joins r ⟨l, r⟩ := .inl ⟨rfl, hl⟩
  have htarget {l : LayerId} (hl : IsControl l := by decide) : Joins r ⟨r, l⟩ := .inr ⟨rfl, hl⟩
  unfold registerFlows
  simp only [List.forall_mem_cons, List.not_mem_nil, and_true, false_imp_iff, implies_true]
  exact ⟨htarget, hsource, hsource, htarget, hsource, hsource⟩

theorem joins_registerPlastic : ∀ p ∈ registerPlastic r, Joins r p := fun p hp =>
  joins_registerFlows p (List.mem_of_mem_drop (i := 3) hp)

/-- Both ends of every flow are layers. -/
theorem Network.Numbered.ends_of_flow {α : Type} {n : Network α} (hn : n.Numbered) {p : Pathway}
    (hp : p ∈ flowPathways n.registers) : p.source.position < n.layers.size ∧ p.target.position < n.layers.size := by
  have hcontrol {l : LayerId} (hl : IsControl l) : l.position < n.layers.size := Nat.lt_of_lt_of_le hl hn.control
  have hfixed : ∀ p ∈ flowPathways [], IsControl p.source ∧ IsControl p.target := by decide
  rcases List.mem_append.mp ((flowPathways_perm n.registers).mem_iff.mp hp) with hp | hp
  · exact ⟨hcontrol (hfixed p hp).1, hcontrol (hfixed p hp).2⟩
  rcases List.mem_append.mp hp with hp | hp
  · obtain ⟨r, hr, hp⟩ := List.mem_flatMap.mp hp
    rcases joins_registerFlows p hp with ⟨rfl, htarget⟩ | ⟨rfl, hsource⟩
    · exact ⟨(hn.registers _ hr).2, hcontrol htarget⟩
    · exact ⟨hcontrol hsource, (hn.registers _ hr).2⟩
  · obtain ⟨r, hr, hp⟩ := List.mem_flatMap.mp hp
    obtain ⟨s, hs, rfl⟩ := List.mem_map.mp hp
    exact ⟨(hn.registers s hs).2, (hn.registers r hr).2⟩

theorem nodup_registerFlows (h : ¬ IsControl r) : (registerFlows r).Nodup := by
  have hne {l : LayerId} (hl : IsControl l := by decide) : r ≠ l := fun heq => h (heq ▸ hl)
  have hmf : r ≠ mf := hne
  have hmb : r ≠ mb := hne
  have hip : r ≠ ip := hne
  have hci : r ≠ ci := hne
  have hlayers : ip ≠ ci ∧ ip ≠ mf ∧ ip ≠ mb ∧ ci ≠ mf ∧ ci ≠ mb ∧ mf ≠ mb ∧ op2 ≠ mf := by decide
  obtain ⟨h₁, h₂, h₃, h₄, h₅, h₆, h₇⟩ := hlayers
  simp [registerFlows, hmf, hmb, hip, hci, h₁, h₂, h₃, h₄, h₅, h₆, h₇]

theorem nodup_registerPlastic (h : ¬ IsControl r) : (registerPlastic r).Nodup :=
  (nodup_registerFlows h).sublist (List.drop_sublist 3 (registerFlows r))

/-- Pathways between control layers and pathways that join a register to them are all different. -/
theorem nodup_append_flatMap {fixed : List Pathway} {star : LayerId → List Pathway} (hregisters : registers.Nodup)
    (hbeyond : ∀ r ∈ registers, ¬ IsControl r) (hfixed : fixed.Nodup)
    (hcontrol : ∀ p ∈ fixed, IsControl p.source ∧ IsControl p.target) (hstar : ∀ r ∈ registers, (star r).Nodup)
    (hjoins : ∀ r, ∀ p ∈ star r, Joins r p) : (fixed ++ registers.flatMap star).Nodup := by
  rw [List.nodup_append, List.nodup_flatMap]
  refine ⟨hfixed, ⟨hstar, hregisters.imp_of_mem fun hr hs hne p hp hp' => ?_⟩, fun p hp q hq heq => ?_⟩
  · rcases hjoins _ p hp with ⟨heq, htarget⟩ | ⟨heq, hsource⟩ <;>
      rcases hjoins _ p hp' with ⟨heq', htarget'⟩ | ⟨heq', hsource'⟩
    · exact hne (heq.symm.trans heq')
    · exact hbeyond _ hr (heq ▸ hsource')
    · exact hbeyond _ hr (heq ▸ htarget')
    · exact hne (heq.symm.trans heq')
  · obtain ⟨r, hr, hq⟩ := List.mem_flatMap.mp hq
    rw [← heq] at hq
    rcases hjoins r p hq with ⟨hend, -⟩ | ⟨hend, -⟩
    · exact hbeyond r hr (hend ▸ (hcontrol p hp).1)
    · exact hbeyond r hr (hend ▸ (hcontrol p hp).2)

theorem nodup_flowPathways (hregisters : registers.Nodup) (hbeyond : ∀ r ∈ registers, ¬ IsControl r) :
    (flowPathways registers).Nodup := by
  rw [(flowPathways_perm registers).nodup_iff, ← List.append_assoc, List.nodup_append]
  have hcontrol : ∀ p ∈ flowPathways [], IsControl p.source ∧ IsControl p.target := by decide
  refine ⟨nodup_append_flatMap hregisters hbeyond (by decide) hcontrol (fun r hr => nodup_registerFlows (hbeyond r hr))
    fun r => joins_registerFlows, ?_, ?_⟩
  · rw [List.nodup_flatMap]
    refine ⟨fun r _ => hregisters.map fun s s' h => congrArg Pathway.source h, hregisters.imp fun hne p hp hp' => ?_⟩
    obtain ⟨s, -, rfl⟩ := List.mem_map.mp hp
    obtain ⟨s', -, heq⟩ := List.mem_map.mp hp'
    exact hne (congrArg Pathway.target heq).symm
  · -- both ends of a pathway between registers are beyond the control layers
    rintro p hp q hq rfl
    obtain ⟨r, hr, hq⟩ := List.mem_flatMap.mp hq
    obtain ⟨s, hs, rfl⟩ := List.mem_map.mp hq
    rcases List.mem_append.mp hp with hp | hp
    · exact hbeyond r hr (hcontrol _ hp).2
    · obtain ⟨t, -, hp⟩ := List.mem_flatMap.mp hp
      rcases joins_registerFlows _ hp with ⟨-, htarget⟩ | ⟨-, hsource⟩
      · exact hbeyond r hr htarget
      · exact hbeyond s hs hsource

theorem nodup_plasticPathways (hregisters : registers.Nodup) (hbeyond : ∀ r ∈ registers, ¬ IsControl r) :
    (plasticPathways registers).Nodup := by
  rw [(plasticPathways_perm registers).nodup_iff]
  exact nodup_append_flatMap hregisters hbeyond (by decide) (by decide) (fun r hr => nodup_registerPlastic (hbeyond r hr))
    fun r => joins_registerPlastic

end

/-! ## The gates of a network -/

namespace Network

theorem ofNat_injective {i j : Nat} (hi : i < 65536) (hj : j < 65536) (h : UInt16.ofNat i = UInt16.ofNat j) : i = j := by
  have htoNat := congrArg UInt16.toNat h
  rwa [UInt16.toNat_ofNat_of_lt' hi, UInt16.toNat_ofNat_of_lt' hj] at htoNat

theorem mem_copies {registers : List LayerId} {count : Nat} {p : Pathway} (hp : p ∈ flowPathways registers) :
    Gate.copy p.target p.source ∈ gateList registers count :=
  List.mem_append_left _ (List.mem_append_left _ (List.mem_map_of_mem (f := fun p => Gate.copy p.target p.source) hp))

theorem mem_learns {registers : List LayerId} {count : Nat} {p : Pathway} (hp : p ∈ plasticPathways registers) :
    Gate.learn p.target p.source ∈ gateList registers count :=
  List.mem_append_left _ (List.mem_append_right _ (List.mem_map_of_mem (f := fun p => Gate.learn p.target p.source) hp))

/-- A layer has a decay gate if its number is below the number of layers, as a number of 16 bits. -/
theorem mem_decays_iff {registers : List LayerId} {count : Nat} {l : LayerId} :
    Gate.decay l ∈ gateList registers count ↔ l.position < count % 65536 := by
  have hcount : (UInt16.ofNat count).toNat = count % 65536 := UInt16.toNat_ofNat'
  unfold gateList
  simp only [List.mem_append, List.mem_map, List.mem_range, hcount]
  constructor
  · rintro ((⟨p, -, h⟩ | ⟨p, -, h⟩) | ⟨i, hi, h⟩)
    · cases congrArg Gate.mode h
    · cases congrArg Gate.mode h
    · have hl : (⟨UInt16.ofNat i⟩ : LayerId) = l := congrArg Gate.target h
      rw [← hl, LayerId.position, UInt16.toNat_ofNat_of_lt' (by show i < 65536; omega)]
      exact hi
  · exact fun hl => .inr ⟨l.position, hl, by rw [LayerId.position, UInt16.ofNat_toNat]⟩

/-- What gates there are. -/
theorem mem_gateList_iff {registers : List LayerId} {count : Nat} {g : Gate} : g ∈ gateList registers count ↔
    match g.mode with
    | .copy => ⟨g.target, g.source⟩ ∈ flowPathways registers
    | .learn => ⟨g.target, g.source⟩ ∈ plasticPathways registers
    | .decay => g.source = g.target ∧ g.target.position < count % 65536 := by
  obtain ⟨target, source, mode⟩ := g
  cases mode with
  | copy =>
    refine ⟨fun hg => ?_, fun hp => mem_copies hp⟩
    simp only [gateList, List.mem_append, List.mem_map] at hg
    rcases hg with (⟨p, hp, h⟩ | ⟨p, -, h⟩) | ⟨i, -, h⟩
    · cases h
      exact hp
    · cases congrArg Gate.mode h
    · cases congrArg Gate.mode h
  | learn =>
    refine ⟨fun hg => ?_, fun hp => mem_learns hp⟩
    simp only [gateList, List.mem_append, List.mem_map] at hg
    rcases hg with (⟨p, -, h⟩ | ⟨p, hp, h⟩) | ⟨i, -, h⟩
    · cases congrArg Gate.mode h
    · cases h
      exact hp
    · cases congrArg Gate.mode h
  | decay =>
    by_cases hself : source = target
    · subst hself
      exact mem_decays_iff.trans (and_iff_right rfl).symm
    · refine iff_of_false (fun hg => ?_) fun h => hself h.1
      simp only [gateList, List.mem_append, List.mem_map] at hg
      rcases hg with (⟨p, -, h⟩ | ⟨p, -, h⟩) | ⟨i, -, h⟩
      · cases congrArg Gate.mode h
      · cases congrArg Gate.mode h
      · exact hself ((congrArg Gate.source h).symm.trans (congrArg Gate.target h))

theorem nodup_gateList {registers : List LayerId} (hregisters : registers.Nodup) (hbeyond : ∀ r ∈ registers, ¬ IsControl r)
    (count : Nat) : (gateList registers count).Nodup := by
  have hcount : (UInt16.ofNat count).toNat = count % 65536 := UInt16.toNat_ofNat'
  unfold gateList
  rw [List.nodup_append, List.nodup_append, hcount]
  refine ⟨⟨(nodup_flowPathways hregisters hbeyond).map fun p q h => ?_, (nodup_plasticPathways hregisters hbeyond).map
    fun p q h => ?_, ?_⟩, List.nodup_range.map_on fun i hi j hj h => ?_, ?_⟩
  · cases p
    cases q
    cases h
    rfl
  · cases p
    cases q
    cases h
    rfl
  · intro g hg g' hg' heq
    obtain ⟨p, -, rfl⟩ := List.mem_map.mp hg
    obtain ⟨q, -, rfl⟩ := List.mem_map.mp hg'
    cases congrArg Gate.mode heq
  · rw [List.mem_range] at hi hj
    exact ofNat_injective (by omega) (by omega) (congrArg (·.target.index) h)
  · intro g hg g' hg' heq
    obtain ⟨i, -, rfl⟩ := List.mem_map.mp hg'
    rcases List.mem_append.mp hg with hg | hg
    · obtain ⟨p, -, rfl⟩ := List.mem_map.mp hg
      cases congrArg Gate.mode heq
    · obtain ⟨p, -, rfl⟩ := List.mem_map.mp hg
      cases congrArg Gate.mode heq

variable {α : Type} [Scalar α] {c : Config α} {n : Network α}

omit [Scalar α] in
/-- The layers are numbered in their order, while there are numbers. -/
theorem mem_layerIds (hroom : n.layers.size < 65536) {l : LayerId} :
    l ∈ n.layerIds ↔ l.position < n.layers.size := by
  unfold layerIds
  rw [List.mem_map]
  constructor
  · rintro ⟨i, hi, rfl⟩
    rw [List.mem_range] at hi
    rw [LayerId.position, UInt16.toNat_ofNat_of_lt' (by show i < 65536; omega)]
    exact hi
  · exact fun hl => ⟨l.position, List.mem_range.mpr hl, by rw [LayerId.position, UInt16.ofNat_toNat]⟩

/-- Registers are numbered from the last control layer on, as long as there are numbers. -/
theorem nodup_registers (count : Nat) (hroom : controlNames.length + count ≤ 65536) :
    ((List.range count).map LayerId.register).Nodup ∧ ∀ r ∈ (List.range count).map LayerId.register, ¬ IsControl r := by
  refine ⟨List.nodup_range.map_on fun i hi j hj h => ?_, fun r hr hcontrol => ?_⟩
  · rw [List.mem_range] at hi hj
    have hij := ofNat_injective (by omega) (by omega) (congrArg LayerId.index h)
    omega
  · obtain ⟨i, hi, rfl⟩ := List.mem_map.mp hr
    rw [List.mem_range] at hi
    rw [IsControl, BuiltFrom.position_register (by omega)] at hcontrol
    omega

/-- A valid configuration with numbers for all of its registers has a network. -/
theorem exists_build (hvalid : c.validate = .ok ()) (hroom : c.registers.length ≤ 65522) :
    ∃ n, (Network.build c).value = .ok n := by
  have hnames : controlNames.length = 13 := rfl
  have hcount : (UInt16.ofNat c.registers.length).toNat = c.registers.length % 65536 := UInt16.toNat_ofNat'
  obtain ⟨hregisters, hbeyond⟩ := nodup_registers (UInt16.ofNat c.registers.length).toNat (by omega)
  obtain ⟨gates, hgates⟩ := GateMap.exists_ofList (nodup_gateList hregisters hbeyond (controlNames ++ c.registers).length)
  unfold Network.build
  rw [hvalid]
  dsimp only
  rw [hgates]
  exact ⟨_, rfl⟩

namespace BuiltFrom

/-- The registers of a network are different, and none of them is a control layer. -/
theorem registers_beyond (h : n.BuiltFrom c) : n.registers.Nodup ∧ ∀ r ∈ n.registers, ¬ IsControl r := by
  have hroom := h.room
  rw [h.registers, UInt16.toNat_ofNat']
  exact nodup_registers _ hroom

theorem unit?_of_mem (h : n.BuiltFrom c) {g : Gate} (hg : g ∈ gateList n.registers (controlNames ++ c.registers).length) :
    ∃ u, n.gates.unit? g = some u := GateMap.unit?_of_mem (h.gates ▸ hg)

/-- The number of registers is at most what has numbers, if every layer has a decay gate. -/
theorem length_registers_le (h : n.BuiltFrom c) (hdecay : ∀ l ∈ n.layerIds, Gate.decay l ∈ n.gates.gates) :
    c.registers.length ≤ 65522 := by
  have hnames : controlNames.length = 13 := rfl
  by_contra hroom
  -- the layer with the last number there is
  have hlast : (⟨UInt16.ofNat 65535⟩ : LayerId) ∈ n.layerIds := by
    refine List.mem_map.mpr ⟨65535, List.mem_range.mpr ?_, rfl⟩
    rw [h.size_layers]
    omega
  have hlisted := hdecay _ hlast
  rw [h.gates, mem_decays_iff] at hlisted
  have hposition : (⟨UInt16.ofNat 65535⟩ : LayerId).position = 65535 := rfl
  omega

end BuiltFrom

end Network

end Engram
