/-
  Engram.Proofs.Artifact.Reordering — weights under other numbers of the registers.

  Two configurations that list the same registers in different orders give networks with the same
  layers under different numbers. An artifact has the names of layers, so its connections go to the
  pathways of the same names (`toWeights_reordered`). The rows of a connection into the gate layer
  have no names: they are the units of the gate map, whose gates are listed by the numbers of
  layers and so are the same ones in both networks. A row drives in the second network the gate at
  the same places; the layers there have the same names only if no register among them has moved
  (`names_of_gate`), and all rows drive the gates that they are for only if none has
  (`weights_reordered`).
-/

import Engram.Artifact.Basic
import Engram.Proofs.Machine.Shapes
import Engram.Proofs.Network.Built
import Engram.Proofs.Scalar.Fixed

namespace Engram

open LayerId

variable {α : Type} [Scalar α]

/-! ## Names and numbers -/

namespace Network

/-- Both layers of the pathway are there. -/
def Joins (n : Network α) (p : Pathway) : Prop := p.source.position < n.layers.size ∧ p.target.position < n.layers.size

/-- The layer of the second network that has the name of a layer of the first. -/
def counterpart (n m : Network α) (l : LayerId) : LayerId := (m.id? (n.name l)).getD l

end Network

/-- The pathway between other layers. -/
def Pathway.map (f : LayerId → LayerId) (p : Pathway) : Pathway := ⟨f p.target, f p.source⟩

/-- The second configuration lists the registers of the first in any order, and is the same otherwise. -/
structure Config.Reorders (a b : Config α) : Prop where
  registers : a.registers.Perm b.registers
  rest : b = { a with registers := b.registers }

omit [Scalar α] in
theorem Config.Reorders.symm {a b : Config α} (h : a.Reorders b) : b.Reorders a :=
  ⟨h.registers.symm, by rw [h.rest]⟩

/-! ## The two networks -/

namespace Network

/-- Networks of configurations that list the same registers, few enough to be numbered. -/
structure Reordered (a b : Config α) (n m : Network α) : Prop where
  reorders : a.Reorders b
  first : n.BuiltFrom a
  second : m.BuiltFrom b
  room : controlNames.length + a.registers.length ≤ 65536

namespace Reordered

variable {a b : Config α} {n m : Network α}

theorem symm (h : Reordered a b n m) : Reordered b a m n :=
  ⟨h.reorders.symm, h.second, h.first, h.reorders.registers.length_eq ▸ h.room⟩

theorem registers_eq (h : Reordered a b n m) : m.registers = n.registers := by
  rw [h.second.registers, h.first.registers, h.reorders.registers.length_eq]

/-- Both networks have the same gates, in the same order. -/
theorem gates_eq (h : Reordered a b n m) : m.gates = n.gates := by
  have hgates : m.gates.gates = n.gates.gates := by
    rw [h.second.gates, h.first.gates, h.registers_eq, List.length_append, List.length_append,
      h.reorders.registers.length_eq]
  rcases hm : m.gates with ⟨gates, _⟩
  rcases hn : n.gates with ⟨gates', _⟩
  rw [hm, hn] at hgates
  obtain rfl : gates = gates' := hgates
  rfl

theorem size_layers (h : Reordered a b n m) : m.layers.size = n.layers.size := by
  rw [h.second.size_layers, h.first.size_layers, h.reorders.registers.length_eq]

theorem size_layers_le (h : Reordered a b n m) : n.layers.size ≤ 65536 := by
  rw [h.first.size_layers]
  exact h.room

/-- Every layer of the first network has a counterpart in the second, where it is found by its name. -/
theorem counterpart_spec (h : Reordered a b n m) {l : LayerId} (hl : l.position < n.layers.size) :
    (counterpart n m l).position < m.layers.size ∧ m.name (counterpart n m l) = n.name l ∧
      m.id (n.name l) = .ok (counterpart n m l) := by
  have hmem : n.name l ∈ controlNames ++ b.registers :=
    (h.reorders.registers.append_left controlNames).mem_iff.mp (List.mem_of_getElem? (h.first.getElem?_names hl))
  obtain ⟨i, hi, hget⟩ := List.getElem_of_mem hmem
  have hsize : i < m.layers.size := by
    rw [h.second.size_layers, ← List.length_append]
    exact hi
  have hposition : LayerId.position ⟨UInt16.ofNat i⟩ = i := by
    have hle := h.size_layers ▸ h.size_layers_le
    exact (UInt16.toNat_ofNat' ..).trans (Nat.mod_eq_of_lt (by omega))
  have hinside : LayerId.position ⟨UInt16.ofNat i⟩ < m.layers.size := by rw [hposition]; exact hsize
  have hname : m.name ⟨UInt16.ofNat i⟩ = n.name l := by
    refine h.second.name_eq ?_
    rw [hposition, List.getElem?_eq_getElem hi, hget]
  have hid : m.id (n.name l) = .ok ⟨UInt16.ofNat i⟩ := by rw [← hname, h.second.id_name hinside]
  have hcounterpart : counterpart n m l = ⟨UInt16.ofNat i⟩ := by
    unfold Network.id at hid
    unfold counterpart
    cases hfound : m.id? (n.name l) with
    | none => rw [hfound] at hid; cases hid
    | some l' => rw [hfound] at hid; cases hid; rfl
  rw [hcounterpart]
  exact ⟨hinside, hname, hid⟩

theorem counterpart_eq_iff (h : Reordered a b n m) {l l' : LayerId} (hl : l.position < n.layers.size)
    (hl' : l'.position < m.layers.size) : counterpart n m l = l' ↔ m.name l' = n.name l := by
  obtain ⟨hinside, hname, -⟩ := h.counterpart_spec hl
  constructor
  · rintro rfl
    exact hname
  · exact fun heq => h.second.eq_of_name hinside hl' (hname.trans heq.symm)

/-- A control layer has the same name in both networks. -/
theorem name_control (h : Reordered a b n m) {l : LayerId} (hl : l.position < controlNames.length) :
    m.name l = n.name l := by
  have hname := List.getElem?_eq_getElem hl
  rw [h.second.name_eq ((List.getElem?_append_left hl).trans hname),
    h.first.name_eq ((List.getElem?_append_left hl).trans hname)]

/-- No other layer becomes a control layer. -/
theorem counterpart_control_iff (h : Reordered a b n m) {l l' : LayerId} (hl : l.position < n.layers.size)
    (hl' : l'.position < controlNames.length) : counterpart n m l = l' ↔ l = l' := by
  have hfirst : l'.position < n.layers.size := by rw [h.first.size_layers]; omega
  rw [h.counterpart_eq_iff hl (h.size_layers ▸ hfirst), h.name_control hl']
  exact ⟨fun hname => (h.first.eq_of_name hfirst hl hname).symm, fun heq => by rw [heq]⟩

/-- Counterparts have the same size. -/
theorem size_counterpart (h : Reordered a b n m) {l : LayerId} (hl : l.position < n.layers.size) :
    m.size (counterpart n m l) = n.size l := by
  have hgo : counterpart n m l = go ↔ l = go := h.counterpart_control_iff hl (by decide)
  have hgh : counterpart n m l = gh ↔ l = gh := h.counterpart_control_iff hl (by decide)
  rw [h.second.size_eq (h.counterpart_spec hl).1, h.first.size_eq hl, h.gates_eq, h.reorders.rest]
  simp only [hgo, hgh]

theorem counterpart_injective (h : Reordered a b n m) {l l' : LayerId} (hl : l.position < n.layers.size)
    (hl' : l'.position < n.layers.size) (heq : counterpart n m l = counterpart n m l') : l = l' :=
  h.first.eq_of_name hl hl' (by rw [← (h.counterpart_spec hl).2.1, heq, (h.counterpart_spec hl').2.1])

theorem map_injective (h : Reordered a b n m) {p q : Pathway} (hp : n.Joins p) (hq : n.Joins q)
    (heq : p.map (counterpart n m) = q.map (counterpart n m)) : p = q := by
  obtain ⟨htarget, hsource⟩ := Pathway.mk.inj heq
  have h₁ := h.counterpart_injective hp.2 hq.2 htarget
  have h₂ := h.counterpart_injective hp.1 hq.1 hsource
  cases p
  cases q
  exact congrArg₂ Pathway.mk h₁ h₂

/-- The pathway of the same names. -/
theorem map_eq_iff (h : Reordered a b n m) {p q : Pathway} (hp : n.Joins p) (hq : m.Joins q) :
    p.map (counterpart n m) = q ↔ m.name q.target = n.name p.target ∧ m.name q.source = n.name p.source := by
  rw [← h.counterpart_eq_iff hp.2 hq.2, ← h.counterpart_eq_iff hp.1 hq.1]
  cases q
  exact ⟨fun heq => Pathway.mk.inj heq, fun heq => congrArg₂ Pathway.mk heq.1 heq.2⟩

end Reordered

end Network

/-! ## Reading by name -/

namespace Artifact

open Network

omit [Scalar α] in
/-- Entries that resolve one by one are inserted one by one. -/
theorem resolveAll_of_resolves [Scalar α] {n : Network α} {entries : List (NamedConnection α)} {l : List (Pathway × Connection α)}
    (h : List.Forall₂ (fun e x => resolve n e = .ok x.1 ∧ e.connection = x.2) entries l) (w : Weights α) :
    resolveAll n w entries = .ok (l.foldl (fun w x => w.insert x.1 x.2) w) := by
  induction h generalizing w with
  | nil => rfl
  | cons hx _ ih =>
    obtain ⟨hresolve, hconnection⟩ := hx
    rw [List.foldl_cons, ← ih, ← hconnection]
    simp only [resolveAll, hresolve]
    rfl

variable {a b : Config α} {n m : Network α} {w : Weights α}

/-- The connections of weights, under the pathways of the same names in the second network. -/
def renamed (n m : Network α) (w : Weights α) : List (Pathway × Connection α) :=
  w.toList.map fun x => (x.1.map (counterpart n m), x.2)

theorem nodup_renamed (h : Reordered a b n m) (hw : w.Placed n) : ((renamed n m w).map (·.1)).Nodup := by
  have hkeys : (renamed n m w).map (·.1) = (w.toList.map (·.1)).map (Pathway.map (counterpart n m)) := by
    rw [renamed, List.map_map, List.map_map]
    rfl
  rw [hkeys]
  refine List.Nodup.map_on (fun p hp q hq heq => ?_) (Pathway.nodup_keys_toList w)
  obtain ⟨⟨p, c⟩, hmem, rfl⟩ := List.mem_map.mp hp
  obtain ⟨⟨q, d⟩, hmem', rfl⟩ := List.mem_map.mp hq
  exact h.map_injective (hw p c (Std.TreeMap.mem_toList_iff_getElem?_eq_some.mp hmem)).1
    (hw q d (Std.TreeMap.mem_toList_iff_getElem?_eq_some.mp hmem')).1 heq

/-- Weights over the first network are read by the second one, and each connection goes to the
pathway of the same names. -/
theorem toWeights_reordered (h : Reordered a b n m) (hw : w.Placed n) :
    ∃ v, (ofWeights n w).toWeights m = .ok v ∧ v.Placed m ∧
      ∀ p q : Pathway, n.Joins p → m.Joins q → m.name q.target = n.name p.target → m.name q.source = n.name p.source →
        v[q]? = w[p]? := by
  have hplaced : ∀ x ∈ w.toList, n.Joins x.1 ∧ x.2.Spans (n.size x.1.target) (n.size x.1.source) :=
    fun x hx => hw x.1 x.2 (Std.TreeMap.mem_toList_iff_getElem?_eq_some.mp hx)
  have hresolves : List.Forall₂ (fun e x => resolve m e = .ok x.1 ∧ e.connection = x.2) (ofWeights n w).entries
      (renamed n m w) := by
    rw [ofWeights, renamed, List.forall₂_map_left_iff, List.forall₂_map_right_iff, List.forall₂_same]
    rintro ⟨p, c⟩ hmem
    obtain ⟨⟨hsource, htarget⟩, hspans⟩ := hplaced _ hmem
    have hfits : c.weights.height = m.size (counterpart n m p.target) ∧
        c.weights.width = m.size (counterpart n m p.source) ∧ c.bias.size = m.size (counterpart n m p.target) := by
      rw [h.size_counterpart htarget, h.size_counterpart hsource]
      exact ⟨hspans.rows, hspans.columns, hspans.bias⟩
    refine ⟨?_, rfl⟩
    simp only [resolve, (h.counterpart_spec htarget).2.2, (h.counterpart_spec hsource).2.2]
    exact if_pos hfits
  refine ⟨(renamed n m w).foldl (fun w x => w.insert x.1 x.2) {}, ?_, ?_, fun p q hp hq htarget hsource => ?_⟩
  · exact (if_pos rfl).trans (resolveAll_of_resolves hresolves {})
  · refine Pathway.forall_foldl_insert (fun x hx => ?_) (fun p c hc => by simp at hc)
    obtain ⟨⟨p, c⟩, hmem, rfl⟩ := List.mem_map.mp hx
    obtain ⟨⟨hsource, htarget⟩, hspans⟩ := hplaced _ hmem
    refine ⟨⟨(h.counterpart_spec hsource).1, (h.counterpart_spec htarget).1⟩, ?_⟩
    simp only [Pathway.map, h.size_counterpart htarget, h.size_counterpart hsource]
    exact hspans
  · have hmap := (h.map_eq_iff hp hq).mpr ⟨htarget, hsource⟩
    cases hc : w[p]? with
    | some c =>
      refine Pathway.getElem?_foldl_insert_of_mem (nodup_renamed h hw) _ (List.mem_map.mpr ⟨(p, c), ?_, by rw [hmap]⟩)
      exact Std.TreeMap.mem_toList_iff_getElem?_eq_some.mpr hc
    | none =>
      rw [Pathway.getElem?_foldl_insert_of_not_mem]
      · rfl
      · intro hmem
        obtain ⟨x, hx, hxq⟩ := List.mem_map.mp hmem
        obtain ⟨⟨p', c⟩, hmem', rfl⟩ := List.mem_map.mp hx
        obtain rfl := h.map_injective (hplaced _ hmem').1 hp (hxq.trans hmap.symm)
        rw [Std.TreeMap.mem_toList_iff_getElem?_eq_some.mp hmem'] at hc
        cases hc

end Artifact

/-! ## Rows into the gate layer -/

namespace Network

/-- A unit of the gate layer is in the second network the gate between the layers of the same names. -/
def DrivesAlike (n m : Network α) (u : Nat) : Prop :=
  ∀ g, n.gates.gate? u = some g → ∃ g', m.gates.gate? u = some g' ∧ g'.mode = g.mode ∧
    m.name g'.target = n.name g.target ∧ m.name g'.source = n.name g.source

namespace Reordered

variable {a b : Config α} {n m : Network α}

/-- The layer of a number has the same name in both networks if it is not a register that has moved. -/
theorem name_eq_iff (h : Reordered a b n m) (l : LayerId) : m.name l = n.name l ↔
    ∀ i < a.registers.length, LayerId.register i = l → b.registers[i]? = a.registers[i]? := by
  have hroom := h.room
  have hposition : ∀ i < a.registers.length, LayerId.register i = l → l.position = controlNames.length + i := by
    rintro i hi rfl
    exact BuiltFrom.position_register (by omega)
  by_cases hl : l.position < n.layers.size
  swap
  · rw [h.first.size_layers] at hl
    refine ⟨fun _ i hi heq => absurd (hposition i hi heq) (by omega), fun _ => ?_⟩
    unfold Network.name Network.layer
    rw [Array.getD_eq_getD_getElem?, Array.getD_eq_getD_getElem?, Array.getElem?_eq_none, Array.getElem?_eq_none]
    · rw [h.first.size_layers]; omega
    · rw [h.size_layers, h.first.size_layers]; omega
  by_cases hcontrol : l.position < controlNames.length
  · exact ⟨fun _ i hi heq => absurd (hposition i hi heq) (by omega), fun _ => h.name_control hcontrol⟩
  have hfirst := h.first.getElem?_names hl
  have hsecond := h.second.getElem?_names (h.size_layers ▸ hl)
  rw [List.getElem?_append_right (by omega)] at hfirst hsecond
  rw [h.first.size_layers] at hl
  constructor
  · intro hname i hi heq
    have hi' : l.position - controlNames.length = i := by rw [hposition i hi heq]; omega
    rw [hi'] at hfirst hsecond
    rw [hfirst, hsecond, hname]
  · intro hall
    have hregister : LayerId.register (l.position - controlNames.length) = l := by
      refine LayerId.position_injective ?_
      rw [BuiltFrom.position_register (by omega)]
      omega
    have heq := hall _ (by omega) hregister
    rw [hfirst, hsecond] at heq
    exact Option.some.inj heq

/-- A unit drives the gate of the same names if no register at its ends has moved. -/
theorem drivesAlike_iff (h : Reordered a b n m) {u : Nat} {g : Gate} (hg : n.gates.gate? u = some g) :
    n.DrivesAlike m u ↔ ∀ i < a.registers.length, LayerId.register i = g.target ∨ LayerId.register i = g.source →
      b.registers[i]? = a.registers[i]? := by
  have hg' : m.gates.gate? u = some g := by rw [h.gates_eq, hg]
  constructor
  · intro halike i hi hend
    obtain ⟨g', hunit, -, htarget, hsource⟩ := halike g hg
    obtain rfl := Option.some.inj (hg'.symm.trans hunit)
    rcases hend with hend | hend
    · exact (h.name_eq_iff g.target).mp htarget i hi hend
    · exact (h.name_eq_iff g.source).mp hsource i hi hend
  · intro hall g₁ hg₁
    obtain rfl := Option.some.inj (hg.symm.trans hg₁)
    refine ⟨g, hg', rfl, (h.name_eq_iff g.target).mpr ?_, (h.name_eq_iff g.source).mpr ?_⟩
    · exact fun i hi hend => hall i hi (.inl hend)
    · exact fun i hi hend => hall i hi (.inr hend)

/-- Every register has a gate. -/
theorem exists_unit (h : Reordered a b n m) {i : Nat} (hi : i < a.registers.length) :
    ∃ u, n.gates.gate? u = some (.copy (LayerId.register i) op2) := by
  have hregister : LayerId.register i ∈ n.registers := by
    rw [h.first.registers_eq h.room]
    exact List.mem_map_of_mem (List.mem_range.mpr hi)
  have hflow : (⟨LayerId.register i, op2⟩ : Pathway) ∈ flowPathways n.registers := by
    unfold flowPathways
    simp only [List.mem_append, List.mem_flatMap]
    exact .inl (.inl (.inl (.inl (.inr ⟨_, hregister, List.mem_cons_self⟩))))
  refine List.mem_iff_getElem?.mp ?_
  rw [h.first.gates, gateList, List.append_assoc]
  exact List.mem_append_left _ (List.mem_map_of_mem (f := fun p => Gate.copy p.target p.source) hflow)

/-- All units drive the gates of the same names only if no register has moved. -/
theorem all_drivesAlike_iff (h : Reordered a b n m) : (∀ u, n.DrivesAlike m u) ↔ b.registers = a.registers := by
  constructor
  · intro hall
    refine List.ext_getElem? fun i => ?_
    by_cases hi : i < a.registers.length
    · obtain ⟨u, hu⟩ := h.exists_unit hi
      exact (h.drivesAlike_iff hu).mp (hall u) i hi (.inl rfl)
    · rw [List.getElem?_eq_none (Nat.not_lt.mp hi), List.getElem?_eq_none]
      rw [← h.reorders.registers.length_eq]
      exact Nat.not_lt.mp hi
  · intro heq u g hg
    exact (h.drivesAlike_iff hg).mpr (fun i _ _ => by rw [heq]) g hg

end Reordered

end Network

open Network

/-- Weights over a network are read by one whose configuration lists the registers in another order,
and every pathway gets the connection of the pathway of the same names. Of a connection into the gate
layer, a row drives the gate of the same mode at the same places, and it is the gate between the layers
of the same names only if no register among them has moved; all rows are for the gates that they drive
only if no register has. -/
theorem weights_reordered {a b : Config α} {n m : Network α} (hn : (Network.build a).value = .ok n)
    (hm : (Network.build b).value = .ok m) (hreorders : a.Reorders b)
    (hroom : controlNames.length + a.registers.length ≤ 65536) {w : Weights α} (hw : w.Placed n) :
    (∃ v, (Artifact.ofWeights n w).toWeights m = .ok v ∧ v.Placed m ∧
      ∀ q : Pathway, m.Joins q → ∃ p : Pathway, n.Joins p ∧ n.name p.target = m.name q.target ∧
        n.name p.source = m.name q.source ∧ v[q]? = w[p]?) ∧
    (∀ u g, n.gates.gate? u = some g → m.gates.gate? u = some g ∧ (n.DrivesAlike m u ↔
      ∀ i < a.registers.length, LayerId.register i = g.target ∨ LayerId.register i = g.source →
        b.registers[i]? = a.registers[i]?)) ∧
    ((∀ u, n.DrivesAlike m u) ↔ b.registers = a.registers) := by
  have h : Reordered a b n m := ⟨hreorders, builtFrom_of_build hn, builtFrom_of_build hm, hroom⟩
  obtain ⟨v, hread, hplaced, hsame⟩ := Artifact.toWeights_reordered h hw
  refine ⟨⟨v, hread, hplaced, fun q hq => ?_⟩, fun u g hg => ⟨by rw [h.gates_eq, hg], h.drivesAlike_iff hg⟩,
    h.all_drivesAlike_iff⟩
  obtain ⟨hsource, hsourceName, -⟩ := h.symm.counterpart_spec hq.1
  obtain ⟨htarget, htargetName, -⟩ := h.symm.counterpart_spec hq.2
  have hp : n.Joins (q.map (counterpart m n)) := ⟨hsource, htarget⟩
  exact ⟨_, hp, htargetName, hsourceName, hsame _ q hp hq htargetName.symm hsourceName.symm⟩

/-! ## Two registers -/

/-- The small configuration with two registers, in one order and in the other. -/
def pairConfig : Config Fixed := { smallConfig with registers := ["r0", "r1"] }

def swappedConfig : Config Fixed := { smallConfig with registers := ["r1", "r0"] }

theorem pairConfig_reorders : pairConfig.Reorders swappedConfig := ⟨List.Perm.swap _ _ _, rfl⟩

theorem exists_pair_networks : ∃ n m, (Network.build pairConfig).value = .ok n ∧ (Network.build swappedConfig).value = .ok m := by
  have hbuilds : ∀ c : Config Fixed, (Network.build c).value.toBool = true → ∃ n, (Network.build c).value = .ok n := by
    intro c hc
    cases hbuild : (Network.build c).value with
    | ok n => exact ⟨n, rfl⟩
    | error e => rw [hbuild] at hc; cases hc
  obtain ⟨n, hn⟩ := hbuilds pairConfig (by decide +kernel)
  obtain ⟨m, hm⟩ := hbuilds swappedConfig (by decide +kernel)
  exact ⟨n, m, hn, hm⟩

/-- Weights of one pathway, from the hidden layer of the control automaton to the gate layer. -/
def gateWeights (n : Network Fixed) : Weights Fixed :=
  ({} : Weights Fixed).insert ⟨go, gh⟩ (.zero (n.size go) (n.size gh))

theorem joins_go_gh {c : Config α} {n : Network α} (h : n.BuiltFrom c) : n.Joins ⟨go, gh⟩ := by
  have hcount : ∀ l : LayerId, l.position < controlNames.length → l.position < n.layers.size := by
    intro l hl
    rw [h.size_layers]
    omega
  exact ⟨hcount gh (by decide), hcount go (by decide)⟩

theorem placed_gateWeights {c : Config Fixed} {n : Network Fixed} (h : n.BuiltFrom c) : (gateWeights n).Placed n :=
  Weights.Placed.insert (fun p c hc => by simp at hc) (joins_go_gh h) (Connection.spans_zero _ _)

theorem getElem?_gateWeights (n : Network Fixed) :
    (gateWeights n)[(⟨go, gh⟩ : Pathway)]? = some (.zero (n.size go) (n.size gh)) := Std.TreeMap.getElem?_insert_self

/-- Weights are read over swapped registers, and then some row is for another gate. -/
theorem swapped_weights : ∃ n m : Network Fixed, (Network.build pairConfig).value = .ok n ∧
    (Network.build swappedConfig).value = .ok m ∧
    (∃ v, (Artifact.ofWeights n (gateWeights n)).toWeights m = .ok v ∧ v.Placed m) ∧ ∃ u, ¬ n.DrivesAlike m u := by
  obtain ⟨n, m, hn, hm⟩ := exists_pair_networks
  obtain ⟨⟨v, hread, hplaced, -⟩, -, hall⟩ :=
    weights_reordered hn hm pairConfig_reorders (by decide) (placed_gateWeights (builtFrom_of_build hn))
  refine ⟨n, m, hn, hm, ⟨v, hread, hplaced⟩, not_forall.mp fun halike => ?_⟩
  exact absurd (hall.mp halike) (by decide)

/-- With the registers swapped, the row that loads the second operand into the first register is
carried over unchanged and loads it into the second one. -/
theorem swapped_row_drives_other : ∃ n m : Network Fixed, (Network.build pairConfig).value = .ok n ∧
    (Network.build swappedConfig).value = .ok m ∧ pairConfig.Reorders swappedConfig ∧
    ∃ (w v : Weights Fixed) (c : Connection Fixed), w.Placed n ∧ w[(⟨go, gh⟩ : Pathway)]? = some c ∧
      (Artifact.ofWeights n w).toWeights m = .ok v ∧ v[(⟨go, gh⟩ : Pathway)]? = some c ∧
      ∃ u < c.weights.height, ∃ g, n.gates.gate? u = some g ∧ m.gates.gate? u = some g ∧ n.name g.target = "r0" ∧
        m.name g.target = "r1" := by
  obtain ⟨n, m, hn, hm⟩ := exists_pair_networks
  have h : Reordered pairConfig swappedConfig n m :=
    ⟨pairConfig_reorders, builtFrom_of_build hn, builtFrom_of_build hm, by decide⟩
  have hw := placed_gateWeights h.first
  obtain ⟨v, hread, -, hsame⟩ := Artifact.toWeights_reordered h hw
  obtain ⟨u, hu⟩ := h.exists_unit (i := 0) (by decide)
  have hunit : u < n.size go := by
    rw [h.first.size_go]
    exact (List.getElem?_eq_some_iff.mp hu).1
  refine ⟨n, m, hn, hm, pairConfig_reorders, _, v, _, hw, getElem?_gateWeights n, hread, ?_, u, hunit, _, hu,
    by rw [h.gates_eq, hu], ?_, ?_⟩
  · rw [← getElem?_gateWeights n]
    exact hsame _ _ (joins_go_gh h.first) (joins_go_gh h.second) (h.name_control (by decide)) (h.name_control (by decide))
  · exact h.first.name_register (by decide) (by decide)
  · exact h.second.name_register (by decide) (by decide)

end Engram
