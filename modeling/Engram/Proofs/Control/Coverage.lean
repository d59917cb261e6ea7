/-
  Engram.Proofs.Control.Coverage — the gate map has what the instruction set asks for.

  A network has one gate for each flow, one for each plastic pathway and one for each layer, and the
  gate layer has one unit for each gate (`Network.MapsGates`). Recording the instruction set looks up
  the default gates, those from the condition layers, and those that fetching and the routines open, on
  any of the registers (`askedGates`). All of them are there, so that recording finds every gate
  that it looks up (`provided_instructions`), whatever the code books hold.
-/

import Engram.Proofs.Control.Legal
import Engram.Proofs.Scalar.Fixed

namespace Engram

open LayerId

/-! ## The gates that are asked for -/

/-- The gates that the plan opens, on any of the registers. -/
def Plan.gates (registers : List LayerId) : Plan → List Gate
  | .home => []
  | .act gates rest => gates ++ rest.gates registers
  | .settle _ rest => rest.gates registers
  | .each _ branch => registers.flatMap fun r => (branch r).gates registers
  | .gather _ branch meet rest => registers.flatMap branch ++ (meet ++ rest.gates registers)
  | .choose _ _ _ gates rest => gates ++ rest.gates registers

/-- The gates that the routine opens. -/
def Routine.gates (registers : List LayerId) : Routine → List Gate
  | .skip => []
  | .halt => []
  | .run gates plan => gates ++ plan.gates registers

/-- The gates that recording the instruction set looks up. -/
def askedGates (registers : List LayerId) : List Gate :=
  defaultGates ++ conditions.map (Gate.copy gh) ++ Microcode.fetch ++ Microcode.read opc ++
    Opcode.all.flatMap (·.routine.gates registers)

section

variable {units : List Gate} {registers : List LayerId} {count : Nat}

theorem Plan.Legal.gates_subset {first : Bool} {read : Option LayerId} {plan : Plan}
    (h : plan.Legal units registers first read) : plan.gates registers ⊆ units := by
  induction plan generalizing first read with
  | home => exact List.nil_subset units
  | act gates rest ih =>
    obtain ⟨-, next, hgates, hrest⟩ := h
    exact List.append_subset.mpr ⟨hgates.known, ih hrest⟩
  | settle ticks rest ih => exact ih h.2
  | each layer branch ih =>
    obtain ⟨-, -, hbranch⟩ := h
    intro g hg
    obtain ⟨r, hr, hg⟩ := List.mem_flatMap.mp hg
    exact ih r (hbranch r hr).1 hg
  | gather layer branch meet rest ih =>
    obtain ⟨-, -, hbranch, hmeet, hrest⟩ := h
    refine List.append_subset.mpr ⟨?_, List.append_subset.mpr ⟨hmeet.known, ih hrest⟩⟩
    intro g hg
    obtain ⟨r, hr, hg⟩ := List.mem_flatMap.mp hg
    exact (hbranch r hr).known hg
  | choose layer idle taken gates rest ih =>
    obtain ⟨-, -, -, -, next, hgates, hrest⟩ := h
    exact List.append_subset.mpr ⟨hgates.known, ih hrest⟩

theorem Routine.Legal.gates_subset {routine : Routine} (h : routine.Legal units registers) :
    routine.gates registers ⊆ units := by
  cases routine with
  | skip => exact List.nil_subset units
  | halt => exact List.nil_subset units
  | run gates plan =>
    obtain ⟨read, hgates, hplan⟩ := h
    exact List.append_subset.mpr ⟨hgates.known, hplan.gates_subset⟩

/-- Every gate that is asked for is one that there is. -/
theorem askedGates_subset (h : Counted registers count) : askedGates registers ⊆ Network.gateList registers count := by
  have hconditions : conditions.map (Gate.copy gh) ⊆ Network.gateList registers count := by
    intro g hg
    obtain ⟨l, hl, rfl⟩ := List.mem_map.mp hg
    exact (allowed_read l hl).known List.mem_cons_self
  have hroutines : Opcode.all.flatMap (·.routine.gates registers) ⊆ Network.gateList registers count := by
    intro g hg
    obtain ⟨op, -, hg⟩ := List.mem_flatMap.mp hg
    exact (Opcode.legal_routine h op).gates_subset hg
  unfold askedGates
  simp only [List.append_subset]
  exact ⟨⟨⟨⟨mem_default h, hconditions⟩, (allowed_fetch h).known⟩, (allowed_read opc (by decide)).known⟩, hroutines⟩

end

/-! ## Operations that find their gates -/

namespace Sequencer

variable {α β γ : Type} [Scalar α]

/-- On a sequencer over the network, the operation finds every gate that it looks up, and what it
leaves is over the network. -/
def Provided (n : Network α) (x : Sequencing α β) : Prop :=
  ∀ s, n.Keeps (fun l _ => l ≠ gh) s.network →
    n.Keeps (fun l _ => l ≠ gh) (x.run.run s).2.network ∧ ∀ name, (x.run.run s).1 ≠ .error (.unknownGate name)

namespace Provided

variable {n : Network α}

theorem pure (b : β) : Provided n (pure b) := by
  intro s hs
  exact ⟨hs, fun name h => nomatch h⟩

theorem throw {e : Fault α} (he : ∀ name, e ≠ .unknownGate name) : Provided n (throw e : Sequencing α β) := by
  intro s hs
  exact ⟨hs, fun name h => he name (Except.error.inj h)⟩

theorem bind {x : Sequencing α β} {f : β → Sequencing α γ} (hx : Provided n x) (hf : ∀ b, Provided n (f b)) :
    Provided n (x >>= f) := by
  intro s hs
  obtain ⟨h₁, h₂⟩ := hx s hs
  have hbind : (x >>= f).run.run s = (ExceptT.bindCont f (x.run.run s).1).run (x.run.run s).2 := rfl
  rw [hbind]
  rcases hrun : x.run.run s with ⟨e | b, t⟩
  · rw [hrun] at h₁ h₂
    exact ⟨h₁, fun name h => h₂ name (congrArg Except.error (Except.error.inj h))⟩
  · rw [hrun] at h₁
    exact hf b t h₁

theorem get_bind {f : Sequencer α → Sequencing α β}
    (hf : ∀ s, n.Keeps (fun l _ => l ≠ gh) s.network → Provided n (f s)) : Provided n (get >>= f) := by
  intro s hs
  exact hf s hs s hs

theorem lift_bind {r : Except (Fault α) β} {f : β → Sequencing α γ} (hr : ∀ name, r ≠ .error (.unknownGate name))
    (hf : ∀ b, Provided n (f b)) : Provided n (liftM r >>= f) := by
  cases r with
  | error e => exact .throw fun name he => hr name (congrArg _ he)
  | ok b => exact hf b

/-- An operation that cannot fail at all. -/
theorem of_sure {x : Sequencing α β} {Q : β → Prop} (h : Sure x)
    (hx : Secures (fun s => n.Keeps (fun l _ => l ≠ gh) s.network) x Q) : Provided n x := by
  intro s hs
  refine ⟨(hx s hs).1, fun name herror => ?_⟩
  obtain ⟨b, t, hdoes⟩ := h s
  unfold Does at hdoes
  rw [hdoes] at herror
  cases herror

theorem forM {l : List γ} {f : γ → Sequencing α Unit} (h : ∀ x ∈ l, Provided n (f x)) : Provided n (l.forM f) := by
  induction l with
  | nil => exact .pure ()
  | cons x rest ih =>
    have hrest : Provided n (rest.forM f) := ih fun y hy => h y (List.mem_cons_of_mem _ hy)
    exact (h x List.mem_cons_self).bind fun _ => hrest

theorem foldlM {l : List γ} {f : β → γ → Sequencing α β} (h : ∀ b, ∀ x ∈ l, Provided n (f b x)) (b : β) :
    Provided n (l.foldlM f b) := by
  induction l generalizing b with
  | nil => exact .pure b
  | cons x rest ih =>
    rw [List.foldlM_cons]
    exact (h b x List.mem_cons_self).bind fun c => ih (fun c y hy => h c y (List.mem_cons_of_mem _ hy)) c

end Provided

section

variable {n : Network α}

/-- To be over the network does not depend on what is recorded. -/
theorem stable_over : Stable fun s : Sequencer α => n.Keeps (fun l _ => l ≠ gh) s.network :=
  ⟨fun h hkeeps => h.trans hkeeps, fun h _ _ _ _ _ => h⟩

theorem provided_record (old : ControlState α) (condition : Option Condition) (target : ControlState α) :
    Provided n (record old condition target) := by
  refine .of_sure (sure_record old condition target) (Q := fun _ => True) ?_
  exact (stable_over.jointInput old condition).bind fun _ _ => (Secures.modify fun _ hs => hs).bind fun _ _ => .pure trivial

theorem provided_claim (old : ControlState α) (layer : LayerId) (keying : Keying) : Provided n (claim old layer keying) := by
  refine .get_bind fun s hs => ?_
  cases s.keying.lookup layer with
  | none => exact .of_sure (sure_set _) (Secures.set hs)
  | some earlier =>
    dsimp only
    split
    · exact .throw fun name h => nomatch h
    · exact .pure _

theorem provided_nameState (state : ControlState α) (name : String) : Provided n (nameState state name) :=
  .of_sure (sure_nameState state name) (stable_over.nameState state name)

theorem provided_freshHidden : Provided n (freshHidden (α := α)) := .of_sure sure_freshHidden stable_over.freshHidden

variable (hdefault : defaultGates ⊆ n.gates.gates) (hconditions : conditions.map (Gate.copy gh) ⊆ n.gates.gates)

section

variable {s : Sequencer α} (hs : n.Keeps (fun l _ => l ≠ gh) s.network)
include hs

include hconditions in
theorem checkCondition_provided (old : ControlState α) (condition : Option Condition) (name : String) :
    s.checkCondition old condition ≠ .error (.unknownGate name) := by
  have hlayer : ∀ l ∈ conditions, s.checkLayer old condition l ≠ .error (.unknownGate name) := by
    intro l hl h
    obtain ⟨u, hu⟩ := GateMap.unit?_of_mem (hconditions (List.mem_map_of_mem hl))
    have hunit : s.network.unit (.copy gh l) = .ok u := Network.unit_ok_iff.mpr (hs.gates ▸ hu)
    unfold checkLayer at h
    rw [hunit] at h
    simp only [bind, Except.bind] at h
    split at h
    · cases h
    · split at h <;> cases h
  have hlayers : conditions.forM (s.checkLayer old condition) ≠ .error (.unknownGate name) := by
    intro h
    obtain ⟨l, hl, hfails⟩ := of_forM_error h
    exact hlayer l hl hfails
  intro h
  unfold checkCondition at h
  cases condition with
  | none => exact hlayers h
  | some c =>
    dsimp only at h
    split at h
    · exact hlayers h
    · cases h

include hdefault in
theorem makeGates_provided {gates : List Gate} (hgates : gates ⊆ n.gates.gates) (name : String) :
    makeGates s.network gates ≠ .error (.unknownGate name) := by
  rw [← hs.gates] at hdefault hgates
  obtain ⟨p, hp⟩ := makeGates_of_subset hdefault hgates
  rw [hp]
  exact fun h => nomatch h

end

include hdefault

theorem provided_complete {gates : List Gate} (hgates : gates ⊆ n.gates.gates) (old : ControlState α)
    (condition : Option Condition) (target : Option (ControlState α)) : Provided n (complete gates old condition target) := by
  refine .get_bind fun s hs => ?_
  rcases s.find? (s.key old condition) with _ | earlier
  · cases target with
    | some target => exact provided_record old condition target
    | none =>
      exact .lift_bind (makeGates_provided hdefault hs hgates) fun p =>
        provided_freshHidden.bind fun hidden => provided_record old condition ⟨p, hidden⟩
  · cases target with
    | some target =>
      dsimp only
      split
      · exact .pure _
      · exact .throw fun name h => nomatch h
    | none => exact .throw fun name h => nomatch h

theorem provided_initial (name : String) : Provided n (initial name) :=
  .get_bind fun _ hs => .lift_bind (makeGates_provided hdefault hs (List.nil_subset _)) fun _ =>
    provided_freshHidden.bind fun _ => (provided_nameState _ name).bind fun _ => .pure _

include hconditions

theorem provided_transit {gates : List Gate} (hgates : gates ⊆ n.gates.gates) (old : ControlState α)
    (condition : Option Condition) (target : Option (ControlState α)) : Provided n (transit gates old condition target) := by
  refine .get_bind fun s hs => .lift_bind (checkCondition_provided hconditions hs old condition) fun _ => ?_
  have hcomplete := provided_complete hdefault hgates old condition target
  cases condition with
  | none => exact hcomplete
  | some c => exact .get_bind fun t _ => (provided_claim old c.layer _).bind fun _ => hcomplete

theorem provided_dispatch (old : ControlState α) (layer : LayerId) (token : String) :
    Provided n (dispatch old layer token) := by
  refine .get_bind fun s hs => .lift_bind (checkCondition_provided hconditions hs old _) fun _ =>
    (provided_claim old layer .dispatch).bind fun _ => .get_bind fun t ht => ?_
  rcases t.find? (t.key old (some ⟨layer, token⟩)) with _ | earlier
  · refine .bind (.of_sure (sure_offset layer) (stable_over.offset layer)) fun offset =>
      .bind (.of_sure (sure_code _) (stable_over.code _)) fun code => .get_bind fun u hu =>
        .lift_bind (makeGates_provided hdefault hu (List.nil_subset _)) fun p =>
          .bind (.of_sure sure_freshName stable_over.freshName) fun name => ?_
    exact (provided_nameState _ name).bind fun _ => provided_record old _ _
  · exact .pure _

theorem provided_settle (old : ControlState α) (ticks : Nat) : Provided n (settle old ticks) := by
  induction ticks generalizing old with
  | zero => exact .pure old
  | succ ticks ih =>
    exact (provided_transit hdefault hconditions (List.nil_subset _) old none none).bind fun next => ih next

/-- A plan whose gates are there. -/
theorem provided_plan {registers : List (LayerId × String)} (start : ControlState α) {plan : Plan}
    (h : plan.gates (registers.map (·.1)) ⊆ n.gates.gates) (state : ControlState α) :
    Provided n (plan.record registers start state) := by
  have htransit : ∀ {gates : List Gate}, gates ⊆ n.gates.gates → ∀ old condition target,
      Provided n (transit gates old condition target) := fun hgates old condition target =>
    provided_transit hdefault hconditions hgates old condition target
  induction plan generalizing state with
  | home => exact (htransit (List.nil_subset _) state none (some start)).bind fun _ => .pure ()
  | act gates rest ih =>
    obtain ⟨hgates, hrest⟩ := List.append_subset.mp h
    exact (htransit hgates state none none).bind fun next => ih hrest next
  | settle ticks rest ih => exact (provided_settle hdefault hconditions state ticks).bind fun next => ih h next
  | each layer branch ih =>
    refine .forM fun r hr => (provided_dispatch hdefault hconditions state layer r.2).bind fun chosen => ?_
    exact ih r.1 (fun g hg => h (List.mem_flatMap.mpr ⟨r.1, List.mem_map_of_mem hr, hg⟩)) chosen
  | gather layer branch meet rest ih =>
    obtain ⟨hbranch, hafter⟩ := List.append_subset.mp h
    obtain ⟨hmeet, hrest⟩ := List.append_subset.mp hafter
    refine .bind (.foldlM (fun meeting r hr => ?_) none) fun meeting => ?_
    · have hgates : branch r.1 ⊆ n.gates.gates := fun g hg =>
        hbranch (List.mem_flatMap.mpr ⟨r.1, List.mem_map_of_mem hr, hg⟩)
      exact (provided_dispatch hdefault hconditions state layer r.2).bind fun chosen =>
        (htransit hgates chosen none none).bind fun acting => (htransit hmeet acting none meeting).bind fun _ => .pure _
    · cases meeting with
      | none => exact .throw fun name h => nomatch h
      | some meeting => exact ih hrest meeting
  | choose layer idle taken gates rest ih =>
    obtain ⟨hgates, hrest⟩ := List.append_subset.mp h
    exact (htransit (List.nil_subset _) state _ (some start)).bind fun _ =>
      (htransit hgates state _ none).bind fun next => ih hrest next

theorem provided_opcode {registers : List (LayerId × String)} (start ready : ControlState α) {op : Opcode}
    (h : op.routine.gates (registers.map (·.1)) ⊆ n.gates.gates) : Provided n (op.record registers start ready) := by
  have htransit : ∀ {gates : List Gate}, gates ⊆ n.gates.gates → ∀ old condition target,
      Provided n (transit gates old condition target) := fun hgates old condition target =>
    provided_transit hdefault hconditions hgates old condition target
  refine .bind (.of_sure (sure_setContext _) (stable_over.setContext _)) fun _ => ?_
  generalize op.routine = routine at h
  cases routine with
  | skip => exact (htransit (List.nil_subset _) ready _ (some start)).bind fun _ => .pure ()
  | halt =>
    exact (htransit (List.nil_subset _) ready _ none).bind fun halted => (provided_nameState halted _).bind fun _ =>
      (htransit (List.nil_subset _) halted none (some halted)).bind fun _ => .pure ()
  | run gates plan =>
    obtain ⟨hgates, hplan⟩ := List.append_subset.mp h
    exact (htransit hgates ready _ none).bind fun entered => (provided_nameState entered _).bind fun _ =>
      provided_plan hdefault hconditions start hplan entered

end

/-- With the gates that are asked for, recording finds every gate that it looks up. -/
theorem provided_instructions {n : Network α} {registers : List (LayerId × String)}
    (h : askedGates (registers.map (·.1)) ⊆ n.gates.gates) : Provided n (recordInstructions registers) := by
  unfold askedGates at h
  simp only [List.append_subset] at h
  obtain ⟨⟨⟨⟨hdefault, hconditions⟩, hfetch⟩, hread⟩, hroutines⟩ := h
  refine .bind (.of_sure (sure_setContext _) (stable_over.setContext _)) fun _ =>
    (provided_initial hdefault "start").bind fun start =>
      (provided_transit hdefault hconditions hfetch start none none).bind fun load =>
        (provided_nameState load "load").bind fun _ => (provided_transit hdefault hconditions hread load none none).bind fun ready =>
          (provided_nameState ready "ready").bind fun _ => .bind (.forM fun op hop => ?_) fun _ => .pure start
  exact provided_opcode hdefault hconditions start ready fun g hg => hroutines (List.mem_flatMap.mpr ⟨op, hop, hg⟩)

end Sequencer

/-! ## The gate map of a network -/

theorem GateMap.unit?_of_gate? {m : GateMap} {g : Gate} {u : Nat} (h : m.gate? u = some g) : m.unit? g = some u := by
  obtain ⟨hu, hget⟩ := List.getElem?_eq_some_iff.mp h
  obtain ⟨v, hv⟩ := unit?_of_mem (List.mem_of_getElem? h)
  obtain ⟨hlt, hget'⟩ := List.getElem?_eq_some_iff.mp (gate?_of_unit? hv)
  have heq : u = v := m.nodup.getElem_inj_iff.mp (hget.trans hget'.symm)
  rw [heq, hv]

theorem plasticPathways_subset (registers : List LayerId) : plasticPathways registers ⊆ flowPathways registers := by
  have hfixed : plasticPathways [] ⊆ flowPathways [] := by decide
  intro p hp
  rcases List.mem_append.mp ((plasticPathways_perm registers).mem_iff.mp hp) with hp | hp
  · exact mem_flowPathways_fixed (hfixed hp)
  · obtain ⟨r, hr, hp⟩ := List.mem_flatMap.mp hp
    exact mem_flowPathways_register hr (List.mem_of_mem_drop (i := 3) hp)

namespace Network

variable {α : Type} [Scalar α] {c : Config α} {n : Network α}

/-- The gate map is a bijection between the units of the gate layer and the gates, and there is one
gate for each flow, each plastic pathway and each layer, among them all that the instruction set asks
for. -/
structure MapsGates (n : Network α) : Prop where
  listed : ∀ g, g ∈ n.gates.gates ↔
    match g.mode with
    | .copy => ⟨g.target, g.source⟩ ∈ n.flows
    | .learn => ⟨g.target, g.source⟩ ∈ n.plastic
    | .decay => g.source = g.target ∧ g.target ∈ n.layerIds
  flows : n.flows.Nodup
  plastic : n.plastic.Nodup
  layers : n.layerIds.Nodup
  count : n.gates.size = n.flows.length + n.plastic.length + n.layerIds.length
  inverse : ∀ g u, n.unit g = .ok u ↔ n.gates.gate? u = some g
  units : ∀ u, u < n.gates.size ↔ ∃ g, n.gates.gate? u = some g
  size : n.size go = n.gates.size
  carried : n.plastic ⊆ n.flows
  asked : ∀ g ∈ askedGates n.registers, ∃ u, n.unit g = .ok u

theorem BuiltFrom.mapsGates (h : n.BuiltFrom c) (hroom : c.registers.length ≤ 65522) : n.MapsGates := by
  have hnames : controlNames.length = 13 := rfl
  have hlayers := h.size_layers
  have hlength : (controlNames ++ c.registers).length = n.layers.size := by rw [hlayers, List.length_append]
  have hcount : n.layers.size % 65536 = n.layers.size := Nat.mod_eq_of_lt (by omega)
  obtain ⟨hregisters, hbeyond⟩ := h.registers_beyond
  refine ⟨fun g => ?_, nodup_flowPathways hregisters hbeyond, nodup_plasticPathways hregisters hbeyond, ?_, ?_,
    fun g u => unit_ok_iff.trans ⟨GateMap.gate?_of_unit?, GateMap.unit?_of_gate?⟩, fun u => ?_, h.size_go,
    plasticPathways_subset n.registers, fun g hg => ?_⟩
  · rw [h.gates, mem_gateList_iff, hlength, hcount, ← mem_layerIds (by omega)]
    rfl
  · refine List.nodup_range.map_on fun i hi j hj heq => ?_
    rw [List.mem_range] at hi hj
    exact ofNat_injective (by omega) (by omega) (congrArg LayerId.index heq)
  · have htoNat : (UInt16.ofNat n.layers.size).toNat = n.layers.size := UInt16.toNat_ofNat'.trans hcount
    unfold GateMap.size layerIds
    rw [h.gates, gateList, hlength, htoNat]
    simp only [List.length_append, List.length_map]
    rfl
  · unfold GateMap.size GateMap.gate?
    constructor
    · intro hu
      exact ⟨_, List.getElem?_eq_getElem hu⟩
    · intro h
      obtain ⟨g, hg⟩ := h
      exact (List.getElem?_eq_some_iff.mp hg).1
  · obtain ⟨u, hu⟩ := h.unit?_of_mem (askedGates_subset (h.counted hroom) hg)
    exact ⟨u, unit_ok_iff.mpr hu⟩

/-- Compiling the instruction set finds the gates that it asks for if they are there. -/
theorem compile_ne_unknownGate (h : askedGates n.registers ⊆ n.gates.gates) (verbose : Bool) (name : String) :
    (n.compile verbose).value.1 ≠ .error (.unknownGate name) := by
  have hregisters : (n.registers.map fun r => (r, n.name r)).map (·.1) = n.registers := by
    rw [List.map_map]
    exact List.map_id' _
  rw [← hregisters] at h
  obtain ⟨-, hfinds⟩ := Sequencer.provided_instructions h (Sequencer.new n) (.refl n)
  unfold compile
  dsimp only
  rcases hrun : (recordInstructions (n.registers.map fun r => (r, n.name r))).run.run (Sequencer.new n) with ⟨e | start, s⟩
  · rw [hrun] at hfinds
    exact fun herror => hfinds name (congrArg Except.error (Except.error.inj herror))
  · exact fun herror => nomatch herror

/-- A valid configuration with numbers for its layers has a network whose gate map is complete, and
compiling the instruction set on it finds every gate, whatever its code books hold by then. -/
theorem gate_map_complete (hvalid : c.validate = .ok ()) (hroom : c.registers.length ≤ 65522) :
    ∃ n, (build c).value = .ok n ∧ n.MapsGates ∧ ∀ later : Network α, n.Keeps (fun _ _ => False) later →
      ∀ verbose name, (later.compile verbose).value.1 ≠ .error (.unknownGate name) := by
  obtain ⟨n, hbuild⟩ := exists_build hvalid hroom
  have hbuilt := builtFrom_of_build hbuild
  refine ⟨n, hbuild, hbuilt.mapsGates hroom, fun later hkeeps verbose name => ?_⟩
  have hasked : askedGates later.registers ⊆ later.gates.gates := by
    rw [hkeeps.registers, hkeeps.gates, hbuilt.gates]
    exact askedGates_subset (hbuilt.counted hroom)
  exact compile_ne_unknownGate hasked verbose name

/-- The small network has fifty-seven gates. -/
theorem small_gate_map_complete : smallNetwork.MapsGates ∧ smallNetwork.gates.size = 57 ∧
    ∀ verbose name, (smallNetwork.compile verbose).value.1 ≠ .error (.unknownGate name) := by
  have hvalid := (builtFrom_of_build build_smallConfig).valid
  obtain ⟨n, hbuild, hmaps, hcompile⟩ := gate_map_complete hvalid (by decide)
  obtain rfl := Except.ok.inj (build_smallConfig.symm.trans hbuild)
  exact ⟨hmaps, by decide +kernel, hcompile smallNetwork (.refl _)⟩

end Network

end Engram
