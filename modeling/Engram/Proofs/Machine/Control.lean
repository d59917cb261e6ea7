/-
  Engram.Proofs.Machine.Control — a running machine follows its automaton.

  A layer takes up what comes through its open gates. Of the flows into a control layer the one
  from the hidden layer is always open, and one from a condition layer is open exactly if the
  transit is keyed on it; so what arrives is what the joint connection produces for the input of
  the transit (`input_control`), whatever the other layers hold. Hence a machine that holds the
  source of a recorded transit holds after one tick what the flash made of it, and the bits of the
  target if no control association is missed (`tick_follows`).
-/

import Engram.Proofs.Machine.Built

namespace Engram

open LayerId

variable {α : Type} [Scalar α]

namespace Sequencer

/-- The recorded transit leads on from the state. -/
structure Leaves (s : Sequencer α) (old : ControlState α) (t : Transit α) : Prop where
  recorded : t ∈ s.transits
  key : t.key = s.key old t.key.condition
  input : Joint s.network old.hidden t.key.condition t.input

end Sequencer

namespace Network

variable {n : Network α}

omit [Scalar α] in
/-- The flows into the control layers come first. -/
theorem exists_data_flows (hn : n.Numbered) : ∃ data : List Pathway, (∀ p ∈ data, p.target ≠ gh ∧ p.target ≠ go) ∧
    flowPathways n.registers = ([⟨gh, gh⟩, ⟨go, gh⟩] ++ conditions.flatMap fun c => [⟨gh, c⟩, ⟨go, c⟩]) ++ data := by
  have hlisted {l : List Pathway} {p : Pathway} (hp : p ∈ l)
      (h : ∀ p ∈ l, p.target ≠ gh ∧ p.target ≠ go := by decide) : p.target ≠ gh ∧ p.target ≠ go := h p hp
  refine ⟨?data, ?targets, ?flows⟩
  case flows =>
    unfold flowPathways
    simp only [List.append_assoc]
    rfl
  intro p hp
  simp only [List.mem_append] at hp
  rcases hp with hp | hp | hp | hp | hp | hp
  · exact hlisted hp
  · obtain ⟨r, hr, hp⟩ := List.mem_flatMap.mp hp
    simp only [List.mem_cons, List.not_mem_nil, or_false] at hp
    rcases hp with rfl | rfl | rfl | rfl | rfl | rfl
    · exact hn.ne_control hr
    · exact (by decide : ip ≠ gh ∧ ip ≠ go)
    · exact (by decide : ci ≠ gh ∧ ci ≠ go)
    · exact hn.ne_control hr
    · exact (by decide : mf ≠ gh ∧ mf ≠ go)
    · exact (by decide : mb ≠ gh ∧ mb ≠ go)
  · obtain ⟨r, hr, hp⟩ := List.mem_flatMap.mp hp
    obtain ⟨r', -, rfl⟩ := List.mem_map.mp hp
    exact hn.ne_control hr
  · exact hlisted hp
  · exact hlisted hp
  · exact hlisted hp

omit [Scalar α] in
/-- The flows into a control layer. -/
theorem flows_into_control (hn : n.Numbered) {l : LayerId} (hl : l = gh ∨ l = go) :
    n.flows.filter (fun p => p.target == l) = (gh :: conditions).map (Pathway.mk l) := by
  obtain ⟨data, hdata, hflows⟩ := exists_data_flows hn
  have hnone : data.filter (fun p => p.target == l) = [] := by
    refine List.filter_eq_nil_iff.mpr fun p hp => ?_
    rw [beq_iff_eq]
    rcases hl with rfl | rfl
    · exact (hdata p hp).1
    · exact (hdata p hp).2
  unfold Network.flows
  rw [hflows, List.filter_append, hnone, List.append_nil]
  rcases hl with rfl | rfl
  · rfl
  · rfl

/-- A gate is open when its unit is on. -/
theorem mem_openGates_of_unit {g : Gate} {u : Nat} (hu : n.gates.unit? g = some u) {p : Pattern α}
    (hp : p.size = n.gates.size) : g ∈ n.openGates p ↔ (n.activator go).isOn (p.entry u) = true := by
  have hlength : ((n.activator go).bits p).length = n.gates.size := by
    rw [← hp]
    simp [Activator.bits]
  have hlt : u < p.size := hp ▸ GateMap.lt_of_unit? hu
  have hbit : ((n.activator go).bits p)[u]? = some ((n.activator go).isOn (p.entry u)) := by
    unfold Activator.bits
    rw [List.getElem?_map, Array.getElem?_toList, Array.getElem?_eq_getElem hlt, Option.map_some,
      Pattern.entry_of_lt hlt]
  unfold openGates
  rw [GateMap.mem_openGates hlength]
  constructor
  · rintro ⟨v, hv, hon⟩
    obtain rfl := Option.some.inj (hu.symm.trans hv)
    exact Option.some.inj (hbit.symm.trans hon)
  · intro hon
    exact ⟨u, hu, by rw [hbit, hon]⟩

end Network

namespace Machine

variable {m : Machine α}

omit [Scalar α] in
theorem getD_layers {β : Type} (f : LayerId → β) {count : Nat} {l : LayerId} (hl : l.position < count) (b : β) :
    (((List.range count).map fun i => f ⟨UInt16.ofNat i⟩).toArray).getD l.position b = f l := by
  rw [Array.getD_eq_getD_getElem?, List.getElem?_toArray, List.getElem?_map, List.getElem?_range hl, Option.map_some,
    Option.getD_some]
  exact congrArg (fun i => f ⟨i⟩) UInt16.ofNat_toNat

/-- The activity of a layer after a tick. -/
theorem active_tick {l : LayerId} (hl : l.position < m.network.layers.size) :
    m.tick.value.active l = m.next m.openGates l := by
  have hlayers : m.network.layerIds.map (m.next m.openGates) =
      (List.range m.network.layers.size).map fun i => m.next m.openGates ⟨UInt16.ofNat i⟩ := List.map_map
  show ((m.network.layerIds.map (m.next m.openGates)).toArray).getD l.position #[] = _
  rw [hlayers, getD_layers (m.next m.openGates) hl]

/-- At the next tick the layer takes up nothing and does not forget. -/
def Closed (m : Machine α) (l : LayerId) : Prop := (∀ source, Gate.copy l source ∉ m.openGates) ∧ Gate.decay l ∉ m.openGates

/-- All that a closed layer does in a tick is to retain. -/
theorem active_tick_closed {l : LayerId} (hl : l.position < m.network.layers.size) (h : m.Closed l) :
    m.tick.value.active l = (m.active l).map (m.network.activator l).hold := by
  obtain ⟨hcopy, hdecay⟩ := h
  have hcarried : m.network.flows.filter (fun p => p.target == l && m.openGates.contains (.copy p.target p.source)) = [] := by
    refine List.filter_eq_nil_iff.mpr fun p _ hp => ?_
    rw [Bool.and_eq_true, beq_iff_eq, List.contains_iff_mem] at hp
    obtain ⟨rfl, hopen⟩ := hp
    exact hcopy _ hopen
  have hinput : m.input m.openGates l = (m.active l).map (m.network.activator l).recurrent := by
    have hretains : m.openGates.contains (.decay l) = false := by
      rw [Bool.eq_false_iff, ne_eq, List.contains_iff_mem]
      exact hdecay
    unfold input
    dsimp only
    rw [hcarried, hretains]
    rfl
  rw [active_tick hl, next, hinput, Array.map_map]
  rfl

/-- A control layer that forgets its activity takes up what its open flows carry. -/
theorem input_control (hn : m.network.Numbered) {l : LayerId} (hl : l = gh ∨ l = go) {open' : List Gate}
    (hdecay : Gate.decay l ∈ open') : m.input open' l =
      ((gh :: conditions).filter fun source => open'.contains (.copy l source)).foldl (fun sum source =>
        match m.weights[(⟨l, source⟩ : Pathway)]? with
        | some c => sum.add (c.drive (m.active source))
        | none => sum) (Pattern.zero (m.network.size l)) := by
  have hcarried : (m.network.flows.filter fun p => p.target == l && open'.contains (.copy p.target p.source)) =
      ((gh :: conditions).filter fun source => open'.contains (.copy l source)).map (Pathway.mk l) := by
    rw [List.filter_congr fun p _ => Bool.and_comm (p.target == l) _, ← List.filter_filter,
      Network.flows_into_control hn hl, List.filter_map]
    rfl
  unfold input
  dsimp only
  rw [hcarried, if_pos (List.contains_iff_mem.mpr hdecay)]
  exact List.foldl_map

/-- The layers that a transit reads, when the gates from the condition layers are open as it is keyed. -/
theorem filter_conditions {condition : Option Condition} (hc : ∀ c ∈ condition, c.layer ∈ conditions)
    {isOpen : LayerId → Bool} (h : ∀ l ∈ conditions, isOpen l = true ↔ ∃ c ∈ condition, c.layer = l) :
    conditions.filter isOpen = (condition.map (·.layer)).toList := by
  cases condition with
  | none =>
    refine List.filter_eq_nil_iff.mpr fun l hl hopen => ?_
    obtain ⟨c, hmem, -⟩ := (h l hl).mp hopen
    cases hmem
  | some c =>
    have hsame : conditions.filter isOpen = conditions.filter (· == c.layer) := by
      refine List.filter_congr fun l hl => ?_
      rw [Bool.eq_iff_iff, h l hl, beq_iff_eq]
      exact ⟨fun ⟨d, hd, heq⟩ => Option.some.inj hd ▸ heq.symm, fun heq => ⟨c, rfl, heq.symm⟩⟩
    have honly : ∀ l ∈ conditions, conditions.filter (· == l) = [l] := by decide
    rw [hsame]
    exact honly c.layer (hc c rfl)

/-- The machine is in a control state, and the layer of the condition holds its token. -/
structure Holds (m : Machine α) (state : ControlState α) (condition : Option Condition) : Prop where
  hidden : m.active gh = state.hidden
  gates : m.active go = state.gates
  token : ∀ c ∈ condition, (m.network.layer c.layer).pattern? c.token = some (m.active c.layer)

variable {c : Config α} {m₀ : Machine α} {bare n : Network α} {s : Sequencer α} {old : ControlState α} {t : Transit α}

/-- The gates that are open in the source of a transit. -/
structure Opened (open' : List Gate) (condition : Option Condition) : Prop where
  hidden : ∀ l : LayerId, l = gh ∨ l = go → Gate.decay l ∈ open' ∧ Gate.copy l gh ∈ open'
  condition : ∀ l : LayerId, l = gh ∨ l = go → ∀ source ∈ conditions,
    Gate.copy l source ∈ open' ↔ ∃ c ∈ condition, c.layer = source

/-- The source of a transit opens the flows from the hidden layer and from what the transit is keyed on. -/
theorem opened_of_keyed {n : Network α} (hgo : n.size go = n.gates.size)
    (hon : (n.activator go).isOn (n.activator go).on = true) (hoff : (n.activator go).isOn (n.activator go).off = false)
    {old : ControlState α} {condition : Option Condition} (hold : Sequencer.Fit n old)
    (hkeyed : Sequencer.Keyed n old condition) : Opened (n.openGates old.gates) condition := by
  obtain ⟨gates, hbalanced, hopens⟩ := hold.gates
  have hmem : ∀ g, g ∈ n.openGates old.gates ↔ g ∈ defaultGates ++ gates := fun g =>
    Network.mem_openGates_iff hgo hon hoff hopens
  have hdefault : ∀ l : LayerId, l = gh ∨ l = go → Gate.decay l ∈ defaultGates ∧ Gate.copy l gh ∈ defaultGates := by
    rintro l (rfl | rfl) <;> decide
  have hcondition : ∀ source ∈ conditions, Gate.copy gh source ∈ n.openGates old.gates ↔ ∃ c ∈ condition, c.layer = source := by
    intro source hsource
    obtain ⟨u, hu, hopen⟩ := hkeyed.isOpen source hsource
    rw [Network.mem_openGates_of_unit hu (hopens.size.trans hgo)]
    exact hopen
  refine ⟨fun l hl => ?_, fun l hl source hsource => ?_⟩
  · rw [hmem, hmem]
    exact ⟨List.mem_append_left _ (hdefault l hl).1, List.mem_append_left _ (hdefault l hl).2⟩
  · rw [← hcondition source hsource, hmem, hmem]
    have hnot : ∀ source ∈ conditions, Gate.copy gh source ∉ defaultGates ∧ Gate.copy go source ∉ defaultGates := by decide
    rcases hl with rfl | rfl
    · exact Iff.rfl
    · rw [List.mem_append, List.mem_append, or_iff_right (hnot source hsource).1, or_iff_right (hnot source hsource).2]
      exact hbalanced source hsource

namespace BuiltFrom

theorem keeps (h : m₀.BuiltFrom c bare n s) (hm : Later m₀ m) : s.network.Keeps (fun l _ => l ≠ ip) m.network :=
  (h.grows_network.mono fun _ _ _ => trivial).trans (hm.governing h.fenced).network

/-- In a state that a recorded transit leads on from, the gates are open that the transit reads through. -/
theorem opened [ExactSums α] (h : m₀.BuiltFrom c bare n s) (hm : Later m₀ m) (ht : s.Leaves old t)
    (hgates : m.active go = old.gates) : Opened m.openGates t.key.condition := by
  obtain ⟨source, hsource, hkeyed, hkey, -⟩ := (h.governs.transits t ht.recorded).source
  have hbuilt := Network.builtFrom_of_build h.network
  have hactivator : n.activator go = c.activator := by
    rw [h.grows.activator]
    exact hbuilt.activator_eq (Nat.lt_of_lt_of_le (by decide) hbuilt.numbered.control)
  have hopened := opened_of_keyed h.size_go (by rw [hactivator]; exact ExactSums.on_isOn hbuilt.valid)
    (by rw [hactivator]; exact ExactSums.off_isOff hbuilt.valid) hsource hkeyed
  -- the transit is recorded under the bits of its source, and only these tell which gates are open
  have hbits : (s.network.activator go).bits old.gates = (s.network.activator go).bits source.gates :=
    (congrArg TransitKey.gates ht.key).symm.trans (congrArg TransitKey.gates hkey)
  have hsame : m.openGates = n.openGates source.gates := by
    unfold openGates Network.openGates
    rw [hgates, (h.keeps hm).gates, (h.keeps hm).activator, hbits, h.governs.keeps.gates, h.governs.keeps.activator]
  rw [hsame]
  exact hopened

/-- The hidden pattern that a transit leads on from has the size of the hidden layer. -/
theorem size_hidden (h : m₀.BuiltFrom c bare n s) (ht : s.Leaves old t) : old.hidden.size = s.network.size gh := by
  have hinput : t.input.size = Sequencer.inputSize s.network := by
    rw [(h.governs.transits t ht.recorded).input, Sequencer.inputSize, Sequencer.inputSize,
      Sequencer.conditionSize_eq h.governs.keeps, h.governs.keeps.size]
  have hjoint := ht.input
  unfold Sequencer.inputSize at hinput
  cases hcondition : t.key.condition with
  | none =>
    rw [hcondition] at hjoint
    have hjoint : t.input = old.hidden ++ Pattern.zero (Sequencer.conditionSize s.network) := hjoint
    rw [hjoint, Array.size_append, Pattern.zero, Array.size_replicate] at hinput
    exact Nat.add_right_cancel hinput
  | some d =>
    rw [hcondition] at hjoint
    obtain ⟨-, p, hp, heq⟩ := hjoint
    have hsize := Sequencer.size_layered ((h.governs.sound d.layer).sized _ _ hp) conditions old.hidden
    have heq : t.input = Sequencer.layered s.network d.layer p conditions old.hidden := heq
    rw [heq, hsize] at hinput
    exact Nat.add_right_cancel hinput

variable [ExactSums α]

/-- Adding to nothing. -/
theorem zero_add {k : Nat} {x : Pattern α} (hx : x.size = k) : (Pattern.zero k).add x = x := by
  have hzero : (Pattern.zero k : Pattern α).size = k := Array.size_replicate
  refine Pattern.ext_entry (by rw [Pattern.size_add, hzero, hx, Nat.min_self]) fun i hi => ?_
  rw [Pattern.size_add, hzero, hx, Nat.min_self] at hi
  rw [Pattern.entry_add (by rw [hzero]; exact hi) (by rw [hx]; exact hi), Pattern.zero, Pattern.entry_replicate, ite_self,
    Scalar.zero_add]

/-- A control layer takes up what its joint connection produces for the input of the transit. -/
theorem active_tick_joint (h : m₀.BuiltFrom c bare n s) (hm : Later m₀ m) (ht : s.Leaves old t)
    (hold : m.Holds old t.key.condition) {l : LayerId} (hl : l = gh ∨ l = go) (patterns : Transit α → Pattern α)
    (hsplit : ∀ x ∈ Sequencer.split s.network l (s.joint l patterns).connection, m₀.weights[x.1]? = some x.2) :
    m.tick.value.active l = (s.joint l patterns).connection.recalled (s.network.activator l) t.input := by
  have hgoverning := hm.governing h.fenced
  have hkeeps := h.keeps hm
  have hnumbered := hgoverning.numbered h.fenced
  have hopened := h.opened hm ht hold.gates
  have hsize := h.size_hidden ht
  have hfits := s.fits_joint l patterns
  have hheight := s.height_joint l patterns
  have hwidth := s.width_joint l patterns
  generalize (s.joint l patterns).connection = joint at *
  have hweight : ∀ x ∈ Sequencer.split s.network l joint, m.weights[x.1]? = some x.2 := by
    intro x hx
    have hkey : x.1.target = l := by
      have hkeys : x.1 ∈ (gh :: conditions).map (Pathway.mk l) := List.mem_map_of_mem (f := (·.1)) hx
      obtain ⟨source, -, heq⟩ := List.mem_map.mp hkeys
      rw [← heq]
    rw [hgoverning.weights x.1 (by rw [Pathway.Controls, hkey]; exact hl)]
    exact hsplit x hx
  have hhidden : m.weights[(⟨l, gh⟩ : Pathway)]? = some (Sequencer.hiddenBlock s.network joint) :=
    hweight _ List.mem_cons_self
  have hposition : l.position < m.network.layers.size := by
    refine Nat.lt_of_lt_of_le ?_ hnumbered.control
    rcases hl with rfl | rfl <;> decide
  have hlayers : ∀ d ∈ t.key.condition, d.layer ∈ conditions := by
    intro d hd
    have hjoint := ht.input
    rw [hd] at hjoint
    exact hjoint.1
  have hreads : (gh :: conditions).filter (fun source => m.openGates.contains (.copy l source)) =
      gh :: (t.key.condition.map (·.layer)).toList := by
    rw [List.filter_cons, if_pos (List.contains_iff_mem.mpr (hopened.hidden l hl).2), filter_conditions hlayers]
    intro source hsource
    rw [List.contains_iff_mem]
    exact hopened.condition l hl source hsource
  have hinput : m.input m.openGates l = joint.drive t.input := by
    rw [input_control hnumbered hl (hopened.hidden l hl).1, hreads, List.foldl_cons, hhidden]
    dsimp only
    rw [hold.hidden, zero_add (by rw [Sequencer.size_hiddenBlock hfits, hheight, hkeeps.size])]
    have hjoint := ht.input
    cases hcondition : t.key.condition with
    | none =>
      rw [hcondition] at hjoint
      have hjoint : t.input = old.hidden ++ Pattern.zero (Sequencer.conditionSize s.network) := hjoint
      rw [hjoint, Sequencer.drive_none hfits hwidth hsize]
      rfl
    | some d =>
      rw [hcondition] at hjoint
      obtain ⟨hd, p, hp, heq⟩ := hjoint
      have heq : t.input = Sequencer.layered s.network d.layer p conditions old.hidden := heq
      obtain ⟨b, hb, hdrive⟩ := Sequencer.drive_some hfits hwidth hsize hd ((h.governs.sound d.layer).sized _ _ hp) l
      have hne : d.layer ≠ ip := by
        have hcontrol : ∀ l ∈ conditions, l ≠ ip := by decide
        exact hcontrol _ hd
      have hactive : m.active d.layer = p :=
        Option.some.inj ((hold.token d hcondition).symm.trans (hkeeps.pattern _ _ _ hne hp))
      rw [heq, hdrive]
      show (match m.weights[(⟨l, d.layer⟩ : Pathway)]? with
        | some c => Pattern.add _ (c.drive (m.active d.layer))
        | none => _) = _
      rw [hweight _ (List.mem_cons_of_mem _ hb), hactive]
  rw [active_tick hposition, next, hinput, hkeeps.activator]
  rfl

end BuiltFrom

/-- The source of every recorded transit can be held. -/
theorem exists_holds {c : Config α} {m₀ : Machine α} {bare n : Network α} {s : Sequencer α}
    (h : m₀.BuiltFrom c bare n s) {t : Transit α} {old : ControlState α} (ht : s.Leaves old t) :
    ∃ m, Later m₀ m ∧ m.Holds old t.key.condition := by
  obtain ⟨p, hp⟩ : ∃ p : Pattern α, ∀ d ∈ t.key.condition, d.layer ∈ conditions ∧
      (m₀.network.layer d.layer).pattern? d.token = some p := by
    have hjoint := ht.input
    cases hcondition : t.key.condition with
    | none => exact ⟨#[], fun d hd => (Option.not_mem_none d hd).elim⟩
    | some d =>
      rw [hcondition] at hjoint
      obtain ⟨hd, p, hp, -⟩ := hjoint
      refine ⟨p, fun d' hd' => ?_⟩
      obtain rfl := Option.some.inj hd'
      exact ⟨hd, h.grows_network.pattern _ _ _ trivial hp⟩
  let hold (l : LayerId) : Pattern α := if l = gh then old.hidden else if l = go then old.gates else p
  let m : Machine α := { m₀ with activity := ((List.range controlNames.length).map fun i => hold ⟨UInt16.ofNat i⟩).toArray }
  have hactive (l : LayerId) (hl : l.position < controlNames.length) : m.active l = hold l := getD_layers hold hl #[]
  refine ⟨m, Later.here.activate _, hactive gh (by decide), hactive go (by decide), fun d hd => ?_⟩
  obtain ⟨hlayer, hpattern⟩ := hp d hd
  have hcontrol : ∀ l ∈ conditions, l.position < controlNames.length ∧ l ≠ gh ∧ l ≠ go := by decide
  obtain ⟨hlt, hgh, hgo⟩ := hcontrol d.layer hlayer
  rw [hactive d.layer hlt]
  show (m₀.network.layer d.layer).pattern? d.token = some (if d.layer = gh then _ else if d.layer = go then _ else p)
  rw [if_neg hgh, if_neg hgo]
  exact hpattern

/-- A running machine follows the automaton that was recorded for it. Let a machine be built, and
let `t` be a transit of the recorded automaton, which leads on from the state `old`. At any later
time at which the control layers hold `old` and the layer of the condition holds its token, after
one tick the control layers hold what the joint connections recall for the input of the transit;
and if no control association is missed, these have the bits of its target. -/
theorem tick_follows [ExactSums α] {c : Config α} {m₀ : Machine α} (hbuild : (build c).value = .ok m₀) :
    ∃ (bare n : Network α) (s : Sequencer α), m₀.BuiltFrom c bare n s ∧
      (∀ t ∈ s.transits, ∃ old, s.Leaves old t) ∧
      ∀ (t : Transit α) (old : ControlState α), s.Leaves old t →
      ∀ m, Later m₀ m → m.Holds old t.key.condition →
        m.tick.value.active gh = s.recurrent.connection.recalled (s.network.activator gh) t.input ∧
        m.tick.value.active go = s.readout.connection.recalled (s.network.activator go) t.input ∧
        (m₀.automaton.errors = 0 →
          (m.network.layer gh).bits (m.tick.value.active gh) = (m.network.layer gh).bits t.target.hidden ∧
          (m.network.layer go).bits (m.tick.value.active go) = (m.network.layer go).bits t.target.gates) := by
  obtain ⟨bare, n, s, h⟩ := builtFrom_of_build hbuild
  refine ⟨bare, n, s, h, fun t ht => ?_, fun t old ht m hm hold => ?_⟩
  · obtain ⟨source, -, -, hkey, hjoint⟩ := (h.governs.transits t ht).source
    exact ⟨source, ht, hkey, hjoint⟩
  · have hgh := h.active_tick_joint hm ht hold (.inl rfl) (·.target.hidden) fun x hx =>
      h.weight (List.mem_append_left _ hx)
    have hgo := h.active_tick_joint hm ht hold (.inr rfl) (·.target.gates) fun x hx =>
      h.weight (List.mem_append_right _ hx)
    refine ⟨hgh, hgo, fun herrors => ?_⟩
    obtain ⟨htarget, hgates⟩ := (h.governs.transits t ht.recorded).target
    obtain ⟨gates, -, hopens⟩ := hgates
    rw [h.errors, Nat.add_eq_zero_iff] at herrors
    have hactivator (l : LayerId) : (m.network.layer l).bits = (s.network.activator l).bits :=
      congrArg Activator.bits ((h.keeps hm).activator l)
    rw [hactivator, hactivator, hgh, hgo]
    exact ⟨Sequencer.bits_joint herrors.1 ht.recorded (by rw [htarget, h.governs.keeps.size]),
      Sequencer.bits_joint herrors.2 ht.recorded (by rw [hopens.size, h.governs.keeps.size])⟩

/-! ## The small machine -/

/-- The small network with the slots of its pointers. -/
def smallSlots : Network Fixed :=
  (Pointer.encodeSlots ((List.range smallConfig.pointerSlots).map Pointer.slotToken) smallNetwork Pointer.layers).2

/-- The transits that are recorded for a network, if recording succeeds. -/
def recorded? (n : Network α) : Option (List (Transit α)) :=
  match (recordInstructions n.namedRegisters).run.run (Sequencer.new n) with
  | (.error _, _) => none
  | (.ok _, s) => some s.transits

theorem exists_of_recorded? {n : Network α} {p : List (Transit α) → Bool} (h : (recorded? n).any p = true) :
    ∃ start s, (recordInstructions n.namedRegisters).run.run (Sequencer.new n) = (.ok start, s) ∧
      p s.transits = true := by
  obtain ⟨transits, hrecorded, hp⟩ := (Option.any_eq_true _ _).mp h
  unfold recorded? at hrecorded
  rcases hrun : (recordInstructions n.namedRegisters).run.run (Sequencer.new n) with ⟨e | start, s⟩
  · rw [hrun] at hrecorded
    cases hrecorded
  · rw [hrun] at hrecorded
    exact ⟨start, s, rfl, Option.some.inj hrecorded ▸ hp⟩

theorem recorded_smallSlots : (recorded? smallSlots).any (fun transits => !transits.isEmpty) = true := by decide +kernel

/-- A machine is built from what was recorded, if the slots of its pointers have patterns and it knows the
gates it looks at. -/
theorem exists_builtFrom_of_records {c : Config α} {bare : Network α} (hbare : (Network.build c).value = .ok bare)
    (hneeded : ((neededGates bare).mapM bare.unit).toOption.isSome = true)
    (hencoded : (Pointer.encodeSlots ((List.range c.pointerSlots).map Pointer.slotToken) bare
      Pointer.layers).1.toOption.isSome = true) {n : Network α} (hn : n =
        (Pointer.encodeSlots ((List.range c.pointerSlots).map Pointer.slotToken) bare Pointer.layers).2)
    {start : ControlState α} {s : Sequencer α}
    (hrun : (recordInstructions n.namedRegisters).run.run (Sequencer.new n) = (.ok start, s)) :
    ∃ m, (build c).value = .ok m ∧ m.BuiltFrom c bare n s ∧ m.automaton.start = start := by
  have hbuilt := Network.builtFrom_of_build hbare
  have hgrows : bare.Grows n := hn ▸ Pointer.grows_encodeSlots _ _ _
  have hsound : n.Sound := hn ▸ Pointer.sound_encodeSlots _ hbuilt.sound _
  have hgo : n.size go = n.gates.size := by rw [hgrows.size, hgrows.gates, hbuilt.size_go]
  obtain ⟨hgoverns, -⟩ := Sequencer.governs_of_records hsound hgo (hgrows.numbered hbuilt.numbered) hrun
  have hkeeps := (hgrows.mono fun _ _ _ => trivial).trans hgoverns.keeps
  obtain ⟨units, hunits⟩ : ∃ units, (neededGates bare).mapM bare.unit = .ok units := by
    cases hunits : (neededGates bare).mapM bare.unit with
    | error e =>
      rw [hunits] at hneeded
      cases hneeded
    | ok units => exact ⟨units, rfl⟩
  obtain ⟨pointers, hflash⟩ : ∃ pointers, (Pointer.flash bare c.pointerSlots).value = (.ok pointers, n) := by
    rcases hslots : Pointer.encodeSlots ((List.range c.pointerSlots).map Pointer.slotToken) bare
      Pointer.layers with ⟨e | patterns, later⟩
    · rw [hslots] at hencoded
      cases hencoded
    · obtain ⟨weights, errors, hflash⟩ := Pointer.exists_flash hslots
      obtain rfl : n = later := hn.trans (congrArg Prod.snd hslots)
      exact ⟨_, hflash⟩
  obtain ⟨m, hbuild⟩ := exists_build hbare hflash (Network.value_compile hrun false) hkeeps hunits
  obtain ⟨bare', n', s', h⟩ := builtFrom_of_build hbuild
  -- what it was built from is determined
  obtain rfl : bare' = bare := Except.ok.inj (h.network.symm.trans hbare)
  obtain rfl : n' = n := h.slots.trans hn.symm
  have hrecords := h.records.symm.trans hrun
  obtain rfl : s' = s := (Prod.mk.inj hrecords).2
  exact ⟨m, hbuild, h, Except.ok.inj (Prod.mk.inj hrecords).1⟩

/-- The small machine is built, and has recorded transits. -/
theorem exists_small_builtFrom : ∃ m s, (build smallConfig).value = .ok m ∧
    m.BuiltFrom smallConfig smallNetwork smallSlots s ∧ s.transits ≠ [] := by
  obtain ⟨start, s, hrun, hne⟩ := exists_of_recorded? recorded_smallSlots
  obtain ⟨m, hbuild, hbuilt, -⟩ := exists_builtFrom_of_records build_smallConfig (by decide +kernel) (by decide +kernel) rfl hrun
  refine ⟨m, s, hbuild, hbuilt, ?_⟩
  rintro hnil
  rw [hnil] at hne
  cases hne

theorem exists_small : ∃ m, (build smallConfig).value = .ok m := by
  obtain ⟨m, -, hbuild, -⟩ := exists_small_builtFrom
  exact ⟨m, hbuild⟩

/-- The small machine is built, has recorded transits, and follows every one of them. -/
theorem small_tick_follows : ∃ (m₀ : Machine Fixed) (bare n : Network Fixed) (s : Sequencer Fixed),
    (build smallConfig).value = .ok m₀ ∧ m₀.BuiltFrom smallConfig bare n s ∧ s.transits ≠ [] ∧
    ∀ t ∈ s.transits, ∃ old m, s.Leaves old t ∧ Later m₀ m ∧ m.Holds old t.key.condition ∧
      m.tick.value.active gh = s.recurrent.connection.recalled (s.network.activator gh) t.input ∧
      m.tick.value.active go = s.readout.connection.recalled (s.network.activator go) t.input := by
  obtain ⟨m₀, s', hbuild, h', hne⟩ := exists_small_builtFrom
  obtain ⟨bare, n, s, h, hsources, hfollows⟩ := tick_follows hbuild
  obtain ⟨-, -, rfl⟩ := h'.unique h
  refine ⟨m₀, bare, n, s', hbuild, h, hne, fun t ht => ?_⟩
  obtain ⟨old, hleaves⟩ := hsources t ht
  obtain ⟨m, hlater, hholds⟩ := exists_holds h hleaves
  obtain ⟨hgh, hgo, -⟩ := hfollows t old hleaves m hlater hholds
  exact ⟨old, m, hleaves, hlater, hholds, hgh, hgo⟩

end Machine

end Engram
