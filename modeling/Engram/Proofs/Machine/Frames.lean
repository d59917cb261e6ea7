/-
  Engram.Proofs.Machine.Frames — which connections a call on a machine can change.

  A machine starts with the connections of three families: those of its automaton, those of its
  pointers, and the plastic pathways at their baselines (`BuiltFrom.written`). Adding a program
  writes the fourth family, a tick the plastic pathways whose learn gate is open, and loading takes
  every plastic pathway back to where it started. As the families have no pathway in common, nothing
  ever writes the first two again, and no call undoes what belongs to another (`families_apart`).
-/

import Engram.Proofs.Data.Families
import Engram.Proofs.Machine.Control
import Engram.Proofs.Machine.Operations

namespace Engram

open LayerId

variable {α : Type} [Scalar α]

theorem Network.Keeps.baseline {keep : LayerId → String → Prop} {n later : Network α} (h : n.Keeps keep later) :
    later.baseline = n.baseline := by
  funext p r
  unfold Network.baseline
  rw [h.activator, h.size, h.size]

omit [Scalar α] in
theorem Network.Numbered.beyond {n : Network α} (h : n.Numbered) : ∀ r ∈ n.registers, ¬ IsControl r :=
  fun r hr => Nat.not_lt.mpr (h.registers r hr).1

/-- The automaton writes the pathways of the control family. -/
theorem Sequencer.getElem?_flash_isSome (s : Sequencer α) (verbose : Bool) (registers : List LayerId) (p : Pathway) :
    (s.flash verbose).value.weights[p]?.isSome = true ↔ p ∈ Family.control.pathways registers := by
  have hkeys : (split s.network gh s.recurrent.connection ++ split s.network go s.readout.connection).map (·.1) =
      Family.control.pathways registers := rfl
  constructor
  · intro hsome
    by_contra hp
    rw [weights_flash] at hsome
    have hnone := Pathway.getElem?_foldl_insert_of_not_mem (hkeys ▸ hp) ({} : Weights α)
    rw [Std.TreeMap.getElem?_emptyc] at hnone
    rw [hnone] at hsome
    cases hsome
  · intro hp
    rw [← hkeys] at hp
    obtain ⟨⟨q, c⟩, hmem, rfl⟩ := List.mem_map.mp hp
    rw [getElem?_flash s verbose hmem]
    rfl

namespace Machine

/-- What was written when a machine was built on a network: each family has what it was given. -/
structure Written (c : Config α) (n : Network α) (m : Machine α) : Prop where
  control : ∀ p ∈ Family.control.pathways n.registers, ∃ connection,
    m.automaton.weights[p]? = some connection ∧ m.weights[p]? = some connection
  pointer : ∃ weights errors later, (Pointer.flash n c.pointerSlots).value = (.ok (weights, errors), later) ∧
    ∀ p ∈ Family.pointer.pathways n.registers, ∃ connection, weights[p]? = some connection ∧ m.weights[p]? = some connection
  plastic : ∀ p ∈ Family.plastic.pathways n.registers, ∃ rule,
    m.plasticity[p]? = some rule ∧ m.weights[p]? = some (n.baseline p rule)
  rest : ∀ p : Pathway, (∀ f : Family, f ≠ .program → p ∉ f.pathways n.registers) → m.weights[p]? = none

/-- The pathway is plastic, and its learn gate is open. -/
def Learns (registers : List LayerId) (m : Machine α) (p : Pathway) : Prop :=
  p ∈ Family.plastic.pathways registers ∧ Gate.learn p.target p.source ∈ m.openGates

/-- The connections that a machine has kept since it was built, and those that a call can change. -/
structure Framed (registers : List LayerId) (m₀ m : Machine α) : Prop where
  /-- The control and the pointer connections are what they were. -/
  fixed : ∀ f : Family, f = .control ∨ f = .pointer → ∀ p ∈ f.pathways registers, m.weights[p]? = m₀.weights[p]?
  assemble : ∀ source name, ∀ p ∉ Family.program.pathways registers,
    (m.assemble source name).value.2.weights[p]? = m.weights[p]?
  failedAssemble : ∀ source name e, (m.assemble source name).value.1 = .error e →
    (m.assemble source name).value.2.weights = m.weights
  tick : ∀ p, ¬ m.Learns registers p → m.tick.value.weights[p]? = m.weights[p]?
  step : ∀ maxTicks, ∃ k ≤ maxTicks, (m.step maxTicks).value.2 = m.ticked k ∧
    ∀ p, (∀ i < k, ¬ (m.ticked i).Learns registers p) → (m.ticked k).weights[p]? = m.weights[p]?
  run : ∀ maxSteps, ∃ k, (m.run maxSteps).value.2 = m.ticked k ∧
    ∀ p, (∀ i < k, ¬ (m.ticked i).Learns registers p) → (m.ticked k).weights[p]? = m.weights[p]?
  setActivity : ∀ layer p, (m.move (.setActivity layer p)).2.weights = m.weights
  failedLoad : ∀ program held e, (m.load program held).value.1 = .error e → (m.load program held).value.2.weights = m.weights
  /-- The plastic connections are again what they were when the machine was built. -/
  load : ∀ program held, (m.load program held).value.1 = .ok () → ∀ p : Pathway,
    (m.load program held).value.2.weights[p]? =
      if p ∈ Family.plastic.pathways registers then m₀.weights[p]? else m.weights[p]?

variable {c : Config α} {m₀ m : Machine α}

/-! ## A machine that was built -/

theorem BuiltFrom.plasticity_eq {bare n : Network α} {s : Sequencer α} (h : m.BuiltFrom c bare n s) (p : Pathway) :
    m.plasticity[p]?.isSome = true ↔ p ∈ Family.plastic.pathways bare.registers := by
  have hplastic : s.network.plastic = Family.plastic.pathways bare.registers :=
    congrArg plasticPathways ((h.governs.keeps.registers).trans h.grows.registers)
  rw [h.plasticity, Network.getElem?_plasticity_eq, hplastic]
  split
  next hp => exact iff_of_true rfl hp
  next hp => exact iff_of_false Bool.false_ne_true hp

/-- A machine that was built has the connections of its automaton, of its pointers and of the
plastic pathways, and no others. -/
theorem BuiltFrom.written {bare n : Network α} {s : Sequencer α} (h : m.BuiltFrom c bare n s) : m.Written c bare := by
  have hbeyond := (Network.builtFrom_of_build h.network).numbered.beyond
  obtain ⟨pointers, errors, hflash, hweights⟩ := h.pointers
  obtain ⟨pairs, -, hkeys, hpointers⟩ := Pointer.of_flash hflash
  have hbaseline : s.network.plasticity.2.baseline = bare.baseline := by
    rw [s.network.grows_plasticity.baseline, h.governs.keeps.baseline, h.grows.baseline]
  have hautomaton : ∀ p : Pathway, m.automaton.weights[p]?.isSome = true ↔ p ∈ Family.control.pathways bare.registers := by
    intro p
    rw [h.flashed]
    exact Sequencer.getElem?_flash_isSome s false bare.registers p
  have hpointer : ∀ p : Pathway, pointers[p]?.isSome = true ↔ p ∈ Family.pointer.pathways bare.registers := by
    intro p
    rw [hpointers, Option.isSome_map]
    exact hkeys p
  have hplastic : ∀ p, p ∈ Family.plastic.pathways bare.registers → ∃ rule, m.plasticity[p]? = some rule ∧
      m.weights[p]? = some (bare.baseline p rule) := by
    intro p hp
    obtain ⟨rule, hrule⟩ := Option.isSome_iff_exists.mp ((h.plasticity_eq p).mpr hp)
    exact ⟨rule, hrule, by rw [hweights, Network.getElem?_resetPlastic_of_some _ hrule, hbaseline]⟩
  have hother : ∀ p, p ∉ Family.plastic.pathways bare.registers →
      m.weights[p]? = (pointers.extend m.automaton.weights)[p]? := by
    intro p hp
    rw [hweights]
    refine Network.getElem?_resetPlastic _ (Option.not_isSome_iff_eq_none.mp ?_)
    exact fun hsome => hp ((h.plasticity_eq p).mp hsome)
  refine ⟨fun p hp => ?_, ⟨pointers, errors, n, hflash, fun p hp => ?_⟩, hplastic, fun p hp => ?_⟩
  · obtain ⟨connection, hconnection⟩ := Option.isSome_iff_exists.mp ((hautomaton p).mpr hp)
    refine ⟨connection, hconnection, ?_⟩
    have hapart : p ∉ Family.plastic.pathways bare.registers := fun hq => nomatch Family.eq_of_mem hbeyond hp hq
    rw [hother p hapart]
    exact Weights.getElem?_extend_of_some pointers hconnection
  · obtain ⟨connection, hconnection⟩ := Option.isSome_iff_exists.mp ((hpointer p).mpr hp)
    refine ⟨connection, hconnection, ?_⟩
    have hnone : m.automaton.weights[p]? = none :=
      Option.not_isSome_iff_eq_none.mp fun hsome => nomatch Family.eq_of_mem hbeyond hp ((hautomaton p).mp hsome)
    have hapart : p ∉ Family.plastic.pathways bare.registers := fun hq => nomatch Family.eq_of_mem hbeyond hp hq
    rw [hother p hapart, Weights.getElem?_extend_of_none pointers hnone, hconnection]
  · have hnot : ∀ f : Family, f ≠ .program → ∀ b : Bool, (b = true ↔ p ∈ f.pathways bare.registers) → ¬ b = true :=
      fun f hf b hb hsome => hp f hf (hb.mp hsome)
    rw [hother p (hp .plastic (by decide)), Weights.getElem?_extend_of_none pointers]
    · exact Option.not_isSome_iff_eq_none.mp (hnot .pointer (by decide) _ (hpointer p))
    · exact Option.not_isSome_iff_eq_none.mp (hnot .control (by decide) _ (hautomaton p))

/-! ## What calls keep -/

/-- What no call changes: the layers, which pathways are plastic, which ones programs are stored in,
and the connections outside of these. -/
structure Kept (m₀ m : Machine α) : Prop where
  network : m₀.network.Keeps (fun l _ => l ≠ ip) m.network
  pairs : ∀ p, p ∉ Family.program.pathways m₀.network.registers → m.session.pairs[p]? = none
  plasticity : m.plasticity = m₀.plasticity
  weights : ∀ p, p ∉ Family.plastic.pathways m₀.network.registers → p ∉ Family.program.pathways m₀.network.registers →
    m.weights[p]? = m₀.weights[p]?

namespace Kept

theorem learns_iff (h : Kept m₀ m) (p : Pathway) :
    m.Learns m₀.network.registers p ↔ p ∈ m.network.plastic ∧ Gate.learn p.target p.source ∈ m.openGates := by
  rw [Network.plastic, h.network.registers]
  exact Iff.rfl

theorem assembleProgram (h : Kept m₀ m) (h₀ : m₀.network.Numbered) (program : Program) (name : String) :
    Kept m₀ (m.assembleProgram program name).value.2 ∧
      (∀ p, p ∉ Family.program.pathways m₀.network.registers →
        (m.assembleProgram program name).value.2.weights[p]? = m.weights[p]?) ∧
      ∀ e, (m.assembleProgram program name).value.1 = .error e → (m.assembleProgram program name).value.2.weights = m.weights := by
  have havoid : ∀ p ∈ Family.program.pathways m₀.network.registers, ¬ p ∉ Family.program.pathways m₀.network.registers :=
    fun _ hp hnot => hnot hp
  obtain ⟨hspares, hadded⟩ := Session.secures_assemble h₀ havoid program name m.config.orthogonal false m.session
    ⟨h.network, h.pairs⟩
  unfold Machine.assembleProgram
  rw [Noted.value_bind]
  rcases hrun : ((Session.assemble program name m.config.orthogonal false).run.run m.session).value with ⟨e | a, session⟩
  · rw [hrun] at hspares
    exact ⟨⟨hspares.network, hspares.pairs, h.plasticity, h.weights⟩, fun _ _ => rfl, fun _ _ => rfl⟩
  · rw [hrun] at hspares hadded
    have hweights : ∀ p, p ∉ Family.program.pathways m₀.network.registers → (m.weights.extend a.weights)[p]? = m.weights[p]? :=
      fun p hp => Weights.getElem?_extend_of_none m.weights (hadded a rfl p hp)
    refine ⟨⟨hspares.network, hspares.pairs, h.plasticity, fun p hp hprogram => ?_⟩, hweights, fun e he => by cases he⟩
    exact (hweights p hprogram).trans (h.weights p hp hprogram)

theorem assemble (h : Kept m₀ m) (h₀ : m₀.network.Numbered) (source name : String) :
    Kept m₀ (m.assemble source name).value.2 ∧
      (∀ p, p ∉ Family.program.pathways m₀.network.registers → (m.assemble source name).value.2.weights[p]? = m.weights[p]?) ∧
      ∀ e, (m.assemble source name).value.1 = .error e → (m.assemble source name).value.2.weights = m.weights := by
  unfold Machine.assemble
  cases Program.parse m.network.registerNames source with
  | error e => exact ⟨h, fun _ _ => rfl, fun _ _ => rfl⟩
  | ok program => exact h.assembleProgram h₀ program name

theorem tick (h : Kept m₀ m) : Kept m₀ m.tick.value ∧
    ∀ p, ¬ m.Learns m₀.network.registers p → m.tick.value.weights[p]? = m.weights[p]? := by
  have hlearned : ∀ p, ¬ m.Learns m₀.network.registers p → m.tick.value.weights[p]? = m.weights[p]? :=
    fun p hp => m.getElem?_learned fun hlearns => hp ((h.learns_iff p).mpr hlearns)
  refine ⟨⟨h.network, h.pairs, h.plasticity, fun p hp hprogram => ?_⟩, hlearned⟩
  rw [hlearned p fun hlearns => hp hlearns.1, h.weights p hp hprogram]

theorem ticked (h : Kept m₀ m) (k : Nat) : Kept m₀ (m.ticked k) ∧
    ∀ p, (∀ i < k, ¬ (m.ticked i).Learns m₀.network.registers p) → (m.ticked k).weights[p]? = m.weights[p]? := by
  induction k with
  | zero => exact ⟨h, fun _ _ => rfl⟩
  | succ k ih =>
    rw [ticked_succ]
    obtain ⟨hkept, hweights⟩ := ih
    obtain ⟨hnext, htick⟩ := hkept.tick
    refine ⟨hnext, fun p hp => ?_⟩
    rw [htick p (hp k (by omega)), hweights p fun i hi => hp i (by omega)]

theorem rests {later : Machine α} (h : Kept m₀ m) (hrests : Rests m later) : Kept m₀ later := by
  have hpairs : later.session.pairs = m.session.pairs := by rw [hrests.rest]; rfl
  refine ⟨h.network.trans (hrests.network.mono fun _ _ _ => trivial), ?_, hrests.plasticity.trans h.plasticity, ?_⟩
  · rw [hpairs]
    exact h.pairs
  · rw [hrests.weights]
    exact h.weights

/-- Loading that succeeds takes the plastic connections back. -/
theorem load (h : Kept m₀ m) {n : Network α} (hwritten : m₀.Written c n) (hn : n.Keeps (fun _ _ => False) m₀.network)
    (hplastic : ∀ p, m₀.plasticity[p]?.isSome = true ↔ p ∈ Family.plastic.pathways m₀.network.registers)
    {program : String} {held : List (String × String)} (hload : (m.load program held).value.1 = .ok ()) :
    Kept m₀ (m.load program held).value.2 ∧ ∀ p : Pathway, (m.load program held).value.2.weights[p]? =
      if p ∈ Family.plastic.pathways m₀.network.registers then m₀.weights[p]? else m.weights[p]? := by
  obtain ⟨entry, later, -, -, hrests, heq⟩ := load_of_ok hload
  have hkept := h.rests hrests
  have hweights : ∀ p : Pathway, (m.load program held).value.2.weights[p]? =
      if p ∈ Family.plastic.pathways m₀.network.registers then m₀.weights[p]? else m.weights[p]? := by
    intro p
    rw [heq]
    show (later.network.resetPlastic later.plasticity later.weights)[p]? = _
    rw [hkept.plasticity, hrests.weights]
    split
    next hp =>
      obtain ⟨rule, hrule, hbaseline⟩ := hwritten.plastic p (hn.registers ▸ hp)
      rw [Network.getElem?_resetPlastic_of_some _ hrule, hbaseline, hkept.network.baseline, hn.baseline]
    next hp =>
      exact Network.getElem?_resetPlastic _ (Option.not_isSome_iff_eq_none.mp fun hsome => hp ((hplastic p).mp hsome))
  refine ⟨⟨?_, ?_, ?_, fun p hp hprogram => ?_⟩, hweights⟩
  · rw [heq]
    exact hkept.network
  · rw [heq]
    exact hkept.pairs
  · rw [heq]
    exact hkept.plasticity
  · rw [hweights, if_neg hp, h.weights p hp hprogram]

end Kept

/-! ## The families stay apart -/

theorem weights_setActivity (m : Machine α) (layer : String) (p : Pattern α) :
    (m.move (.setActivity layer p)).2.weights = m.weights := by
  unfold move
  dsimp only
  rcases m.setActivity_cases layer p with ⟨l, -, heq⟩ | ⟨e, heq⟩
  · rw [heq]
    rfl
  · rw [heq]

/-- The weight families never overwrite one another. A valid configuration with numbers for all of
its registers has a network, in which no pathway is in two families, and every pathway of a family
is a flow with a copy gate. A machine built on it starts with what the automaton, the pointers and
the plastic pathways were given. Whatever calls are made then, also failing ones, each keeps to its
own family: control and pointer connections never change; adding a program changes program
connections only, and none when it fails; ticks, and the instructions and runs that consist of them,
change plastic connections whose learn gate is open at one of the ticks; setting an activity and
loading that fails change none; and loading that succeeds takes all plastic connections back to
their baselines and leaves the others. -/
theorem families_apart (hvalid : c.validate = .ok ()) (hroom : c.registers.length ≤ 65522) :
    ∃ n, (Network.build c).value = .ok n ∧
      (∀ (f g : Family) (p : Pathway), p ∈ f.pathways n.registers → p ∈ g.pathways n.registers → f = g) ∧
      (∀ (f : Family), ∀ p ∈ f.pathways n.registers, p ∈ n.flows ∧ ∃ u, n.gates.unit? (.copy p.target p.source) = some u) ∧
      ∀ m₀, (build c).value = .ok m₀ → m₀.Written c n ∧
        ∀ operations : List (Operation α), Framed n.registers m₀ (m₀.performAll operations).2 := by
  obtain ⟨bare, hbare⟩ := Network.exists_build hvalid hroom
  have hnetwork := Network.builtFrom_of_build hbare
  have hbeyond := hnetwork.numbered.beyond
  refine ⟨bare, hbare, fun f g p => Family.eq_of_mem hbeyond, fun f p hp => ?_, fun m₀ hbuild => ?_⟩
  · exact ⟨Family.flow hp, hnetwork.unit?_of_mem (Network.mem_copies (Family.flow hp))⟩
  obtain ⟨bare', n, s, h⟩ := builtFrom_of_build hbuild
  obtain rfl : bare' = bare := Except.ok.inj (h.network.symm.trans hbare)
  have hkeeps := h.keeps_bare
  have hregisters : m₀.network.registers = bare'.registers := hkeeps.registers
  have hnumbered : m₀.network.Numbered := hkeeps.numbered hnetwork.numbered
  have hplastic : ∀ p, m₀.plasticity[p]?.isSome = true ↔ p ∈ Family.plastic.pathways m₀.network.registers := by
    intro p
    rw [hregisters]
    exact h.plasticity_eq p
  refine ⟨h.written, fun operations => ?_⟩
  rw [← hregisters]
  have hstart : Kept m₀ m₀ := by
    refine ⟨.refl _, fun p _ => ?_, rfl, fun _ _ _ => rfl⟩
    rw [h.session]
    exact Std.TreeMap.getElem?_emptyc
  have hkept : Kept m₀ (m₀.performAll operations).2 := by
    refine performAll_induction (P := Kept m₀) (fun m o hm => ?_) hstart operations
    cases o with
    | assemble source name => exact (hm.assemble hnumbered source name).1
    | load program held =>
      cases hanswer : (m.load program held).value.1 with
      | error e => exact hm.rests (load_of_error hanswer)
      | ok u => exact (hm.load h.written hkeeps hplastic hanswer).1
    | move motion =>
      exact move_induction (P := Kept m₀) (fun _ hm => hm.tick.1) (fun _ _ _ hm _ => { hm with }) hm motion
  generalize (m₀.performAll operations).2 = m at hkept
  constructor
  case fixed =>
    intro f hf p hp
    have hf : f ≠ .plastic ∧ f ≠ .program := by
      rcases hf with rfl | rfl
      · decide
      · decide
    exact hkept.weights p (fun hq => hf.1 (Family.eq_of_mem hnumbered.beyond hp hq))
      fun hq => hf.2 (Family.eq_of_mem hnumbered.beyond hp hq)
  case assemble => exact fun source name => (hkept.assemble hnumbered source name).2.1
  case failedAssemble => exact fun source name => (hkept.assemble hnumbered source name).2.2
  case tick => exact hkept.tick.2
  case step =>
    intro maxTicks
    obtain ⟨k, hk, heq⟩ := m.exists_ticked_step maxTicks
    exact ⟨k, hk, heq, (hkept.ticked k).2⟩
  case run =>
    intro maxSteps
    obtain ⟨k, heq⟩ := m.exists_ticked_run maxSteps
    exact ⟨k, heq, (hkept.ticked k).2⟩
  case setActivity => exact m.weights_setActivity
  case failedLoad => exact fun program held e he => (load_of_error he).weights
  case load => exact fun program held hanswer => (hkept.load h.written hkeeps hplastic hanswer).2

/-- The calls on the small machine keep to their families. -/
theorem small_families_apart : smallConfig.validate = .ok () ∧ smallConfig.registers.length ≤ 65522 ∧
    ∃ m₀ : Machine Fixed, (build smallConfig).value = .ok m₀ ∧ ∃ registers,
      ∀ operations : List (Operation Fixed), Framed registers m₀ (m₀.performAll operations).2 := by
  have hvalid : smallConfig.validate = .ok () := (Network.builtFrom_of_build build_smallConfig).valid
  have hroom : smallConfig.registers.length ≤ 65522 := by decide
  obtain ⟨m₀, hbuild⟩ := exists_small
  obtain ⟨n, -, -, -, hmachine⟩ := families_apart hvalid hroom
  exact ⟨hvalid, hroom, m₀, hbuild, n.registers, (hmachine m₀ hbuild).2⟩

end Machine

end Engram
