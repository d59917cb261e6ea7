/-
  Engram.Proofs.Machine.Shapes — the dimensions of all that a machine stores.

  Every connection has as many rows as its target layer has units and as many columns as its source
  layer, every activity has the size of its layer, and the associations of every pathway that
  programs are learned by have the sizes of the two layers (`Shaped`). The parts that the dimensions
  come from are given once, when the machine is built, and no call changes them (`Founded`): the
  sizes of the layers, the units of the gates, the rules of the plastic pathways and the state in
  which instructions start. Each operation keeps both, and so do any calls one after the other.
-/

import Engram.Proofs.Data.Checking
import Engram.Proofs.Data.Retention
import Engram.Proofs.Machine.Frames
import Engram.Proofs.Machine.Loading

namespace Engram

open LayerId

variable {α : Type} [Scalar α]

/-! ## Connections -/

/-- The connection joins a source layer and a target layer of the given sizes. -/
structure Connection.Spans (c : Connection α) (height width : Nat) : Prop where
  rows : c.weights.height = height
  columns : c.weights.width = width
  bias : c.bias.size = height

theorem Connection.spans_zero (height width : Nat) : (Connection.zero height width : Connection α).Spans height width :=
  ⟨rfl, rfl, Array.size_replicate⟩

omit [Scalar α] in
theorem Connection.Spans.fits {c : Connection α} {height width : Nat} (h : c.Spans height width) : c.Fits := by
  rw [Fits, h.bias, h.rows]

/-- A flash changes no dimension. -/
theorem Association.spans_flash {rule : Rule} {c : Connection α} {x y : Columns α} {source target : Activator α}
    {height width : Nat} (hc : c.Spans height width) (hy : y.height = height) :
    (flash rule c x y source target).connection.Spans height width := by
  have hheight : (flash rule c x y source target).connection.weights.height = height := (height_flash ..).trans hc.rows
  refine ⟨hheight, (width_flash ..).trans hc.columns, ?_⟩
  exact (fits_flash hc.fits (hy.trans hc.rows.symm)).trans hheight

namespace Plasticity

/-- The two tokens of a comparison have patterns for a target layer of the given size. -/
def Fits (r : Plasticity α) (height : Nat) : Prop :=
  match r with
  | .store => True
  | .dipole on off => on.size = height ∧ off.size = height

variable {r : Plasticity α} {height width : Nat}

theorem Fits.baseline (h : r.Fits height) (target : Activator α) (width : Nat) :
    (r.baseline target height width).Spans height width := by
  cases r with
  | store => exact Connection.spans_zero height width
  | dipole on off => exact ⟨rfl, rfl, Array.size_map.trans h.2⟩

theorem Fits.write (h : r.Fits height) {rule : Rule} {c : Connection α} {x y : Pattern α} {source target : Activator α}
    (hc : c.Spans height width) (hy : y.size = height) : (r.write rule c x y source target).connection.Spans height width := by
  cases r with
  | store => exact Association.spans_flash hc hy
  | dipole on off => exact Association.spans_flash ⟨hc.rows, hc.columns, Array.size_map.trans h.2⟩ h.1

end Plasticity

/-- Every connection joins two layers of the network, and has their sizes. -/
def Weights.Placed (w : Weights α) (n : Network α) : Prop := ∀ (p : Pathway) (c : Connection α), w[p]? = some c →
  (p.source.position < n.layers.size ∧ p.target.position < n.layers.size) ∧ c.Spans (n.size p.target) (n.size p.source)

namespace Weights.Placed

variable {w later : Weights α} {n : Network α}

theorem of_keeps {next : Network α} {keep : LayerId → String → Prop} (h : w.Placed n) (hkeeps : n.Keeps keep next) :
    w.Placed next := by
  intro p c hc
  rw [hkeeps.count, hkeeps.size, hkeeps.size]
  exact h p c hc

theorem insert (h : w.Placed n) {p : Pathway} {c : Connection α}
    (hp : p.source.position < n.layers.size ∧ p.target.position < n.layers.size)
    (hc : c.Spans (n.size p.target) (n.size p.source)) : Weights.Placed (w.insert p c) n := by
  refine Pathway.forall_foldl_insert (l := [(p, c)]) (fun x hx => ?_) h
  obtain rfl := List.mem_singleton.mp hx
  exact ⟨hp, hc⟩

theorem extend (h : w.Placed n) (hlater : later.Placed n) : (w.extend later).Placed n := by
  unfold Weights.Placed
  rw [Weights.extend_eq]
  exact Pathway.forall_foldl_insert (fun x hx => hlater x.1 x.2 (Std.TreeMap.mem_toList_iff_getElem?_eq_some.mp hx)) h

/-- Plastic pathways go back to connections of their sizes. -/
theorem resetPlastic (h : w.Placed n) {m : PlasticityMap α} (hm : ∀ (p : Pathway) (r : Plasticity α), m[p]? = some r →
    (p.source.position < n.layers.size ∧ p.target.position < n.layers.size) ∧ r.Fits (n.size p.target)) :
    Weights.Placed (n.resetPlastic m w) n := by
  unfold Weights.Placed
  rw [Network.resetPlastic_eq]
  refine Pathway.forall_foldl_insert (fun x hx => ?_) h
  obtain ⟨⟨p, r⟩, hr, rfl⟩ := List.mem_map.mp hx
  obtain ⟨hp, hfits⟩ := hm p r (Std.TreeMap.mem_toList_iff_getElem?_eq_some.mp hr)
  exact ⟨hp, hfits.baseline _ _⟩

/-- Pathways that join layers are flashed to connections of their sizes. -/
theorem flash {m : PairMap α} (hfits : m.Fits n) (hwired : m.Wired n) (warning : Pathway → (errors count : Nat) → String) :
    Weights.Placed (m.flash n warning).value.1 n := by
  intro p c hc
  rw [PairMap.getElem?_flash] at hc
  obtain ⟨s, hs, rfl⟩ := Option.map_eq_some_iff.mp hc
  obtain ⟨htarget, hsource⟩ := hfits p s hs
  have hspans : (PairMap.flashed n p s).connection.Spans s.targetSize s.sourceSize :=
    Association.spans_flash (Connection.spans_zero s.targetSize s.sourceSize) rfl
  rw [htarget, hsource] at hspans
  exact ⟨hwired p s hs, hspans⟩

end Weights.Placed

/-- The blocks of a joint connection have the sizes of the layers that they join. -/
theorem Sequencer.spans_of_split {n : Network α} {target : LayerId} {joint : Connection α}
    (hheight : joint.weights.height = n.size target) (hfits : joint.Fits) {p : Pathway} {c : Connection α}
    (h : (p, c) ∈ split n target joint) : c.Spans (n.size p.target) (n.size p.source) := by
  have hbias : joint.bias.size = n.size target := hfits.trans hheight
  have hblocks (layers : List LayerId) (start : Nat) (h : (p, c) ∈ blocksFrom n target joint start layers) :
      c.Spans (n.size p.target) (n.size p.source) := by
    induction layers generalizing start with
    | nil => exact (List.not_mem_nil h).elim
    | cons l rest ih =>
      rcases List.mem_cons.mp h with heq | h
      · cases heq
        exact ⟨hheight, rfl, Array.size_replicate.trans hbias⟩
      · exact ih _ h
  rcases List.mem_cons.mp h with heq | h
  · cases heq
    exact ⟨hheight, rfl, hbias⟩
  · exact hblocks conditions _ h

/-- What the automaton is written into has the sizes of its layers. -/
theorem Sequencer.placed_flash {s : Sequencer α} (hn : s.network.Numbered) (verbose : Bool) :
    (s.flash verbose).value.weights.Placed s.network := by
  have hkeys : (split s.network gh s.recurrent.connection ++ split s.network go s.readout.connection).map (·.1) =
      Family.control.pathways s.network.registers := rfl
  unfold Weights.Placed
  rw [weights_flash]
  refine Pathway.forall_foldl_insert (fun x hx => ?_) fun p c hc => ?_
  · have hmem : x.1 ∈ Family.control.pathways s.network.registers := hkeys ▸ List.mem_map_of_mem hx
    refine ⟨hn.ends_of_flow (Family.flow hmem), ?_⟩
    rcases List.mem_append.mp hx with hx | hx
    · exact spans_of_split (s.height_joint gh _) (s.fits_joint gh _) hx
    · exact spans_of_split (s.height_joint go _) (s.fits_joint go _) hx
  · rw [Std.TreeMap.getElem?_emptyc] at hc
    cases hc

/-- The rules of plastic pathways fit their layers. -/
theorem Network.fits_plasticity {n : Network α} (hn : n.Sound) {p : Pathway} {r : Plasticity α}
    (h : n.plasticity.1[p]? = some r) : p ∈ n.plastic ∧ r.Fits (n.size p.target) := by
  rw [getElem?_plasticity_eq] at h
  split at h
  swap
  · cases h
  next hp =>
  obtain rfl := Option.some.inj h
  refine ⟨hp, ?_⟩
  unfold plasticRule
  split
  next heq =>
    subst heq
    exact ⟨size_encode hn co trueToken, (size_encode (hn.encode co trueToken) co falseToken).trans
      ((n.grows_encode co trueToken).size co)⟩
  next => exact trivial

namespace Machine

/-! ## What a machine stores -/

/-- Every connection, every activity and all associations have the sizes of their layers. -/
structure Shaped (m : Machine α) : Prop where
  connections : m.weights.Placed m.network
  /-- There is an activity for every layer. -/
  count : m.activity.size = m.network.layers.size
  activities : ∀ l : LayerId, l.position < m.network.layers.size → (m.active l).size = m.network.size l
  pairs : m.session.pairs.Sized m.network ∧ m.session.pairs.Wired m.network

/-- What the dimensions come from. -/
structure Founded (c : Config α) (m : Machine α) : Prop where
  ready : m.Ready c
  /-- There are numbers for all layers. -/
  room : m.network.layers.size < 65536
  gates : m.network.size go = m.network.gates.size
  needed : ∀ g ∈ neededGates m.network, ∃ u, m.network.gates.unit? g = some u
  learned : ∀ p ∉ Session.learnedPathways m.network.registers, m.session.pairs[p]? = none
  plasticity : ∀ (p : Pathway) (r : Plasticity α), m.plasticity[p]? = some r →
    (p.source.position < m.network.layers.size ∧ p.target.position < m.network.layers.size) ∧ r.Fits (m.network.size p.target)
  start : m.automaton.start.hidden.size = m.network.size gh ∧ m.automaton.start.gates.size = m.network.size go

variable {c : Config α} {m m₀ later : Machine α}

namespace Founded

theorem position_lt (h : m.Founded c) {l : LayerId} (hl : l.position < controlNames.length) :
    l.position < m.network.layers.size := h.ready.good.position_lt hl

/-- Associations are stored for pathways between layers, with their sizes. -/
theorem pairs (h : m.Founded c) : m.session.pairs.Sized m.network ∧ m.session.pairs.Wired m.network := by
  refine ⟨h.ready.good.sized, fun p s hs => ?_⟩
  refine h.ready.good.numbered.ends_of_flow (Family.flow (f := .program) ?_)
  by_contra hp
  rw [h.learned p hp] at hs
  cases hs

/-- The patterns of tokens are no part of it, nor are weights and activities. -/
theorem of_keeps (h : m.Founded c) {keep : LayerId → String → Prop} (hkeeps : m.network.Keeps keep later.network)
    (hready : later.Ready c) (hlearned : ∀ p ∉ Session.learnedPathways m.network.registers, later.session.pairs[p]? = none)
    (hplasticity : later.plasticity = m.plasticity) (hautomaton : later.automaton = m.automaton) : later.Founded c := by
  refine ⟨hready, ?_, ?_, ?_, ?_, ?_, ?_⟩
  · rw [hkeeps.count]
    exact h.room
  · rw [hkeeps.size, hkeeps.gates]
    exact h.gates
  · rw [hkeeps.neededGates, hkeeps.gates]
    exact h.needed
  · rw [hkeeps.registers]
    exact hlearned
  · rw [hplasticity, hkeeps.count]
    intro p r hr
    rw [hkeeps.size]
    exact h.plasticity p r hr
  · rw [hautomaton, hkeeps.size, hkeeps.size]
    exact h.start

/-- A machine of which only weights, activities or ticks have changed. -/
theorem withState (h : m.Founded c) (weights : Weights α) (activity : Array (Pattern α)) (ticks : Nat) :
    Founded c { m with weights, activity, ticks } := by
  have hkeeps : m.network.Keeps (fun _ _ => False) m.network := .refl m.network
  exact h.of_keeps hkeeps { h.ready with } h.learned rfl rfl

end Founded

/-! ## A machine that was built -/

/-- Every gate that a machine looks at has a unit. -/
theorem unit?_of_needed {n : Network α} (hn : n.BuiltFrom c) (hroom : n.layers.size < 65536) :
    ∀ g ∈ neededGates n, ∃ u, n.gates.unit? g = some u := by
  have hcount : (controlNames ++ c.registers).length = n.layers.size := by rw [hn.size_layers, List.length_append]
  intro g hg
  refine hn.unit?_of_mem ?_
  rw [hcount]
  simp only [neededGates, List.mem_append, List.mem_map] at hg
  rcases hg with (⟨p, hp, rfl⟩ | ⟨l, hl, rfl⟩) | ⟨p, hp, rfl⟩
  · exact Network.mem_copies hp
  · rw [Network.mem_layerIds hroom] at hl
    rw [Network.mem_decays_iff, Nat.mod_eq_of_lt hroom]
    exact hl
  · exact Network.mem_learns hp

theorem getD_blank (n : Network α) {l : LayerId} (hl : l.position < n.layers.size) :
    (blank n).getD l.position #[] = (n.layer l).blank := by
  unfold blank Network.layer
  rw [Array.getD_eq_getD_getElem?, Array.getD_eq_getD_getElem?, Array.getElem?_map, Array.getElem?_eq_getElem hl]
  rfl

theorem size_blank (n : Network α) {l : LayerId} (hl : l.position < n.layers.size) :
    ((blank n).getD l.position #[]).size = n.size l := by
  rw [getD_blank n hl]
  exact Array.size_replicate

namespace BuiltFrom

variable {bare n : Network α} {s : Sequencer α}

/-- A machine over numbered layers has what its dimensions come from. -/
theorem founded (h : m.BuiltFrom c bare n s) (hconfig : m.config = c) (hroom : c.registers.length ≤ 65522) : m.Founded c := by
  have hbare := Network.builtFrom_of_build h.network
  have hkeeps := h.keeps_bare
  obtain ⟨hgoverns, hstart⟩ := h.records_fit
  have hnames : controlNames.length = 13 := rfl
  have hcount : bare.layers.size < 65536 := by
    rw [hbare.size_layers]
    omega
  have hready := (h.ready hconfig).1
  have hpairs : m.session.pairs = {} := by rw [h.session]; rfl
  refine ⟨hready, ?_, ?_, ?_, fun p _ => ?_, fun p r hr => ?_, ?_⟩
  · rw [hkeeps.count]
    exact hcount
  · rw [hkeeps.size, hkeeps.gates]
    exact hbare.size_go
  · rw [hkeeps.neededGates, hkeeps.gates]
    exact unit?_of_needed hbare hcount
  · rw [hpairs]
    exact Std.TreeMap.getElem?_emptyc
  · rw [h.plasticity] at hr
    obtain ⟨hplastic, hfits⟩ := Network.fits_plasticity hgoverns.sound hr
    rw [Network.plastic, ← h.grows_network.registers] at hplastic
    rw [h.grows_network.size]
    exact ⟨hready.good.numbered.ends_of_flow (Family.flow (f := .plastic) hplastic), hfits⟩
  · obtain ⟨gates, -, hopens⟩ := hstart.gates
    rw [h.grows_network.size, h.grows_network.size, hgoverns.keeps.size, hgoverns.keeps.size]
    exact ⟨hstart.hidden, hopens.size⟩

theorem shaped (h : m.BuiltFrom c bare n s) (hfounded : m.Founded c) (hactivity : m.activity = blank m.network) : m.Shaped := by
  obtain ⟨pointers, errors, hflash, hweights⟩ := h.pointers
  obtain ⟨pairs, hfits, hkeys, hpointers⟩ := Pointer.of_flash hflash
  have hnetwork : s.network.plasticity.2 = m.network := by
    unfold Machine.network
    rw [h.session]
    rfl
  have hwired : pairs.Wired n := by
    intro p t ht
    refine h.numbered.ends_of_flow (Family.flow (f := .pointer) ?_)
    exact (hkeys p).mp (by rw [ht]; rfl)
  have hplaced : pointers.Placed n := by
    intro p connection hconnection
    refine Weights.Placed.flash hfits hwired (fun _ _ _ => "") p connection ?_
    rw [PairMap.getElem?_flash, ← hpointers]
    exact hconnection
  have hautomaton : m.automaton.weights.Placed s.network := by
    rw [h.flashed]
    exact Sequencer.placed_flash h.governs.numbered false
  refine ⟨?_, ?_, fun l hl => ?_, hfounded.pairs⟩
  · rw [hweights, hnetwork]
    exact (((hplaced.of_keeps h.governs.keeps).of_keeps h.grows_network).extend
      (hautomaton.of_keeps h.grows_network)).resetPlastic hfounded.plasticity
  · rw [hactivity]
    exact Array.size_map
  · rw [active, hactivity]
    exact size_blank m.network hl

end BuiltFrom

/-! ## What operations keep -/

/-- A machine with what its dimensions come from, and with these dimensions. -/
structure Formed (c : Config α) (m : Machine α) : Prop where
  founded : m.Founded c
  shaped : m.Shaped

/-- A machine over numbered layers is formed when it is built. -/
theorem formed_of_build (hbuild : (build c).value = .ok m₀) (hroom : c.registers.length ≤ 65522) : m₀.Formed c := by
  obtain ⟨bare, n, s, h⟩ := builtFrom_of_build hbuild
  have hfounded := h.founded (config_of_build hbuild) hroom
  exact ⟨hfounded, h.shaped hfounded (activity_of_build hbuild)⟩

omit [Scalar α] in
theorem active_setActive (m : Machine α) (l : LayerId) (p : Pattern α) (other : LayerId) :
    (m.setActive l p).active other = if other = l ∧ l.position < m.activity.size then p else m.active other := by
  unfold active setActive
  rw [Array.getD_eq_getD_getElem?, Array.getD_eq_getD_getElem?, Array.getElem?_setIfInBounds]
  by_cases heq : other = l
  · subst heq
    by_cases hl : other.position < m.activity.size
    · simp [hl]
    · simp [hl]
  · rw [if_neg fun hposition => heq (LayerId.position_injective hposition).symm, if_neg fun h => heq h.1]

namespace Formed

variable (h : m.Formed c)
include h

theorem position_lt {l : LayerId} (hl : l.position < controlNames.length) : l.position < m.activity.size := by
  rw [h.shaped.count]
  exact h.founded.position_lt hl

/-- The pattern of a token has the size of its layer. -/
theorem size_of_pattern {l : LayerId} {token : String} {p : Pattern α} (hp : (m.network.layer l).pattern? token = some p) :
    p.size = m.network.size l := (h.founded.ready.good.sound l).sized token p hp

/-- Every layer at rest. -/
theorem rest : Formed c { m with activity := blank m.network } :=
  ⟨h.founded.withState m.weights _ m.ticks, h.shaped.connections, Array.size_map, fun _ hl => size_blank m.network hl,
    h.shaped.pairs⟩

theorem setActive {l : LayerId} {p : Pattern α} (hp : p.size = m.network.size l) :
    (m.setActive l p).Formed c := by
  refine ⟨h.founded.withState m.weights _ m.ticks, h.shaped.connections, ?_, fun other hother => ?_, h.shaped.pairs⟩
  · exact (Array.size_setIfInBounds ..).trans h.shaped.count
  · rw [active_setActive]
    split
    next heq =>
      rw [heq.1]
      exact hp
    next => exact h.shaped.activities other hother

theorem encode (l : LayerId) (token : String) :
    Formed c { m with session := { m.session with network := (m.network.encode l token).2 } } := by
  have hgrows := m.network.grows_encode l token
  have hgood := h.founded.ready.good
  have hready : Ready c { m with session := { m.session with network := (m.network.encode l token).2 } } :=
    h.founded.ready.of_keeps ⟨hgood.sound.encode l token, hgrows.numbered hgood.numbered, Session.sized_of_keeps hgood.sized hgrows⟩
      rfl (hgrows.mono fun _ _ _ => trivial)
  have hfounded : Founded c { m with session := { m.session with network := (m.network.encode l token).2 } } :=
    h.founded.of_keeps hgrows hready h.founded.learned rfl rfl
  refine ⟨hfounded, h.shaped.connections.of_keeps hgrows, ?_, fun other hother => ?_, hfounded.pairs⟩
  · exact h.shaped.count.trans hgrows.count.symm
  · exact (h.shaped.activities other (hgrows.count ▸ hother)).trans (hgrows.size other).symm

theorem hold (l : LayerId) (token : String) : (m.hold l token).Formed c := by
  refine (h.encode l token).setActive ?_
  exact (Network.size_encode h.founded.ready.good.sound l token).trans ((m.network.grows_encode l token).size l).symm

theorem holdAll (layers : List LayerId) (token : String) : (layers.foldl (fun m l => m.hold l token) m).Formed c := by
  induction layers generalizing m with
  | nil => exact h
  | cons l rest ih => exact ih (h.hold l token)

theorem rewind {entry : Pattern α} (hentry : entry.size = m.network.size ip) : (m.rewind entry).Formed c := by
  let hidden := { m with activity := blank m.network }.setActive gh m.automaton.start.hidden
  let gates := hidden.setActive go m.automaton.start.gates
  let pointer := gates.setActive ip entry
  have hhidden : hidden.Formed c := h.rest.setActive h.founded.start.1
  have hgates : gates.Formed c := hhidden.setActive h.founded.start.2
  have hpointer : pointer.Formed c := hgates.setActive hentry
  have hrewind : m.rewind entry = Pointer.layers.foldl (fun m l => m.hold l (Pointer.slotToken 0)) (pointer.hold co falseToken) := rfl
  rw [hrewind]
  exact (hpointer.hold co falseToken).holdAll _ _

theorem holdRegisters (registers : List (String × String)) : (m.holdRegisters registers).2.Formed c := by
  induction registers generalizing m with
  | nil => exact h
  | cons r rest ih =>
    unfold Machine.holdRegisters
    split
    · split
      · exact ih (h.hold _ r.2)
      · exact h
    · exact h

theorem entry {program : String} {p : Pattern α} (hp : m.entry? program = some p) : p.size = m.network.size ip := by
  unfold entry? at hp
  split at hp
  · exact h.size_of_pattern hp
  · cases hp

/-- Plastic pathways at their baselines. -/
theorem reset : Formed c { m with weights := m.network.resetPlastic m.plasticity m.weights, ticks := 0 } :=
  ⟨h.founded.withState _ m.activity 0, h.shaped.connections.resetPlastic h.founded.plasticity, h.shaped.count,
    h.shaped.activities, h.shaped.pairs⟩

theorem load (program : String) (registers : List (String × String)) : (m.load program registers).value.2.Formed c := by
  unfold Machine.load
  cases hentry : m.entry? program with
  | none => exact h
  | some entry =>
    have hheld := (h.rewind (h.entry hentry)).holdRegisters registers
    dsimp only
    rcases hrun : (m.rewind entry).holdRegisters registers with ⟨e | u, held⟩
    · rw [hrun] at hheld
      exact hheld
    · rw [hrun] at hheld
      exact hheld.reset

/-- Adding a program, also when it fails. -/
theorem assembleProgram {program : Program} (hp : program.Labelled) (name : String) :
    (m.assembleProgram program name).value.2.Formed c := by
  have hgood := h.founded.ready.good
  have hready : (m.assembleProgram program name).value.2.Ready c :=
    h.founded.ready.of_comes (comes_of_assembleProgram h.founded.ready hp (Prod.mk.eta (p := (m.assembleProgram program name).value)).symm)
  have havoid : ∀ p ∈ Session.learnedPathways m.network.registers, ¬ p ∉ Session.learnedPathways m.network.registers :=
    fun _ hp hnot => hnot hp
  have hspares := (Session.secures_assemble hgood.numbered havoid program name m.config.orthogonal false m.session
    ⟨.refl _, h.founded.learned⟩).1
  unfold Machine.assembleProgram at hready ⊢
  rw [Noted.value_bind] at hready
  rw [Noted.value_bind]
  rcases hrun : ((Session.assemble program name m.config.orthogonal false).run.run m.session).value with ⟨e | a, session⟩
  · rw [hrun] at hready hspares
    have hfounded : Founded c { m with session } := h.founded.of_keeps hspares.network hready hspares.pairs rfl rfl
    refine ⟨hfounded, h.shaped.connections.of_keeps hspares.network, ?_, fun l hl => ?_, hfounded.pairs⟩
    · exact h.shaped.count.trans hspares.network.count.symm
    · exact (h.shaped.activities l (hspares.network.count ▸ hl)).trans (hspares.network.size l).symm
  · rw [hrun] at hready hspares
    have hfounded : Founded c { m with session, weights := m.weights.extend a.weights } :=
      h.founded.of_keeps hspares.network hready hspares.pairs rfl rfl
    obtain ⟨warning, hweights⟩ := Session.weights_of_assemble (show Session.Does _ _ a session from hrun)
    have hplaced : a.weights.Placed session.network := by
      rw [hweights]
      exact .flash (fun p s hs => (hfounded.pairs.1 p s hs).2) hfounded.pairs.2 warning
    refine ⟨hfounded, (h.shaped.connections.of_keeps hspares.network).extend hplaced, ?_, fun l hl => ?_, hfounded.pairs⟩
    · exact h.shaped.count.trans hspares.network.count.symm
    · exact (h.shaped.activities l (hspares.network.count ▸ hl)).trans (hspares.network.size l).symm

theorem assemble (source name : String) : (m.assemble source name).value.2.Formed c := by
  unfold Machine.assemble
  cases hparse : Program.parse m.network.registerNames source with
  | error e => exact h
  | ok program => exact h.assembleProgram (Program.labelled_of_parse hparse) name

/-- What a connection carries has the size of its target. -/
theorem size_add_drive {p : Pathway} {w : Connection α} (hw : m.weights[p]? = some w) {sum : Pattern α}
    (hsum : sum.size = m.network.size p.target) (x : Pattern α) : (sum.add (w.drive x)).size = m.network.size p.target := by
  have hspans := (h.shaped.connections p w hw).2
  rw [Pattern.size_add, Connection.size_drive hspans.fits, hspans.rows, hsum, Nat.min_self]

/-- What a layer takes up has its size, whatever gates are open. -/
theorem size_input (open' : List Gate) {l : LayerId} (hl : l.position < m.network.layers.size) :
    (m.input open' l).size = m.network.size l := by
  have hown : (if open'.contains (.decay l) then Pattern.zero (m.network.size l)
      else (m.active l).map (m.network.activator l).recurrent : Pattern α).size = m.network.size l := by
    split
    · exact Array.size_replicate
    · exact Array.size_map.trans (h.shaped.activities l hl)
  refine List.foldlRecOn (motive := fun sum : Pattern α => sum.size = m.network.size l) _ _ hown fun sum hsum p hp => ?_
  have htarget := (List.mem_filter.mp hp).2
  rw [Bool.and_eq_true] at htarget
  obtain rfl : p.target = l := beq_iff_eq.mp htarget.1
  split
  next w hw => exact h.size_add_drive hw hsum _
  next => exact hsum

/-- Learning changes no dimension. -/
theorem placed_learnPathway {w : Weights α} (hw : w.Placed m.network) (q : Pathway) :
    (m.learnPathway w q).value.Placed m.network := by
  rcases m.learnPathway_cases w q with heq | ⟨r, w', hr, hc, heq⟩
  · rw [heq]
    exact hw
  · obtain ⟨hq, hfits⟩ := h.founded.plasticity q r hr
    rw [heq]
    exact hw.insert hq (hfits.write (hw q w' hc).2 (h.shaped.activities q.target hq.2))

theorem tick : m.tick.value.Formed c := by
  have hfounded : m.tick.value.Founded c := h.founded.withState (m.learned m.openGates).value
    (m.network.layerIds.map (m.next m.openGates)).toArray (m.ticks + 1)
  have hcount : m.tick.value.activity.size = m.network.layers.size := by
    show (m.network.layerIds.map (m.next m.openGates)).toArray.size = _
    simp [Network.layerIds]
  have hlearned : (m.learned m.openGates).value.Placed m.network :=
    m.learned_induction (P := fun w => w.Placed m.network) _ (fun _ q _ _ hw => h.placed_learnPathway hw q) h.shaped.connections
  refine ⟨hfounded, hlearned, hcount, fun l hl => ?_, h.shaped.pairs⟩
  have hl : l.position < m.network.layers.size := hl
  rw [active_tick hl, next, Array.size_map, h.size_input m.openGates hl]
  rfl

/-- No call changes a dimension, whether it succeeds or fails. -/
theorem perform (o : Operation α) : (m.perform o).2.Formed c := by
  cases o with
  | assemble source name => exact h.assemble source name
  | load program registers => exact h.load program registers
  | move motion =>
    exact move_induction (P := Formed c) (fun _ hm => hm.tick) (fun _ _ _ hm hp => hm.setActive hp) h motion

theorem performAll (operations : List (Operation α)) : (m.performAll operations).2.Formed c :=
  performAll_induction (P := Formed c) (fun _ o hm => hm.perform o) h operations

end Formed

end Machine

end Engram
