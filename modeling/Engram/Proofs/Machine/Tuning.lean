/-
  Engram.Proofs.Machine.Tuning — weights that recall ideally.

  What is said about machines that recall ideally speaks of some machine only if weights can be
  that good. Here are such weights for the three states that every instruction passes, over
  numbers in millionths at levels for which all sums come out exact. The hidden layer decides on
  the next state by one unit, which `load` has the other way than `start` (`Connection.either`). So
  it takes `ready` for one of the two; what that lacks, the opcode adds (`tuned`).

  A machine with these weights recalls ideally at each of the three states (`ideal_start`,
  `ideal_load`, `ideal_ready`), and so for all of an instruction that does nothing (`idealStep_nop`).
-/

import Engram.Proofs.Exact.Entries
import Engram.Proofs.Machine.Instructions
import Engram.Proofs.Scalar.Sums

namespace Engram

open LayerId

theorem Fixed.zero_mul (x : Fixed) : 0 * x = 0 := by
  show Fixed.mk (Int.tdiv (0 * x.millionths) Fixed.scale) = ⟨0⟩
  rw [Int.zero_mul, Int.zero_tdiv]

/-- The small configuration with levels that are kept exactly. -/
def exactConfig : Config Fixed := { smallConfig with pad := ⟨400000⟩ }

theorem isOn_exactConfig : ∀ bit, exactConfig.activator.isOn (exactConfig.activator.level bit) = bit := by decide +kernel

/-- Retention changes nothing. -/
theorem hold_exactConfig (y : Fixed) : exactConfig.activator.hold y = y := by
  have hgain : exactConfig.activator.gain = ⟨1000000⟩ := by decide +kernel
  have hmidpoint : exactConfig.activator.midpoint = ⟨0⟩ := by decide +kernel
  have hinverse : exactConfig.activator.inverse ⟨0⟩ = ⟨0⟩ := by decide +kernel
  show exactConfig.activator.inverse exactConfig.activator.midpoint +
    exactConfig.activator.gain * (y - exactConfig.activator.midpoint) = y
  rw [hmidpoint, hinverse, hgain]
  show Fixed.mk (0 + Int.tdiv (1000000 * (y.millionths - 0)) 1000000) = y
  rw [Int.sub_zero, Int.zero_add, Int.mul_tdiv_cancel_left _ (by decide)]

/-- Every unit is at one of the levels. -/
def Leveled (p : Pattern Fixed) : Prop := ∀ i < p.size, ∃ bit, p.entry i = exactConfig.activator.level bit

/-- Patterns with different bits differ at some unit. -/
theorem exists_unit {p q : Pattern Fixed} (a : Activator Fixed) (hsize : p.size = q.size) (h : a.bits p ≠ a.bits q) :
    ∃ u < p.size, q.entry u ≠ p.entry u := by
  by_contra hnone
  push Not at hnone
  exact h (congrArg a.bits (Pattern.ext_entry hsize fun u hu => (hnone u hu).symm))

/-! ## Connections -/

namespace Connection

/-- A connection that looks at one unit of its source. -/
def ofUnit (height width u : Nat) (slope bias : Pattern Fixed) : Connection Fixed :=
  ⟨.ofRows height width (Array.ofFn fun i : Fin height => Array.ofFn fun j : Fin width =>
    if j.val = u then slope.entry i else 0), bias⟩

theorem size_drive_ofUnit {height width u : Nat} {slope bias x : Pattern Fixed} (hbias : bias.size = height) :
    ((ofUnit height width u slope bias).drive x).size = height := by
  unfold drive
  rw [Pattern.size_add, Matrix.size_apply]
  show min height bias.size = height
  rw [hbias, Nat.min_self]

theorem entry_drive_ofUnit {height width u : Nat} {slope bias x : Pattern Fixed}
    (hu : u < width) (hx : x.size = width) (hbias : bias.size = height) {i : Nat} (hi : i < height) :
    ((ofUnit height width u slope bias).drive x).entry i = slope.entry i * x.entry u + bias.entry i := by
  have hentry : ∀ j < width, (ofUnit height width u slope bias).weights.entry i j = if j = u then slope.entry i else 0 := by
    intro j hj
    unfold ofUnit
    rw [Matrix.entry_ofRows _ hi hj]
    have hrow : (Array.ofFn fun i : Fin height => Array.ofFn fun j : Fin width => if j.val = u then slope.entry i else 0).getD
        i #[] = Array.ofFn fun j : Fin width => if j.val = u then slope.entry i else 0 := by
      simp [Array.getD, hi]
    rw [hrow, Pattern.entry_ofFn _ hj]
  have happly : ((ofUnit height width u slope bias).weights.apply x).entry i = slope.entry i * x.entry u := by
    have hheight : i < (ofUnit height width u slope bias).weights.height := hi
    unfold Matrix.apply
    rw [Pattern.entry_ofFn _ hheight]
    show Scalar.sumBelow (min width x.size) _ = _
    rw [hx, Nat.min_self, Scalar.sumBelow_eq_term hu]
    · rw [hentry u hu, if_pos rfl]
    · intro j hj hne
      rw [hentry j hj, if_neg hne]
      exact Fixed.zero_mul _
  unfold drive
  rw [Pattern.entry_add (by rw [Matrix.size_apply]; exact hi) (hbias.symm ▸ hi), happly]
  rfl

/-- A connection that yields `y` for inputs that have a unit as `x` has it, and `y'` for the others. -/
def either (u : Nat) (x y y' : Pattern Fixed) : Connection Fixed :=
  ofUnit y.size x.size u (y.zipWith (fun a b => (a - b) / (x.entry u + x.entry u)) y')
    (y.zipWith (fun a b => (a + b) / ((2 : Nat) : Fixed)) y')

/-- A connection that yields one pattern for all inputs. -/
def always (width : Nat) (y : Pattern Fixed) : Connection Fixed := ofUnit y.size width 0 (Pattern.zero y.size) y

theorem drive_always {width : Nat} {x y : Pattern Fixed} (hwidth : 0 < width) (hx : x.size = width) :
    (always width y).drive x = y := by
  refine Pattern.ext_entry (size_drive_ofUnit rfl) fun i hi => ?_
  unfold always at hi ⊢
  rw [size_drive_ofUnit rfl] at hi
  rw [entry_drive_ofUnit hwidth hx rfl hi, Pattern.zero, Pattern.entry_replicate, ite_self, Fixed.zero_mul, Scalar.zero_add]

theorem drive_either {u : Nat} {x y y' z : Pattern Fixed} (hx : Leveled x) (hy : Leveled y) (hy' : Leveled y') (hz : Leveled z)
    (hsize : y'.size = y.size) (hzsize : z.size = x.size) (hu : u < x.size) :
    (either u x y y').drive z = if z.entry u = x.entry u then y else y' := by
  have hwidth : (y.zipWith (fun a b => (a + b) / ((2 : Nat) : Fixed)) y').size = y.size := by
    rw [Array.size_zipWith, hsize, Nat.min_self]
  have hgoal : (if z.entry u = x.entry u then y else y').size = y.size := by
    split
    · rfl
    · exact hsize
  refine Pattern.ext_entry (by rw [hgoal]; exact size_drive_ofUnit hwidth) fun i hi => ?_
  unfold either at hi ⊢
  rw [size_drive_ofUnit hwidth] at hi
  have hi' : i < y'.size := hsize ▸ hi
  rw [entry_drive_ofUnit hu hzsize hwidth hi, Pattern.entry_zipWith _ hi hi', Pattern.entry_zipWith _ hi hi']
  obtain ⟨a, ha⟩ := hx u hu
  obtain ⟨b, hb⟩ := hz u (hzsize ▸ hu)
  obtain ⟨c, hc⟩ := hy i hi
  obtain ⟨d, hd⟩ := hy' i hi'
  have hentry : (if z.entry u = x.entry u then y else y').entry i = if z.entry u = x.entry u then y.entry i else y'.entry i := by
    split <;> rfl
  rw [hentry, ha, hb, hc, hd]
  have hall : ∀ a b c d : Bool, (exactConfig.activator.level c - exactConfig.activator.level d) /
      (exactConfig.activator.level a + exactConfig.activator.level a) * exactConfig.activator.level b +
      (exactConfig.activator.level c + exactConfig.activator.level d) / ((2 : Nat) : Fixed) =
      if exactConfig.activator.level b = exactConfig.activator.level a then exactConfig.activator.level c
        else exactConfig.activator.level d := by decide +kernel
  exact hall a b c d

end Connection

namespace Machine

/-! ## Weights -/

/-- The control layers, with what a state holds of them. -/
def controlParts : List (LayerId × (ControlState Fixed → Pattern Fixed)) := [(gh, (·.hidden)), (go, (·.gates))]

/-- What `ready` leads to by the hidden layer alone. -/
def hiddenAlone (start load ready : ControlState Fixed) (u : Nat) (part : ControlState Fixed → Pattern Fixed) : Pattern Fixed :=
  if ready.hidden.entry u = start.hidden.entry u then part load else part ready

/-- Connections that take a machine from `start` over `load` to `ready`, and from there, with what comes
from the opcode, back to `start`; and that carry the given patterns from the instruction pointer. -/
def tuned (n : Network Fixed) (start load ready : ControlState Fixed) (u : Nat) (target : LayerId → Pattern Fixed) :
    List (Pathway × Connection Fixed) :=
  (controlParts.flatMap fun x =>
    [(⟨x.1, gh⟩, .either u start.hidden (x.2 load) (x.2 ready)),
      (⟨x.1, opc⟩, .always (n.size opc) ((x.2 start).zipWith (· - ·) (hiddenAlone start load ready u x.2)))]) ++
    [ip, opc, op1, op2].map fun l => (⟨l, ip⟩, .always (n.size ip) (target l))

theorem nodup_tuned (n : Network Fixed) (start load ready : ControlState Fixed) (u : Nat) (target : LayerId → Pattern Fixed) :
    ((tuned n start load ready u target).map (·.1)).Nodup := by
  have hkeys : (tuned n start load ready u target).map (·.1) =
      [⟨gh, gh⟩, ⟨gh, opc⟩, ⟨go, gh⟩, ⟨go, opc⟩, ⟨ip, ip⟩, ⟨opc, ip⟩, ⟨op1, ip⟩, ⟨op2, ip⟩] := rfl
  rw [hkeys]
  decide

theorem arriving_one {m : Machine Fixed} {l source : LayerId} {c : Connection Fixed}
    (hweight : m.weights[(⟨l, source⟩ : Pathway)]? = some c) (hactivator : m.network.activator l = exactConfig.activator)
    (hsize : (c.drive (m.active source)).size = m.network.size l) : m.arriving l [source] = c.drive (m.active source) := by
  unfold arriving summed
  rw [List.foldl_cons, List.foldl_nil, hweight, hactivator]
  dsimp only
  rw [BuiltFrom.zero_add hsize]
  exact Array.map_id' _

theorem arriving_two {m : Machine Fixed} {l first second : LayerId} {c d : Connection Fixed}
    (hfirst : m.weights[(⟨l, first⟩ : Pathway)]? = some c) (hsecond : m.weights[(⟨l, second⟩ : Pathway)]? = some d)
    (hactivator : m.network.activator l = exactConfig.activator)
    (hsize : (c.drive (m.active first)).size = m.network.size l) :
    m.arriving l [first, second] = (c.drive (m.active first)).add (d.drive (m.active second)) := by
  unfold arriving summed
  rw [List.foldl_cons, List.foldl_cons, List.foldl_nil, hfirst, hsecond, hactivator]
  dsimp only
  rw [BuiltFrom.zero_add hsize]
  exact Array.map_id' _

/-- What is missing makes up for what is there. -/
theorem add_missing {x y : Pattern Fixed} (h : x.size = y.size) : x.add (y.zipWith (· - ·) x) = y := by
  have hsize : (y.zipWith (· - ·) x).size = y.size := by rw [Array.size_zipWith, h, Nat.min_self]
  refine Pattern.ext_entry (by rw [Pattern.size_add, hsize, h, Nat.min_self]) fun i hi => ?_
  rw [Pattern.size_add, hsize, h, Nat.min_self] at hi
  rw [Pattern.entry_add (h ▸ hi) (hsize.symm ▸ hi), Pattern.entry_zipWith _ hi (h ▸ hi)]
  show Fixed.mk ((x.entry i).millionths + ((y.entry i).millionths - (x.entry i).millionths)) = y.entry i
  rw [Int.add_comm, Int.sub_add_cancel]

/-- A machine with tuned weights for three states at the levels, of which a unit tells `load` from `start`. -/
structure Tuned (m : Machine Fixed) (start load ready : ControlState Fixed) (u : Nat) (target : LayerId → Pattern Fixed) :
    Prop where
  weights : ∀ x ∈ tuned m.network start load ready u target, m.weights[x.1]? = some x.2
  activator : ∀ l ∈ [gh, go, ip, opc, op1, op2], m.network.activator l = exactConfig.activator
  parts : ∀ x ∈ controlParts, ∀ state ∈ [start, load, ready], Leveled (x.2 state) ∧ (x.2 state).size = m.network.size x.1
  unit : u < m.network.size gh
  differs : load.hidden.entry u ≠ start.hidden.entry u
  inhabited : 0 < m.network.size opc ∧ 0 < m.network.size ip

namespace Tuned

variable {m : Machine Fixed} {start load ready state : ControlState Fixed} {u : Nat} {target : LayerId → Pattern Fixed}
  {x : LayerId × (ControlState Fixed → Pattern Fixed)} (h : Tuned m start load ready u target)

include h

theorem tick (hweights : m.tick.value.weights = m.weights) : Tuned m.tick.value start load ready u target :=
  ⟨fun x hx => by rw [hweights]; exact h.weights x hx, h.activator, h.parts, h.unit, h.differs, h.inhabited⟩

theorem activator_part (hx : x ∈ controlParts) : m.network.activator x.1 = exactConfig.activator := by
  have hlayers : ∀ x ∈ controlParts, x.1 ∈ [gh, go, ip, opc, op1, op2] := by decide
  exact h.activator _ (hlayers x hx)

/-- What comes into a control layer from the hidden layer. -/
theorem drive (hx : x ∈ controlParts) (hstate : state ∈ [start, load, ready]) (hactive : m.active gh = state.hidden) :
    (Connection.either u start.hidden (x.2 load) (x.2 ready)).drive (m.active gh) =
      if state.hidden.entry u = start.hidden.entry u then x.2 load else x.2 ready := by
  have hstart := h.parts (gh, (·.hidden)) List.mem_cons_self start List.mem_cons_self
  have hheld := h.parts (gh, (·.hidden)) List.mem_cons_self state hstate
  have hload := h.parts x hx load (by simp)
  have hready := h.parts x hx ready (by simp)
  rw [hactive]
  exact Connection.drive_either hstart.1 hload.1 hready.1 hheld.1 (hready.2.trans hload.2.symm) (hheld.2.trans hstart.2.symm)
    (hstart.2.symm ▸ h.unit)

theorem size_drive (hx : x ∈ controlParts) (hstate : state ∈ [start, load, ready]) (hactive : m.active gh = state.hidden) :
    ((Connection.either u start.hidden (x.2 load) (x.2 ready)).drive (m.active gh)).size = m.network.size x.1 := by
  rw [h.drive hx hstate hactive]
  split
  · exact (h.parts x hx load (by simp)).2
  · exact (h.parts x hx ready (by simp)).2

theorem arriving (hx : x ∈ controlParts) (hstate : state ∈ [start, load, ready]) (hactive : m.active gh = state.hidden) :
    m.arriving x.1 [gh] = if state.hidden.entry u = start.hidden.entry u then x.2 load else x.2 ready := by
  have hweight : m.weights[(⟨x.1, gh⟩ : Pathway)]? = some (.either u start.hidden (x.2 load) (x.2 ready)) :=
    h.weights (⟨x.1, gh⟩, _) (List.mem_append_left _ (List.mem_flatMap.mpr ⟨x, hx, List.mem_cons_self⟩))
  rw [← h.drive hx hstate hactive]
  exact arriving_one hweight (h.activator_part hx) (h.size_drive hx hstate hactive)

/-- From `start` to `load`. -/
theorem arriving_start (hx : x ∈ controlParts) (hactive : m.active gh = start.hidden) : m.arriving x.1 [gh] = x.2 load := by
  rw [h.arriving hx (by simp) hactive, if_pos rfl]

/-- From `load` to `ready`. -/
theorem arriving_load (hx : x ∈ controlParts) (hactive : m.active gh = load.hidden) : m.arriving x.1 [gh] = x.2 ready := by
  rw [h.arriving hx (by simp) hactive, if_neg h.differs]

/-- From `ready` back to `start`. -/
theorem arriving_ready (hx : x ∈ controlParts) (hactive : m.active gh = ready.hidden)
    (hopcode : (m.active opc).size = m.network.size opc) : m.arriving x.1 [gh, opc] = x.2 start := by
  have hweight : m.weights[(⟨x.1, gh⟩ : Pathway)]? = some (.either u start.hidden (x.2 load) (x.2 ready)) :=
    h.weights (⟨x.1, gh⟩, _) (List.mem_append_left _ (List.mem_flatMap.mpr ⟨x, hx, List.mem_cons_self⟩))
  have hweight' : m.weights[(⟨x.1, opc⟩ : Pathway)]? =
      some (.always (m.network.size opc) ((x.2 start).zipWith (· - ·) (hiddenAlone start load ready u x.2))) :=
    h.weights (⟨x.1, opc⟩, _)
      (List.mem_append_left _ (List.mem_flatMap.mpr ⟨x, hx, List.mem_cons_of_mem _ List.mem_cons_self⟩))
  have hsize := h.size_drive hx (by simp : ready ∈ [start, load, ready]) hactive
  have hdrive := h.drive hx (by simp : ready ∈ [start, load, ready]) hactive
  rw [arriving_two hweight hweight' (h.activator_part hx) hsize, Connection.drive_always h.inhabited.1 hopcode]
  rw [hdrive] at hsize ⊢
  exact add_missing (hsize.trans (h.parts x hx start List.mem_cons_self).2.symm)

/-- From the instruction pointer. -/
theorem arriving_pointer {l : LayerId} (hl : l ∈ [ip, opc, op1, op2]) (hactive : (m.active ip).size = m.network.size ip)
    (htarget : (target l).size = m.network.size l) : m.arriving l [ip] = target l := by
  have hlayers : ∀ l ∈ [ip, opc, op1, op2], l ∈ [gh, go, ip, opc, op1, op2] := by decide
  have hweight : m.weights[(⟨l, ip⟩ : Pathway)]? = some (.always (m.network.size ip) (target l)) :=
    h.weights (⟨l, ip⟩, _) (List.mem_append_right _ (List.mem_map.mpr ⟨l, hl, rfl⟩))
  have hdrive := Connection.drive_always (y := target l) h.inhabited.2 hactive
  rw [arriving_one hweight (h.activator l (hlayers l hl)) (by rw [hdrive, htarget]), hdrive]

end Tuned

/-! ## Three ticks -/

/-- The states of an instruction that does nothing. -/
theorem walk_nop {registers : List (LayerId × String)} {start load ready halted : ControlState Fixed} {s : Sequencer Fixed}
    (h : Sequencer.Recorded registers start load ready halted s) {o : Readings} (ho : o.Valid registers) :
    s.Takes start (.tick Processor.loading.gates) load ∧ s.Takes load (.tick (Transfer.reading opc).gates) ready ∧
      s.Takes ready (.enter .nop Transfer.rest.gates) start := by
  obtain ⟨states, hload, hready, hrest⟩ := h.walk_home (by decide : Opcode.nop ≠ .exit) ho
  cases states with
  | nil => exact ⟨hload, hready, hrest.1⟩
  | cons x states => cases states <;> exact hrest.2.elim

section

variable {m : Machine Fixed} {s : Sequencer Fixed} {log : Log Fixed} {v : Processor} {e : Wiring} {i : Instruction}
  {here after : String}

/-- What is carried from the instruction pointer is associated by the programs, and by nothing else. -/
theorem exists_loaded (hset : Setting s m.session m.config.pointerSlots e) (hsound : m.session.network.Sound)
    (hloads : Processor.Loads e i here after) {x : Pattern Fixed} (hx : (m.session.network.layer ip).pattern? here = some x)
    {l : LayerId} (hl : l ∈ [ip, opc, op1, op2]) {y : Pattern Fixed}
    (hy : y = (m.session.pairs.target? ⟨l, ip⟩ x).getD #[]) : y.size = m.session.network.size l ∧
      ∀ log y', Associated m.session m.config.pointerSlots log ⟨l, ip⟩ x y' → y = y' := by
  have hwire : ∃ f t, e ⟨l, ip⟩ = some f ∧ f here = some t := by
    simp only [List.mem_cons, List.not_mem_nil, or_false] at hl
    rcases hl with rfl | rfl | rfl | rfl
    · exact hloads.next.imp fun f hf => ⟨_, hf⟩
    · exact hloads.opcode.imp fun f hf => ⟨_, hf⟩
    · exact hloads.first.imp fun f hf => ⟨_, hf⟩
    · exact hloads.second.imp fun f hf => ⟨_, hf⟩
  have hlayers : ∀ l ∈ [ip, opc, op1, op2], (l = ip ∨ l ∈ Session.fieldLayers.map (·.2)) ∧ ∀ z ∈ Pointer.moves, z.1 ≠ ⟨l, ip⟩ := by
    decide
  obtain ⟨hfields, hmoves⟩ := hlayers l hl
  have hplastic : (⟨l, ip⟩ : Pathway) ∉ m.session.network.plastic :=
    not_mem_plastic_of_load (fun r hr => Nat.not_lt.mpr (hset.numbered.registers r hr).1) hfields
  obtain ⟨f, t, hf, ht⟩ := hwire
  obtain ⟨z, hz, hassociated⟩ := hset.wired.leads _ f hf here t x ht hx
  have hfound := (hassociated fun _ => []).target? hplastic hmoves
  obtain rfl : y = z := by rw [hy, hfound, Option.getD_some]
  refine ⟨(hsound l).sized _ _ hz, fun log y' hy' => ?_⟩
  exact Option.some.inj (hfound.symm.trans (hy'.target? hplastic hmoves))

variable {start load ready : ControlState Fixed} {u : Nat} {target : LayerId → Pattern Fixed}

section

variable (hset : Setting s m.session m.config.pointerSlots e) (htraced : s.Traced start)
  (hheld : ∀ l, l ≠ gh → ∀ t p, (m.network.layer l).pattern? t = some p → p.map (m.network.activator l).hold = p)
  (htuned : Tuned m start load ready u target)

include hset htraced hheld htuned

theorem ideal_start (hat : m.At log start .rest v) (hload : s.Takes start (.tick Processor.loading.gates) load) : m.Ideal s log :=
  hat.ideal hset htraced hload (fun _ hc => .inl (List.mem_singleton.mp hc))
    (htuned.arriving_start (x := (gh, ControlState.hidden)) List.mem_cons_self hat.hidden)
    (htuned.arriving_start (x := (go, ControlState.gates)) (List.mem_cons_of_mem _ List.mem_cons_self) hat.hidden) nofun hheld

theorem ideal_load (hsound : m.session.network.Sound) (hloads : Processor.Loads e i here after)
    (hat : m.At log load Processor.loading v) (hready : s.Takes load (.tick (Transfer.reading opc).gates) ready)
    (hplace : (m.network.layer ip).pattern? here = some (m.active ip))
    (htarget : target = fun l => (m.session.pairs.target? ⟨l, ip⟩ (m.active ip)).getD #[]) : m.Ideal s log := by
  have hflows : ∀ p ∈ Processor.loading.flows, p.target ∈ [ip, opc, op1, op2] ∧ p.source = ip := by decide
  refine hat.ideal hset htraced hready (fun _ hc => .inl (List.mem_singleton.mp hc))
    (htuned.arriving_load (x := (gh, ControlState.hidden)) List.mem_cons_self hat.hidden)
    (htuned.arriving_load (x := (go, ControlState.gates)) (List.mem_cons_of_mem _ List.mem_cons_self) hat.hidden)
    (fun p hp y hy => ?_) hheld
  obtain ⟨l, source⟩ := p
  obtain ⟨hl, rfl⟩ := hflows _ hp
  obtain ⟨hsized, hdetermined⟩ := exists_loaded hset hsound hloads hplace hl (congrFun htarget l)
  rw [htuned.arriving_pointer hl ((hsound ip).sized _ _ hplace) hsized]
  exact hdetermined log y hy

theorem ideal_ready (hsound : m.session.network.Sound) (hat : m.At log ready (.reading opc) v)
    (hback : s.Takes ready (.enter .nop Transfer.rest.gates) start) (hopcode : v.token opc = some Opcode.nop.mnemonic) :
    m.Ideal s log := by
  have hsize : (m.active opc).size = m.network.size opc := (hsound opc).sized _ _ (hat.shows.token _ _ hopcode)
  refine hat.ideal hset htraced hback (fun c hc => ?_)
    (htuned.arriving_ready (x := (gh, ControlState.hidden)) List.mem_cons_self hat.hidden hsize)
    (htuned.arriving_ready (x := (go, ControlState.gates)) (List.mem_cons_of_mem _ List.mem_cons_self) hat.hidden hsize) nofun hheld
  obtain ⟨op, -, rfl⟩ := List.mem_map.mp hc
  by_cases hop : op = .nop
  · exact .inl (by rw [hop]; rfl)
  · have hname : ∀ op : Opcode, op ≠ .nop → Opcode.nop.mnemonic ≠ op.mnemonic := by
      intro op
      cases op <;> decide
    exact .inr ⟨_, rfl, _, hname op hop, hopcode⟩

end

theorem hub_of_start (hset : Setting s m.session m.config.pointerSlots e) {a : Transfer} (hat : m.At log start a v)
    (hname : s.stateName start = "start") : m.atHub = true := by
  unfold atHub atStart
  rw [hat.holding hset, hname]
  rfl

/-- With tuned weights a machine recalls ideally for the three ticks of an instruction that does nothing. -/
theorem idealStep_nop (hset : Setting s m.session m.config.pointerSlots e) (hsound : m.session.network.Sound)
    (hheld : ∀ l, l ≠ gh → ∀ t p, (m.network.layer l).pattern? t = some p → p.map (m.network.activator l).hold = p)
    {registers : List (LayerId × String)} {halted : ControlState Fixed}
    (hrecorded : Sequencer.Recorded registers start load ready halted s) (hloads : Processor.Loads e i here after)
    (hop : i.opcode = .nop) (hat : m.At log start .rest (v.set ip (some here)))
    (htuned : Tuned m start load ready u fun l => (m.session.pairs.target? ⟨l, ip⟩ (m.active ip)).getD #[]) :
    m.IdealStep s log := by
  have hexact : ∀ x y : Fixed, Scalar.same x y = true → x = y := fun x y => (Fixed.same_iff x y).mp
  obtain ⟨x, hx⟩ := List.exists_mem_of_ne_nil _ hrecorded.inhabited
  obtain ⟨hload, hready, hback⟩ := walk_nop hrecorded (⟨hx, hx⟩ : (⟨x, x, true⟩ : Readings).Valid registers)
  have hideal := ideal_start hset hrecorded.traced hheld htuned hat hload
  have hat₁ : m.tick.value.At (m.logged log) load Processor.loading (v.set ip (some here)) :=
    hat.tick hset hexact hideal hload Processor.legal_rest rfl nofun
  have htuned₁ := htuned.tick (hat.weights_tick hset rfl)
  have hhere := hat.shows.token ip here (Processor.token_set_self ..)
  have hplace : (m.network.layer ip).pattern? here = some (m.tick.value.active ip) :=
    hat₁.shows.token ip here (Processor.token_set_self ..)
  have hsame : m.tick.value.active ip = m.active ip := Option.some.inj (hplace.symm.trans hhere)
  have hideal₁ : m.tick.value.Ideal s (m.logged log) :=
    ideal_load hset hrecorded.traced hheld htuned₁ hsound hloads hat₁ hready hplace (by rw [hsame]; rfl)
  have hat₂ : m.tick.value.tick.value.At (m.tick.value.logged (m.logged log)) ready (.reading opc) (v.fetch i after) := by
    have hafter := Processor.after_loading hloads (Processor.token_set_self v ip (some here))
    rw [Processor.fetch_set_place] at hafter
    rw [← hafter]
    exact hat₁.tick hset hexact hideal₁ hready Processor.legal_loading rfl nofun
  have htuned₂ := htuned₁.tick (hat₁.weights_tick hset rfl)
  have hopcode : (v.fetch i after).token opc = some Opcode.nop.mnemonic := by
    unfold Processor.fetch
    rw [Processor.token_set_of_ne _ (by decide), Processor.token_set_of_ne _ (by decide), Processor.token_set_self, hop]
  have hideal₂ : m.tick.value.tick.value.Ideal s (m.tick.value.logged (m.logged log)) :=
    ideal_ready hset hrecorded.traced hheld htuned₂ hsound hat₂ hback hopcode
  have hat₃ := hat₂.tick hset hexact hideal₂ hback (Processor.legal_reading opc) rfl fun c hc => by
    obtain rfl := Option.some.inj hc
    exact hopcode
  have hhub : m.tick.value.tick.value.tick.value.atHub = true := hub_of_start hset hat₃ hrecorded.startName
  intro k hk
  match k with
  | 0 => exact hideal
  | 1 => exact hideal₁
  | 2 => exact hideal₂
  | k + 3 =>
    have hnot : m.tick.value.tick.value.tick.value.atHub = false := hk 3 (by omega) (by omega)
    exact absurd (hhub.symm.trans hnot) (by decide)

end

end Machine

end Engram
