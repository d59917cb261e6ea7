/-
  Engram.Proofs.Machine.Execution — one step of the network is one instruction.

  A machine that recalls ideally follows the way of the opcode, so a step carries out the
  instruction at hand as a processor does (`step_executes`). That there are such machines is shown
  on a small one, with two programs and weights that are tuned to the states it passes.
-/

import Engram.Proofs.Machine.Instructions
import Engram.Proofs.Machine.Loading
import Engram.Proofs.Machine.Tuning

namespace Engram

open LayerId

namespace Machine

section

variable {α : Type} [Scalar α] {s : Sequencer α} {m m₀ : Machine α} {log : Log α} {v : Processor} {c : Config α}
  {bare n : Network α} {calls : List Session.Call}

/-- One step of a machine is one instruction. Let the machine run programs that were assembled on it,
with states and tokens that are told apart by their patterns, and let it recall ideally. At the start
of an instruction, at any line of a program as it was assembled last, a step within eleven ticks or
more comes to `start` again, for `exit` to the exit. The layers then hold what the processor holds
that the machine showed before, once it has fetched the instruction and carried it out. A literal of
the instruction must not be spelled like a register. -/
theorem step_executes [SameLaws α] (hexact : ∀ x y : α, Scalar.same x y = true → x = y)
    (hlevels : ∀ bit, c.activator.isOn (c.activator.level bit) = bit) (hbuilt : m₀.BuiltFrom c bare n s)
    (hapart : s.Apart m₀.automaton.start) (hruns : Runs c m₀ calls m) (hdistinct : Session.Distinct calls m.network)
    (hlegible : m.network.Legible) {p : Session.Call} {line : Nat} {i : Instruction} {here after : String}
    (hline : Session.Line calls p line i here after) (hbegins : m.Begins calls m₀.automaton.start here log v)
    (hideal : m.IdealStep s log) (hspelled : .literal ∈ i.opcode.operands → i.second ∉ m.network.registerNames) :
    ∃ k ≤ 11, ∃ r ∈ m.network.registers, ∃ r' ∈ m.network.registers,
      (i.opcode.operands[0]? = some .register → m.network.name r = i.first) ∧
      (i.opcode.operands[1]? = some .register → m.network.name r' = i.second) ∧
      (∀ budget, 11 ≤ budget → (m.step budget).value =
        (if i.opcode = .exit then .exited k else .completed k, m.ticked k)) ∧
      (m.ticked k).Shows (m.logAfter log k)
        ((v.fetch i after).exec m.config.pointerSlots (Session.isPlace calls) i r r') ∧
      (∀ l t, l ≠ ip → ((v.fetch i after).exec m.config.pointerSlots (Session.isPlace calls) i r r').token l = some t →
        (m.ticked k).holding l = t) ∧
      (i.opcode ≠ .exit → (m.ticked k).active gh = m₀.automaton.start.hidden ∧
        (m.ticked k).active go = m₀.automaton.start.gates) := by
  obtain ⟨load, ready, halted, hrecorded⟩ := hbuilt.recorded hapart
  have hnamed := hruns.namedRegisters hbuilt
  have hne : m.network.registers ≠ [] := fun hnil => hrecorded.inhabited (by rw [← hnamed, Network.namedRegisters, hnil]; rfl)
  obtain ⟨e, hset, hserves, hloads⟩ := hruns.exists_setting hbuilt hexact hlevels hlegible hdistinct hline hspelled
  obtain ⟨r, hr, r', hr', hname, hname'⟩ := hruns.exists_operands hbuilt hne hline
  have hfollows := hbegins.follows n.namedRegisters (hruns.not_control hbuilt) hserves hloads hr hr' hname hname'
  set o : Readings := ⟨(r, m.network.name r), (r', m.network.name r'), decide (v.token co = some trueToken)⟩
  -- the way is walked to the end
  have hvalid : o.Valid n.namedRegisters := by
    rw [← hnamed]
    exact ⟨List.mem_map_of_mem hr, List.mem_map_of_mem hr'⟩
  obtain ⟨states, hwalk, hbetween⟩ : ∃ states, s.Walk m₀.automaton.start (i.opcode.way n.namedRegisters o)
      (states ++ [Sequencer.lastState m₀.automaton.start halted i.opcode]) ∧
      ∀ st ∈ states, s.stateName st ≠ "start" ∧ s.stateName st ≠ Opcode.exit.mnemonic := hrecorded.walk_way hvalid
  have hfin : s.stateName (Sequencer.lastState m₀.automaton.start halted i.opcode) =
      if i.opcode = .exit then Opcode.exit.mnemonic else "start" := by
    unfold Sequencer.lastState
    split
    · exact hrecorded.haltedName
    · exact hrecorded.startName
  have hhub : s.stateName (Sequencer.lastState m₀.automaton.start halted i.opcode) = "start" ∨
      s.stateName (Sequencer.lastState m₀.automaton.start halted i.opcode) = Opcode.exit.mnemonic := by
    rw [hfin]
    split
    · exact .inr rfl
    · exact .inl rfl
  have hrun := fun budget hbudget => stepFrom_of_follows hexact hset hfollows hwalk hbetween hhub
    (hbegins.arrived (hrecorded.opens.keeps hset.keeps)) hideal 0 budget hbudget
  have hlength := i.opcode.length_way n.namedRegisters o
  obtain ⟨-, hend⟩ := hrun 11 hlength
  refine ⟨_, hlength, r, hr, r', hr', hname, hname', fun budget hbudget => ?_, hend.shows, fun l t hip ht => ?_, fun hop => ?_⟩
  · refine (hrun budget (hlength.trans hbudget)).1.trans ?_
    unfold outcomeAt
    rw [hfin, Nat.zero_add]
    by_cases hop : i.opcode = .exit
    · rw [if_pos hop, if_pos hop, if_pos rfl]
    · rw [if_neg hop, if_neg hop, if_neg (by decide)]
  · have hgh : l ≠ gh := by
      rintro rfl
      rw [hend.shows.control gh (.inl rfl)] at ht
      cases ht
    have hnetwork : (m.ticked (i.opcode.way n.namedRegisters o).length).network = m.network :=
      congrArg Session.network (session_ticked m _)
    have hpattern := hend.shows.token l t ht
    rw [hnetwork] at hpattern
    unfold Machine.holding
    rw [hnetwork]
    exact hlegible l hip hgh t _ hpattern
  · have hhidden := hend.hidden
    have hgates := hend.gates
    rw [Sequencer.Recorded.lastState_of_ne hop] at hhidden hgates
    exact ⟨hhidden, hgates⟩

end

end Machine

/-- A literal can come to be spelled like a register when labels are scoped. -/
example : ((Program.parse ["r0", "p:x"] "x: movv r0 x").toOption.map fun program =>
    (program.withScope "p").instructions.map (·.second)) = some ["p:x"] := by decide +kernel

/-! ## A machine that recalls ideally -/

def exactNetwork : Network Fixed :=
  match (Network.build exactConfig).value with
  | .ok n => n
  | .error _ => smallNetwork

theorem build_exactConfig : (Network.build exactConfig).value = .ok exactNetwork := by
  have hok : (Network.build exactConfig).value.toOption.isSome = true := by decide +kernel
  unfold exactNetwork
  cases h : (Network.build exactConfig).value with
  | ok n => rfl
  | error e =>
    rw [h] at hok
    cases hok

/-- The network with the slots of its pointers. -/
def exactSlots : Network Fixed :=
  (Pointer.encodeSlots ((List.range exactConfig.pointerSlots).map Pointer.slotToken) exactNetwork Pointer.layers).2

namespace Machine

def nopCall : Session.Call := ⟨oneLine, "a", true, false⟩

def movvCall : Session.Call := ⟨⟨[⟨.movv, "r0", "A", 1⟩], []⟩, "b", true, false⟩

theorem parse_movvCall : Program.parse ["r0"] "movv r0 A" = .ok movvCall.program := by decide +kernel

/-- The session over a network after both calls. -/
def called? (n : Network Fixed) : Option (Session Fixed) :=
  match ((Session.assemble nopCall.program nopCall.name nopCall.orthogonal nopCall.verbose).run.run (.new n)).value with
  | (.error _, _) => none
  | (.ok _, t) =>
    match ((Session.assemble movvCall.program movvCall.name movvCall.orthogonal movvCall.verbose).run.run t).value with
    | (.error _, _) => none
    | (.ok _, later) => some later

/-- No weights have to be written for it. -/
theorem called?_eq (n : Network Fixed) : called? n = ((Session.new n).learned? nopCall.program nopCall.name nopCall.orthogonal).bind
    fun t => t.learned? movvCall.program movvCall.name movvCall.orthogonal := by
  unfold called?
  rcases (Session.new n).assemble_learned? (by decide : Session.isProgramName nopCall.name = true)
    (rfl : nopCall.program.isEmpty = false) nopCall.orthogonal nopCall.verbose with ⟨hnone, e, t, hfirst⟩ | ⟨a, t, hsome, hfirst⟩
  · rw [hnone, show _ = _ from hfirst]
    rfl
  rw [hsome, show _ = _ from hfirst]
  dsimp only [Option.bind_some]
  rcases t.assemble_learned? (by decide : Session.isProgramName movvCall.name = true)
    (rfl : movvCall.program.isEmpty = false) movvCall.orthogonal movvCall.verbose with ⟨hnone, e, later, hsecond⟩ | ⟨a', later, hsome, hsecond⟩
  · rw [hnone, show _ = _ from hsecond]
  · rw [hsome, show _ = _ from hsecond]

theorem reach_of_called? {n : Network Fixed} {t : Session Fixed} (hnames : n.registerNames = ["r0"]) (h : called? n = some t) :
    Session.Reach n [nopCall, movvCall] t := by
  unfold called? at h
  rcases hfirst : ((Session.assemble nopCall.program nopCall.name nopCall.orthogonal nopCall.verbose).run.run
    (.new n)).value with ⟨e | a₁, t₁⟩
  · rw [hfirst] at h
    cases h
  rw [hfirst] at h
  dsimp only at h
  rcases hsecond : ((Session.assemble movvCall.program movvCall.name movvCall.orthogonal movvCall.verbose).run.run
    t₁).value with ⟨e | a₂, t₂⟩
  · rw [hsecond] at h
    cases h
  rw [hsecond] at h
  obtain rfl := Option.some.inj h
  exact .call (.call .start (hnames ▸ parse_oneLine) hfirst) (hnames ▸ parse_movvCall) hsecond

/-- Whether every unit is at one of the levels. -/
def leveled (p : Pattern Fixed) : Bool :=
  p.toList.all fun x => x == exactConfig.activator.on || x == exactConfig.activator.off

theorem leveled_of_all {p : Pattern Fixed} (h : leveled p = true) : Leveled p := by
  intro i hi
  have hx := List.all_eq_true.mp h p[i] (Array.getElem_mem_toList hi)
  rw [Pattern.entry_of_lt hi]
  rcases Bool.or_eq_true _ _ ▸ hx with hx | hx
  · exact ⟨true, beq_iff_eq.mp hx⟩
  · exact ⟨false, beq_iff_eq.mp hx⟩

/-- The states that a state leads to unconditionally. -/
def unconditional (s : Sequencer Fixed) (state : ControlState Fixed) : List (ControlState Fixed) :=
  (s.transits.filter fun t => t.key = s.key state none).map (·.target)

theorem mem_unconditional {s : Sequencer Fixed} {state next : ControlState Fixed} (h : s.Leads state none next) :
    next ∈ unconditional s state := by
  obtain ⟨t, ht, hkey, rfl, -⟩ := h
  exact List.mem_map_of_mem (List.mem_filter.mpr ⟨ht, decide_eq_true hkey⟩)

/-- Whether states, tokens and places are told apart after both calls. -/
def tellsApart (start : ControlState Fixed) (s : Sequencer Fixed) (t : Session Fixed) : Bool :=
  decide ((s.seen start).card = s.named) && Session.toldApart t.network ([nopCall, movvCall].flatMap Session.Call.tokens) &&
    t.network.readsOff && decide (s.network.plasticity.2.registers = [.register 0]) &&
    decide (s.network.plasticity.2.registerNames = ["r0"]) &&
    decide ((t.network.layer gh).book.history = (s.network.layer gh).book.history) &&
    (start :: unconditional s start ++ (unconditional s start).flatMap (unconditional s)).all fun state =>
      leveled state.hidden && leveled state.gates

/-- Whether an automaton is recorded for a network, and both calls succeed, with all told apart. -/
def recordsApart (n : Network Fixed) : Bool :=
  match (recordInstructions n.namedRegisters).run.run (Sequencer.new n) with
  | (.error _, _) => false
  | (.ok start, s) => (called? s.network.plasticity.2).any (tellsApart start s)

theorem exists_of_recordsApart {n : Network Fixed} (h : recordsApart n = true) : ∃ start s t,
    (recordInstructions n.namedRegisters).run.run (Sequencer.new n) = (.ok start, s) ∧
    called? s.network.plasticity.2 = some t ∧ tellsApart start s t = true := by
  unfold recordsApart at h
  rcases hrun : (recordInstructions n.namedRegisters).run.run (Sequencer.new n) with ⟨e | start, s⟩
  · rw [hrun] at h
    cases h
  · rw [hrun] at h
    obtain ⟨t, hcalled, htells⟩ := (Option.any_eq_true _ _).mp h
    exact ⟨start, s, t, rfl, hcalled, htells⟩

theorem recordsApart_eq (n : Network Fixed) : recordsApart n =
    match (recordInstructions n.namedRegisters).run.run (Sequencer.new n) with
    | (.error _, _) => false
    | (.ok start, s) => (((Session.new s.network.plasticity.2).learned? nopCall.program nopCall.name nopCall.orthogonal).bind
        fun t => t.learned? movvCall.program movvCall.name movvCall.orthogonal).any (tellsApart start s) := by
  simp only [recordsApart, called?_eq]

theorem recordsApart_exactSlots : recordsApart exactSlots = true :=
  (recordsApart_eq exactSlots).trans (by decide +kernel)

/-- What is known of a machine with both programs. -/
structure Prepared (m₀ : Machine Fixed) (s : Sequencer Fixed) (t : Session Fixed) : Prop where
  config : m₀.config = exactConfig
  built : m₀.BuiltFrom exactConfig exactNetwork exactSlots s
  apart : s.Apart m₀.automaton.start
  reach : Session.Reach m₀.network [nopCall, movvCall] t
  distinct : Session.Distinct [nopCall, movvCall] t.network
  legible : t.network.Legible
  registers : m₀.network.registers = [.register 0]
  names : m₀.network.registerNames = ["r0"]
  states : (t.network.layer gh).book.history = (m₀.network.layer gh).book.history
  leveled : ∀ state ∈ m₀.automaton.start :: unconditional s m₀.automaton.start ++
    (unconditional s m₀.automaton.start).flatMap (unconditional s), Leveled state.hidden ∧ Leveled state.gates

theorem exists_prepared : ∃ m₀ s t, Prepared m₀ s t := by
  obtain ⟨start, s, t, hrun, hcalled, htells⟩ := exists_of_recordsApart recordsApart_exactSlots
  obtain ⟨m₀, hbuild, hbuilt, rfl⟩ := exists_builtFrom_of_records build_exactConfig (by decide +kernel) (by decide +kernel) rfl hrun
  have hnetwork : m₀.network = s.network.plasticity.2 := by
    unfold Machine.network
    rw [hbuilt.session]
    rfl
  rw [← hnetwork] at hcalled
  unfold tellsApart at htells
  simp only [Bool.and_eq_true, decide_eq_true_eq] at htells
  obtain ⟨⟨⟨⟨⟨⟨hapart, hdistinct⟩, hlegible⟩, hregisters⟩, hnames⟩, hstates⟩, hleveled⟩ := htells
  rw [← hnetwork] at hregisters hnames
  refine ⟨m₀, s, t, config_of_build hbuild, hbuilt, hapart, reach_of_called? hnames hcalled, Session.distinct_of_toldApart hdistinct,
    Network.legible_of_readsOff hlegible, hregisters, hnames, ?_, fun state hstate => ?_⟩
  · rw [hbuilt.layer_hidden]
    exact hstates
  · have hstate := List.all_eq_true.mp hleveled state hstate
    rw [Bool.and_eq_true] at hstate
    exact ⟨leveled_of_all hstate.1, leveled_of_all hstate.2⟩

/-! ### The machine at the first line -/

/-- A machine over a session, with given weights, whose layers hold given patterns. -/
def posed (m₀ : Machine Fixed) (t : Session Fixed) (weights : List (Pathway × Connection Fixed))
    (active : LayerId → Pattern Fixed) : Machine Fixed :=
  { m₀ with
    session := t
    weights := weights.foldl (fun w x => w.insert x.1 x.2) {}
    activity := ((List.range (controlNames.length + 1)).map fun i => active ⟨UInt16.ofNat i⟩).toArray }

/-- What the registers and the pointers hold before the first instruction. -/
def smallProcessor : Processor where
  token l := if l = co then some falseToken else if l = mb then some (Pointer.slotToken 0)
    else if l = .register 0 then some "A" else none
  link _ _ := none
  against := none

theorem active_posed (m₀ : Machine Fixed) (t : Session Fixed) (weights : List (Pathway × Connection Fixed))
    (active : LayerId → Pattern Fixed) {l : LayerId} (hl : l.position < controlNames.length + 1) : (posed m₀ t weights active).active l = active l :=
  getD_layers active hl #[]

/-- The machine can be at the start of the first program. -/
theorem exists_begins {m₀ : Machine Fixed} {s : Sequencer Fixed} {t : Session Fixed} (h : Prepared m₀ s t) :
    ∃ active : LayerId → Pattern Fixed, ∀ weights,
      (posed m₀ t weights active).Begins [nopCall, movvCall] m₀.automaton.start "a" (fun _ => []) smallProcessor := by
  have hkeeps := h.reach.keeps h.built.sound_network h.built.numbered_network
  have hregisters : t.network.registers = [.register 0] := hkeeps.registers.trans h.registers
  have hnames : t.network.registerNames = ["r0"] := hkeeps.registerNames.trans h.names
  have hliteral : Session.IsLiteral [nopCall, movvCall] t.network.registerNames "A" :=
    ⟨movvCall, by simp, by rw [hnames]; decide +kernel⟩
  obtain ⟨here, hhere⟩ := (Session.known_of_reach h.built.sound_network h.built.numbered_network h.reach).tokens nopCall
    List.mem_cons_self "a" List.mem_cons_self
  obtain ⟨answer, hanswer⟩ := Option.isSome_iff_exists.mp
    (hkeeps.knows (by decide : co ≠ ip) (h.built.knows_answers falseToken (by simp)))
  obtain ⟨slot, hslot⟩ := Option.isSome_iff_exists.mp
    (hkeeps.knows (by decide : mb ≠ ip) (h.built.knows_slots mb (by decide) 0 (by decide)))
  obtain ⟨literal, hpattern⟩ := Option.isSome_iff_exists.mp
    ((Session.stocked_of_reach h.built.sound_network h.built.numbered_network h.reach).1.literals "A" hliteral (.register 0)
      (by rw [hregisters]; exact List.mem_cons_of_mem _ List.mem_cons_self))
  let active (l : LayerId) : Pattern Fixed :=
    if l = gh then m₀.automaton.start.hidden else if l = go then m₀.automaton.start.gates else if l = ip then here
      else if l = co then answer else if l = mb then slot else literal
  refine ⟨active, fun weights => ?_⟩
  have hactive {l : LayerId} (hl : l.position < controlNames.length + 1) := active_posed m₀ t weights active hl
  refine ⟨hactive (by decide), hactive (by decide), ?_, ⟨fun l token hl => ?_, ?_, nofun, nofun⟩, fun r hr => ?_, .inr rfl,
    0, ?_, rfl⟩
  · rw [hactive (by decide)]
    exact hhere
  · change (if l = co then some falseToken else if l = mb then some (Pointer.slotToken 0)
      else if l = .register 0 then some "A" else none) = some token at hl
    split at hl
    next heq =>
      obtain rfl := Option.some.inj hl
      subst heq
      rw [hactive (by decide)]
      exact hanswer
    split at hl
    next heq =>
      obtain rfl := Option.some.inj hl
      subst heq
      rw [hactive (by decide)]
      exact hslot
    split at hl
    next heq =>
      obtain rfl := Option.some.inj hl
      subst heq
      rw [hactive (by decide)]
      exact hpattern
    next => cases hl
  · rintro l (rfl | rfl) <;> rfl
  · change r ∈ t.network.registers at hr
    rw [hregisters] at hr
    obtain rfl := List.mem_singleton.mp hr
    exact ⟨"A", rfl, hliteral⟩
  · show 0 < m₀.config.pointerSlots
    rw [h.config]
    decide

theorem line_nopCall : Session.Line [nopCall, movvCall] nopCall 0 ⟨.nop, nullToken, nullToken, 1⟩ "a" "a.0" :=
  ⟨⟨[], [movvCall], rfl, by decide⟩, by decide +kernel, rfl, by decide +kernel⟩

theorem weights_posed (m₀ : Machine Fixed) (t : Session Fixed) {weights : List (Pathway × Connection Fixed)}
    (hkeys : (weights.map (·.1)).Nodup) (active : LayerId → Pattern Fixed) {x : Pathway × Connection Fixed} (hx : x ∈ weights) :
    (posed m₀ t weights active).weights[x.1]? = some x.2 :=
  Pathway.getElem?_foldl_insert_of_mem hkeys _ hx

theorem runs_posed {m₀ : Machine Fixed} {s : Sequencer Fixed} {t : Session Fixed} (h : Prepared m₀ s t)
    (weights : List (Pathway × Connection Fixed)) (active : LayerId → Pattern Fixed) :
    Runs exactConfig m₀ [nopCall, movvCall] (posed m₀ t weights active) := ⟨h.config, h.reach, h.states⟩

/-- The machine can be given tuned weights. -/
theorem exists_tuned {m₀ : Machine Fixed} {s : Sequencer Fixed} {t : Session Fixed} (h : Prepared m₀ s t)
    {load ready halted : ControlState Fixed}
    (hrecorded : Sequencer.Recorded exactSlots.namedRegisters m₀.automaton.start load ready halted s)
    (active : LayerId → Pattern Fixed) (target : LayerId → Pattern Fixed) :
    ∃ weights u, Tuned (posed m₀ t weights active) m₀.automaton.start load ready u target := by
  have hfit : ∀ state ∈ [m₀.automaton.start, load, ready], Sequencer.Fit exactSlots state := by
    obtain ⟨y, hy, -, rfl, -⟩ := hrecorded.toLoad
    obtain ⟨z, hz, -, rfl, -⟩ := hrecorded.toReady
    simp only [List.forall_mem_cons, List.not_mem_nil, false_imp_iff, implies_true, and_true]
    exact ⟨h.built.records_fit.2, (h.built.governs.transits y hy).target, (h.built.governs.transits z hz).target⟩
  have hleveled : ∀ state ∈ [m₀.automaton.start, load, ready], Leveled state.hidden ∧ Leveled state.gates := by
    have hload := mem_unconditional hrecorded.toLoad
    have hready := List.mem_flatMap.mpr ⟨load, hload, mem_unconditional hrecorded.toReady⟩
    simp only [List.forall_mem_cons, List.not_mem_nil, false_imp_iff, implies_true, and_true]
    exact ⟨h.leveled _ List.mem_cons_self, h.leveled _ (List.mem_append_left _ (List.mem_cons_of_mem _ hload)),
      h.leveled _ (List.mem_append_right _ hready)⟩
  -- a unit tells `load` from `start`
  obtain ⟨x, hx⟩ := List.exists_mem_of_ne_nil _ hrecorded.inhabited
  have hbits := (hrecorded.bits_fetching (⟨hx, hx⟩ : (⟨x, x, true⟩ : Readings).Valid _) load List.mem_cons_self).1
  obtain ⟨u, hu, hdiffers⟩ := exists_unit (s.network.activator gh)
    ((hfit _ List.mem_cons_self).hidden.trans (hfit load (by simp)).hidden.symm) hbits.symm
  let weights := tuned t.network m₀.automaton.start load ready u target
  have hweights : ∀ x ∈ weights, (posed m₀ t weights active).weights[x.1]? = some x.2 :=
    fun x hx => weights_posed m₀ t (nodup_tuned ..) active hx
  have hruns := runs_posed h weights active
  have hkeeps := hruns.keeps_slots h.built
  refine ⟨weights, u, hweights, fun l hl => ?_, fun x hx state hstate => ?_, ?_, hdiffers, ?_⟩
  · have hcontrol : ∀ l ∈ [gh, go, ip, opc, op1, op2], l.position < controlNames.length := by decide
    exact hruns.activator h.built (Nat.lt_of_lt_of_le (hcontrol l hl) (hruns.numbered h.built).control)
  · obtain ⟨gates, -, hopens⟩ := (hfit state hstate).gates
    simp only [controlParts, List.mem_cons, List.not_mem_nil, or_false] at hx
    rcases hx with rfl | rfl
    · exact ⟨(hleveled state hstate).1, (hfit state hstate).hidden.trans (hkeeps.size gh).symm⟩
    · exact ⟨(hleveled state hstate).2, hopens.size.trans (hkeeps.size go).symm⟩
  · rw [hkeeps.size, ← (hfit _ List.mem_cons_self).hidden]
    exact hu
  · rw [hkeeps.size, hkeeps.size]
    decide +kernel

/-- A machine that runs two programs recalls ideally, at the only line of the first. -/
theorem exists_idealStep : ∃ m₀ s m, m₀.BuiltFrom exactConfig exactNetwork exactSlots s ∧ s.Apart m₀.automaton.start ∧
    Runs exactConfig m₀ [nopCall, movvCall] m ∧ Session.Distinct [nopCall, movvCall] m.network ∧ m.network.Legible ∧
    m.Begins [nopCall, movvCall] m₀.automaton.start "a" (fun _ => []) smallProcessor ∧ m.IdealStep s fun _ => [] := by
  have hexact : ∀ x y : Fixed, Scalar.same x y = true → x = y := fun x y => (Fixed.same_iff x y).mp
  obtain ⟨m₀, s, t, h⟩ := exists_prepared
  obtain ⟨load, ready, halted, hrecorded⟩ := h.built.recorded h.apart
  obtain ⟨active, hbegins⟩ := exists_begins h
  obtain ⟨weights, u, htuned⟩ := exists_tuned h hrecorded active fun l => (t.pairs.target? ⟨l, ip⟩ (active ip)).getD #[]
  have hruns := runs_posed h weights active
  have hactive : (posed m₀ t weights active).active ip = active ip := active_posed m₀ t weights active (by decide)
  rw [← hactive] at htuned
  obtain ⟨e, hset, -, hloads⟩ := hruns.exists_setting h.built hexact isOn_exactConfig h.legible h.distinct line_nopCall
    fun hliteral => absurd hliteral (by decide)
  refine ⟨m₀, s, _, h.built, h.apart, hruns, h.distinct, h.legible, hbegins weights, ?_⟩
  refine idealStep_nop hset (Session.known_of_reach h.built.sound_network h.built.numbered_network h.reach).good.sound
    (fun l _ token p hp => ?_) hrecorded hloads rfl ((hbegins weights).arrived (hrecorded.opens.keeps hset.keeps)) htuned
  rw [hruns.activator h.built (Network.position_lt_of_pattern? hp), funext hold_exactConfig]
  exact Array.map_id' p

/-- A machine steps over an instruction that does nothing, and the register keeps its literal. -/
theorem nop_executes : ∃ m₀ s m, m₀.BuiltFrom exactConfig exactNetwork exactSlots s ∧ s.Apart m₀.automaton.start ∧
    Runs exactConfig m₀ [nopCall, movvCall] m ∧
    m.Begins [nopCall, movvCall] m₀.automaton.start "a" (fun _ => []) smallProcessor ∧ m.IdealStep s (fun _ => []) ∧
    ∃ k ≤ 11, (m.step 11).value = (.completed k, m.ticked k) ∧ (m.ticked k).holding (.register 0) = "A" ∧
      (m.ticked k).holding opc = Opcode.nop.mnemonic ∧ (m.ticked k).active gh = m₀.automaton.start.hidden := by
  obtain ⟨m₀, s, m, hbuilt, hapart, hruns, hdistinct, hlegible, hbegins, hideal⟩ := exists_idealStep
  obtain ⟨k, hk, r, -, r', -, -, -, hstep, -, hholding, hend⟩ := step_executes (fun x y => (Fixed.same_iff x y).mp)
    isOn_exactConfig hbuilt hapart hruns hdistinct hlegible line_nopCall hbegins hideal
    fun hliteral => absurd hliteral (by decide)
  exact ⟨m₀, s, m, hbuilt, hapart, hruns, hbegins, hideal, k, hk, hstep 11 (Nat.le_refl _),
    hholding (.register 0) "A" (by decide) rfl, hholding opc _ (by decide) rfl, (hend (by decide)).1⟩

end Machine

end Engram
