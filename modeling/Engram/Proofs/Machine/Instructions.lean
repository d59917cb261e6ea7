/-
  Engram.Proofs.Machine.Instructions — instructions as walks of a machine.

  A machine that recalls ideally comes from one state of the table to the next with each tick
  (`At.tick`), and shows a processor that has let the tokens through. An instruction is a walk
  from `start` which ends in the first state that is called `start` or `exit`; so a walk that the
  processor follows is what `step` runs through (`stepFrom_of_follows`).

  What the pathways are associated with comes from the programs that were assembled. A machine that
  `Runs` programs has a wiring that serves the instruction at hand (`Runs.exists_setting`), and
  from there the processor follows the way of its opcode (`Begins.follows`).
-/

import Engram.Proofs.Machine.Built
import Engram.Proofs.Machine.Operations
import Engram.Proofs.Machine.Recall
import Engram.Proofs.Machine.Wires
import Engram.Proofs.Program.Scoping

namespace Engram

open LayerId

variable {α : Type} [Scalar α]

/-- An instruction of a program as it was assembled last, with the token that loads it and the one
that loads what comes after it. -/
structure Session.Line (calls : List Session.Call) (p : Session.Call) (line : Nat) (i : Instruction) (here after : String) :
    Prop where
  latest : Session.Latest calls p
  instruction : (p.program.withScope p.name).instructions[line]? = some i
  here : p.tokens[line]? = some here
  after : p.tokens[line + 1]? = some after

/-- An operand that names a register is found among the registers. -/
theorem Network.exists_named {n : Network α} (hne : n.registers ≠ []) {names : Prop} {token : String}
    (h : names → token ∈ n.registerNames) : ∃ r ∈ n.registers, names → n.name r = token := by
  by_cases hnames : names
  · obtain ⟨r, hr, heq⟩ := List.mem_map.mp (h hnames)
    exact ⟨r, hr, fun _ => heq⟩
  · obtain ⟨r, hr⟩ := List.exists_mem_of_ne_nil _ hne
    exact ⟨r, hr, fun hn => (hnames hn).elim⟩

namespace Machine

/-- The log after so many ticks. -/
def logAfter (m : Machine α) (log : Log α) : Nat → Log α
  | 0 => log
  | k + 1 => m.tick.value.logAfter (m.logged log) k

/-- A hub is reached. -/
def atHub (m : Machine α) : Bool := m.atStart || m.atExit

/-- At every tick of an instruction, until a hub is reached, the machine recalls ideally. -/
def IdealStep (s : Sequencer α) (m : Machine α) (log : Log α) : Prop :=
  ∀ k, (∀ j, 0 < j → j ≤ k → (m.ticked j).atHub = false) → (m.ticked k).Ideal s (m.logAfter log k)

/-- How an instruction ends that ends in a state. -/
def outcomeAt (s : Sequencer α) (fin : ControlState α) (ticks : Nat) : StepOutcome :=
  if s.stateName fin = Opcode.exit.mnemonic then .exited ticks else .completed ticks

variable {s : Sequencer α} {m : Machine α} {log : Log α} {state next fin : ControlState α} {a b : Transfer} {v w : Processor}
  {e : Wiring}

theorem IdealStep.tick (h : m.IdealStep s log) (hhub : m.tick.value.atHub = false) : m.tick.value.IdealStep s (m.logged log) := by
  intro k hk
  refine h (k + 1) fun j hj hjk => ?_
  cases j with
  | zero => omega
  | succ j =>
    cases j with
    | zero => exact hhub
    | succ j => exact hk (j + 1) (by omega) (by omega)

/-- The name of the state that a machine is in. -/
theorem At.holding (h : m.At log state a v) (hset : Setting s m.session m.config.pointerSlots e) : m.holding gh = s.stateName state := by
  have hbits : (m.network.layer gh).bits state.hidden = s.hiddenBits state :=
    congrArg (·.bits state.hidden) (hset.keeps.activator gh)
  unfold Machine.holding
  rw [h.hidden]
  show ((m.session.network.layer gh).book.history.lookup ((m.network.layer gh).bits state.hidden)).getD unknownToken = _
  rw [hbits, hset.states]
  rfl

theorem stepFrom_of_not_hub (hhub : m.tick.value.atHub = false) {done budget : Nat} :
    (m.stepFrom done (budget + 1)).value = (m.tick.value.stepFrom (done + 1) budget).value := by
  obtain ⟨hstart, hexit⟩ := Bool.or_eq_false_iff.mp hhub
  rw [stepFrom, Noted.value_bind, hexit, hstart]
  rfl

theorem stepFrom_of_hub (hname : m.tick.value.holding gh = s.stateName fin)
    (hfin : s.stateName fin = "start" ∨ s.stateName fin = Opcode.exit.mnemonic) {done budget : Nat} :
    (m.stepFrom done (budget + 1)).value = (outcomeAt s fin (done + 1), m.tick.value) := by
  have hstart : m.tick.value.atStart = (s.stateName fin == "start") := congrArg (· == "start") hname
  have hexit : m.tick.value.atExit = (s.stateName fin == "exit") := congrArg (· == "exit") hname
  rw [stepFrom, Noted.value_bind, hexit, hstart]
  unfold outcomeAt
  rcases hfin with hfin | hfin
  · rw [hfin]
    rfl
  · rw [hfin]
    rfl

/-- A walk that is followed is run through, up to the state in which it ends. -/
theorem stepFrom_of_follows [SameLaws α] (hexact : ∀ x y : α, Scalar.same x y = true → x = y) {steps : List ControlStep}
    {states : List (ControlState α)} (hset : Setting s m.session m.config.pointerSlots e)
    (hfollows : Processor.Follows m.network.registers e v a steps w) (hwalk : s.Walk state steps (states ++ [fin]))
    (hnames : ∀ st ∈ states, s.stateName st ≠ "start" ∧ s.stateName st ≠ Opcode.exit.mnemonic)
    (hfin : s.stateName fin = "start" ∨ s.stateName fin = Opcode.exit.mnemonic) (hat : m.At log state a v)
    (hideal : m.IdealStep s log) (done budget : Nat) (hbudget : steps.length ≤ budget) :
    (m.stepFrom done budget).value = (outcomeAt s fin (done + steps.length), m.ticked steps.length) ∧
      (m.ticked steps.length).At (m.logAfter log steps.length) fin .rest w := by
  induction states generalizing m log state a v steps done budget with
  | nil =>
    cases hfollows with
    | done => exact hwalk.elim
    | step hlegal hreads hholds hrest =>
      have hnext := hat.tick hset hexact (hideal 0 fun j hj hjk => by omega) hwalk.1 hlegal hreads hholds
      cases hrest with
      | step => exact hwalk.2.elim
      | done =>
        obtain ⟨budget, rfl⟩ : ∃ rest, budget = rest + 1 := ⟨budget - 1, by simp only [List.length_singleton] at hbudget; omega⟩
        refine ⟨stepFrom_of_hub ?_ hfin, hnext⟩
        exact hnext.holding hset
  | cons next states ih =>
    cases hfollows with
    | done => exact hwalk.elim
    | step hlegal hreads hholds hrest =>
      have hnext := hat.tick hset hexact (hideal 0 fun j hj hjk => by omega) hwalk.1 hlegal hreads hholds
      obtain ⟨hstart, hexit⟩ := hnames next List.mem_cons_self
      rw [← hnext.holding hset] at hstart hexit
      have hhub : m.tick.value.atHub = false := by
        unfold atHub atStart atExit
        rw [Bool.or_eq_false_iff, beq_eq_false_iff_ne, beq_eq_false_iff_ne]
        exact ⟨hstart, hexit⟩
      obtain ⟨budget, rfl⟩ : ∃ rest, budget = rest + 1 := ⟨budget - 1, by rw [List.length_cons] at hbudget; omega⟩
      obtain ⟨hvalue, hat'⟩ := ih (m := m.tick.value) hset hrest hwalk.2
        (fun st hst => hnames st (List.mem_cons_of_mem _ hst)) hnext (hideal.tick hhub) (done + 1) budget
        (Nat.le_of_succ_le_succ hbudget)
      rw [stepFrom_of_not_hub hhub, hvalue, List.length_cons, Nat.add_right_comm, Nat.add_assoc]
      exact ⟨rfl, hat'⟩

/-! ## Machines that run programs -/

variable {c : Config α} {m₀ : Machine α} {bare n : Network α} {calls : List Session.Call}

/-- The machine runs the programs of some calls, which were added since it was built. The hidden layer
has the names of the states as they were recorded. -/
structure Runs (c : Config α) (m₀ : Machine α) (calls : List Session.Call) (m : Machine α) : Prop where
  config : m.config = c
  session : Session.Reach m₀.network calls m.session
  states : (m.network.layer gh).book.history = (m₀.network.layer gh).book.history

namespace BuiltFrom

variable (h : m₀.BuiltFrom c bare n s)

include h

/-- What is recorded, if no two states have the same bits. -/
theorem recorded (hapart : s.Apart m₀.automaton.start) : ∃ load ready halted,
    Sequencer.Recorded n.namedRegisters m₀.automaton.start load ready halted s := by
  have hbuilt := Network.builtFrom_of_build h.network
  refine Sequencer.recorded_of_apart h.size_go h.numbered ?_ ?_ h.records hapart
  · rw [h.slots, Pointer.layer_encodeSlots_of_not_mem _ _ (by decide)]
    exact hbuilt.history_gh
  · have hname : n.name = bare.name := funext h.grows.name
    unfold Network.namedRegisters
    rw [List.map_map, h.grows.registers]
    show (bare.registers.map n.name).Nodup
    rw [hname]
    exact hbuilt.nodup_names

end BuiltFrom

namespace Runs

variable [SameLaws α] (hruns : Runs c m₀ calls m) (h : m₀.BuiltFrom c bare n s)

include hruns h

theorem keeps : m₀.network.Keeps (fun l _ => l ≠ ip) m.network := hruns.session.keeps h.sound_network h.numbered_network

theorem numbered : m.network.Numbered := (hruns.keeps h).numbered h.numbered_network

theorem not_control : ∀ r ∈ m.network.registers, ¬ IsControl r := fun r hr =>
  Nat.not_lt.mpr ((hruns.numbered h).registers r hr).1

theorem keeps_slots : n.Keeps (fun _ _ => False) m.network :=
  (h.governs.keeps.mono fun _ _ hf => hf.elim).trans
    ((h.grows_network.mono fun _ _ hf => hf.elim).trans ((hruns.keeps h).mono fun _ _ hf => hf.elim))

theorem namedRegisters : m.network.namedRegisters = n.namedRegisters := by
  have hname : m.network.name = n.name := funext (hruns.keeps_slots h).name
  unfold Network.namedRegisters
  rw [(hruns.keeps_slots h).registers, hname]

theorem activator {l : LayerId} (hl : l.position < m.network.layers.size) : m.network.activator l = c.activator := by
  have hbare : bare.Keeps (fun _ _ => False) m.network := (h.grows.mono fun _ _ _ => trivial).trans (hruns.keeps_slots h)
  rw [hbare.activator]
  exact (Network.builtFrom_of_build h.network).activator_eq (hbare.count ▸ hl)

/-- A machine that runs programs is a setting for every wiring that its session recalls. -/
theorem setting (hlevels : ∀ bit, c.activator.isOn (c.activator.level bit) = bit) (hlegible : m.network.Legible)
    (hwired : e.Wired m.session m.config.pointerSlots) : Setting s m.session m.config.pointerSlots e := by
  have hbuilt := Network.builtFrom_of_build h.network
  have hkeeps := hruns.keeps_slots h
  have hbare : bare.Keeps (fun _ _ => False) m.network := (h.grows.mono fun _ _ _ => trivial).trans hkeeps
  have hactivator : m.network.activator go = c.activator :=
    hruns.activator h (Nat.lt_of_lt_of_le (by decide) (hruns.numbered h).control)
  refine ⟨(h.grows_network.mono fun _ _ _ => trivial).trans (hruns.keeps h), hruns.states.trans ?_, hruns.numbered h, ?_, ?_, ?_,
    hlegible, fun t ht => ?_, hwired⟩
  · rw [h.layer_hidden]
  · have hflows : m.network.flows = bare.flows := by
      unfold Network.flows
      rw [hbare.registers]
    have hgates : ((flowPathways bare.registers).map fun p => Gate.copy p.target p.source).Nodup :=
      (List.nodup_append.mp (List.nodup_append.mp hbuilt.nodup_gateList).1).1
    show m.network.flows.Nodup
    rw [hflows]
    exact hgates.of_map _
  · exact (hkeeps.size go).trans (h.size_go.trans (congrArg GateMap.size hkeeps.gates.symm))
  · show ∀ bit, (m.network.activator go).isOn ((m.network.activator go).level bit) = bit
    rw [hactivator]
    exact hlevels
  · exact Option.isSome_iff_exists.mp ((hruns.keeps h).knows (by decide) (h.knows_answers t ht))

variable {p : Session.Call} {line : Nat} {i : Instruction} {here after : String}

/-- A machine that runs programs has a wiring for the instruction at a line. -/
theorem exists_setting (hexact : ∀ x y : α, Scalar.same x y = true → x = y)
    (hlevels : ∀ bit, c.activator.isOn (c.activator.level bit) = bit) (hlegible : m.network.Legible)
    (hdistinct : Session.Distinct calls m.network) (hline : Session.Line calls p line i here after)
    (hspelled : .literal ∈ i.opcode.operands → i.second ∉ m.network.registerNames) :
    ∃ e : Wiring, Setting s m.session m.config.pointerSlots e ∧
      e.Serves m.network.registers m.config.pointerSlots (Session.isPlace calls)
        (Session.IsLiteral calls m.network.registerNames) i ∧
      Processor.Loads e i here after := by
  have hkeeps := hruns.keeps h
  have hmem := hline.latest.mem
  have hi := List.mem_of_getElem? hline.instruction
  -- what the session was told
  obtain ⟨ps, hheld⟩ := (Session.known_of_reach h.sound_network h.numbered_network hruns.session).holds hdistinct p hline.latest
  obtain ⟨stock, hgrows, hstocked, hshared⟩ :=
    (Session.stocked_of_reach h.sound_network h.numbered_network hruns.session).2 (List.ne_nil_of_mem hmem)
  obtain ⟨source, hparse⟩ := hruns.session.parsed p hmem
  rw [← hkeeps.registerNames] at hparse
  have hregisters : m.network.registers = stock.registers := hgrows.registers
  have hnames : m.network.registerNames = stock.registerNames := hgrows.registerNames
  have hbeyond : ∀ r ∈ stock.registers, ¬ IsControl r := hregisters ▸ hruns.not_control h
  have hslots : ∀ l ∈ Pointer.layers, ∀ k < m.config.pointerSlots,
      (m.network.layer l).knows (Pointer.slotToken k) = true := by
    have hne : ∀ l ∈ Pointer.layers, l ≠ ip := by decide
    rw [hruns.config]
    exact fun l hl k hk => hkeeps.knows (hne l hl) (h.knows_slots l hl k hk)
  have hwired : (stock.wiring m.config.pointerSlots (Session.isPlace calls) i here after).Wired m.session
      m.config.pointerSlots :=
    wired hbeyond hgrows hshared hexact hlegible hslots hheld hline.instruction hline.here hline.after
  refine ⟨_, hruns.setting h hlevels hlegible hwired, ?_, loads hbeyond⟩
  rw [hregisters, hnames]
  refine serves hbeyond hstocked hmem hi (fun hliteral => ⟨p, hmem, ?_⟩) fun hlabel => ?_
  · have hsecond : ∀ op : Opcode, .literal ∈ op.operands → op.operands[1]? = some .literal := by
      intro op
      cases op <;> decide
    rw [← hnames]
    exact Program.mem_literals_of_typed hparse hi (Program.typed_second (hsecond _ hliteral)) (hspelled hliteral)
  · have hfirst : ∀ op : Opcode, .label ∈ op.operands → op.operands[0]? = some .label := by
      intro op
      cases op <;> decide
    refine Session.isPlace_iff.mpr ⟨p, hmem, Session.mem_ownTokens.mpr (.inr ?_)⟩
    exact Program.mem_labels_of_typed hparse hi (Program.typed_first (hfirst _ hlabel))

/-- The registers that the operands of an instruction name, as far as they name any. -/
theorem exists_operands (hne : m.network.registers ≠ []) (hline : Session.Line calls p line i here after) :
    ∃ r ∈ m.network.registers, ∃ r' ∈ m.network.registers,
      (i.opcode.operands[0]? = some .register → m.network.name r = i.first) ∧
      (i.opcode.operands[1]? = some .register → m.network.name r' = i.second) := by
  have hi := List.mem_of_getElem? hline.instruction
  obtain ⟨source, hparse⟩ := hruns.session.parsed p hline.latest.mem
  rw [← (hruns.keeps h).registerNames] at hparse
  have hfirst : i.opcode.operands[0]? = some .register → i.first ∈ m.network.registerNames :=
    fun ht => Program.mem_registers_of_typed hparse hi (Program.typed_first ht)
  have hsecond : i.opcode.operands[1]? = some .register → i.second ∈ m.network.registerNames :=
    fun ht => Program.mem_registers_of_typed hparse hi (Program.typed_second ht)
  obtain ⟨r, hr, hname⟩ := Network.exists_named hne hfirst
  obtain ⟨r', hr', hname'⟩ := Network.exists_named hne hsecond
  exact ⟨r, hr, r', hr', hname, hname'⟩

end Runs

/-! ## Instructions -/

/-- The machine is at the start of an instruction, at a place: registers hold literals of its programs,
the comparison has come to something, and the memory pointer is at a slot. -/
structure Begins (m : Machine α) (calls : List Session.Call) (start : ControlState α) (here : String) (log : Log α)
    (v : Processor) : Prop where
  hidden : m.active gh = start.hidden
  gates : m.active go = start.gates
  place : (m.network.layer ip).pattern? here = some (m.active ip)
  shows : m.Shows log v
  registers : ∀ r ∈ m.network.registers, ∃ t, v.token r = some t ∧ Session.IsLiteral calls m.network.registerNames t
  compared : v.token co = some trueToken ∨ v.token co = some falseToken
  slot : ∃ k < m.config.pointerSlots, v.token mb = some (Pointer.slotToken k)

/-- What the instruction pointer stands for can be told by any token of its pattern. -/
theorem Shows.set_place (h : m.Shows log v) {here : String} (hhere : (m.network.layer ip).pattern? here = some (m.active ip)) :
    m.Shows log (v.set ip (some here)) := by
  refine ⟨fun l t ht => ?_, fun l hl => ?_, h.link, h.against⟩
  · by_cases hip : l = ip
    · subst hip
      rw [Processor.token_set_self] at ht
      obtain rfl := Option.some.inj ht
      exact hhere
    · rw [Processor.token_set_of_ne _ hip] at ht
      exact h.token l t ht
  · have hip : l ≠ ip := by
      rcases hl with rfl | rfl <;> decide
    rw [Processor.token_set_of_ne _ hip]
    exact h.control l hl

namespace Begins

variable {start : ControlState α} {here after : String} {i : Instruction} (h : m.Begins calls start here log v)

include h

/-- The machine is at `start`, and shows the processor at the place. -/
theorem arrived (hopens : m.network.Opens start.gates []) : m.At log start .rest (v.set ip (some here)) :=
  ⟨h.hidden, h.gates, hopens, h.shows.set_place h.place⟩

/-- What an instruction finds that has been loaded. -/
theorem loaded {o : Readings} (hbeyond : ∀ r ∈ m.network.registers, ¬ IsControl r)
    (hfirst : i.opcode.operands[0]? = some .register → o.first.2 = i.first)
    (hsecond : i.opcode.operands[1]? = some .register → o.second.2 = i.second)
    (hequal : o.equal = decide (v.token co = some trueToken)) : (v.fetch i after).Loaded m.network.registers
      m.config.pointerSlots (Session.IsLiteral calls m.network.registerNames) i o := by
  have hother {l : LayerId} (hl : l ∉ [ip, opc, op1, op2]) := v.token_fetch_of_ne hl i after
  have hcontrol : ∀ l ∈ [ip, opc, op1, op2], IsControl l := by decide
  refine ⟨?_, ?_, Processor.token_set_self .., hfirst, hsecond, ?_, fun r hr => ?_, ?_⟩
  · unfold Processor.fetch
    rw [Processor.token_set_of_ne _ (by decide), Processor.token_set_of_ne _ (by decide), Processor.token_set_self]
  · unfold Processor.fetch
    rw [Processor.token_set_of_ne _ (by decide), Processor.token_set_self]
  · rw [hother (by decide), hequal]
    rcases h.compared with htrue | hfalse
    · rw [htrue, decide_eq_true rfl, if_pos rfl]
    · rw [hfalse, decide_eq_false (by decide), if_neg (by decide)]
  · rw [hother fun hl => hbeyond r hr (hcontrol r hl)]
    exact h.registers r hr
  · rw [hother (by decide)]
    exact h.slot

/-- From there the processor follows the way of the opcode, which carries out the instruction. -/
theorem follows {r r' : LayerId} (named : List (LayerId × String)) (hbeyond : ∀ r ∈ m.network.registers, ¬ IsControl r)
    (hserves : e.Serves m.network.registers m.config.pointerSlots (Session.isPlace calls)
      (Session.IsLiteral calls m.network.registerNames) i) (hloads : Processor.Loads e i here after)
    (hr : r ∈ m.network.registers) (hr' : r' ∈ m.network.registers)
    (hname : i.opcode.operands[0]? = some .register → m.network.name r = i.first)
    (hname' : i.opcode.operands[1]? = some .register → m.network.name r' = i.second) :
    Processor.Follows m.network.registers e (v.set ip (some here)) .rest
      (i.opcode.way named ⟨(r, m.network.name r), (r', m.network.name r'), decide (v.token co = some trueToken)⟩)
      ((v.fetch i after).exec m.config.pointerSlots (Session.isPlace calls) i r r') := by
  have hloaded : ((v.set ip (some here)).fetch i after).Loaded m.network.registers m.config.pointerSlots
      (Session.IsLiteral calls m.network.registerNames) i
      ⟨(r, m.network.name r), (r', m.network.name r'), decide (v.token co = some trueToken)⟩ := by
    rw [Processor.fetch_set_place]
    exact h.loaded hbeyond hname hname' rfl
  rw [← Processor.fetch_set_place v (some here)]
  exact Processor.follows_way hserves hbeyond hr hr' hloads (Processor.token_set_self ..) hloaded

end Begins

end Machine

end Engram
