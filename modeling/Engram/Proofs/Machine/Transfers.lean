/-
  Engram.Proofs.Machine.Transfers — what the rounds of the table do to tokens.

  What a state of the automaton opens comes down to three lists: the condition layers that it
  reads, the pathways that it lets through, and those that it teaches (`Transfer`). Of these a
  processor follows from a processor (`Processor.after`), given what the pathways that are not
  taught lead tokens to. A round of the table is `Followed` when each of its steps is keyed on a
  token that is there at that time; then the round of an opcode carries out the opcode
  (`follows_round`).
-/

import Engram.Proofs.Control.Ways
import Engram.Proofs.Machine.Processor
import Engram.Proofs.Network.Capacity

namespace Engram

open LayerId

/-- What the pathways that are not taught at run time lead tokens to. -/
abbrev Wiring := Pathway → Option (String → Option String)

/-- What a state opens besides the default gates. -/
structure Transfer where
  /-- The condition layers that are read. -/
  reads : List LayerId
  /-- The pathways that carry their source into their target. -/
  flows : List Pathway
  /-- The pathways that are taught. -/
  learns : List Pathway

namespace Transfer

def gates (a : Transfer) : List Gate :=
  a.reads.flatMap Microcode.read ++ a.flows.flatMap (fun p => Gate.flow p.target p.source) ++
    a.learns.map fun p => Gate.learn p.target p.source

def rest : Transfer := ⟨[], [], []⟩

def reading (layer : LayerId) : Transfer := ⟨[layer], [], []⟩

def moving (flows : List Pathway) : Transfer := ⟨[], flows, []⟩

def learning (learns : List Pathway) : Transfer := ⟨[], [], learns⟩

/-- The pathways are those of a network with the given registers, and no layer is carried into twice. -/
structure Legal (registers : List LayerId) (a : Transfer) : Prop where
  flows : ∀ p ∈ a.flows, p ∈ flowPathways registers ∧ p.target ≠ gh ∧ p.target ≠ go
  once : (a.flows.map (·.target)).Nodup
  learns : ∀ p ∈ a.learns, p ∈ plasticPathways registers

end Transfer

/-- The wiring carries what an instruction needs: slots to slots, known tokens and the literal or
label of the instruction to themselves, and nothing where pathways are taught. -/
structure Wiring.Serves (e : Wiring) (registers : List LayerId) (slots : Nat) (place : String → Bool)
    (known : String → Prop) (i : Instruction) : Prop where
  move : ∀ x ∈ Pointer.moves, e x.1 = some (x.2.token? slots)
  taught : ∀ p ∈ plasticPathways registers, e p = none
  literal : .literal ∈ i.opcode.operands → ∀ l ∈ ci :: registers, ∃ f, e ⟨l, op2⟩ = some f ∧ f i.second = some i.second
  label : .label ∈ i.opcode.operands → ∃ f, e ⟨ip, op1⟩ = some f ∧ f i.first = some i.first
  copy : ∀ r ∈ registers, ∀ l ∈ ci :: registers, ∃ f, e ⟨l, r⟩ = some f ∧ ∀ t, known t → f t = some t
  jump : ∀ r ∈ registers, ∃ f, e ⟨ip, r⟩ = some f ∧ ∀ t, known t → f t = if place t then some t else none

namespace Pointer

theorem lookup_zip_self {t : String} {tokens : List String} (ht : t ∈ tokens) : (tokens.zip tokens).lookup t = some t := by
  induction tokens with
  | nil => cases ht
  | cons x tokens ih =>
    rw [List.zip_cons_cons, List.lookup_cons]
    rcases eq_or_ne t x with rfl | hne
    · rw [beq_self_eq_true]
    · rw [beq_eq_false_iff_ne.mpr hne]
      exact ih ((List.mem_cons.mp ht).resolve_left hne)

theorem stay_token? {slots k : Nat} (hk : k < slots) : Shift.stay.token? slots (slotToken k) = some (slotToken k) :=
  lookup_zip_self (List.mem_map_of_mem (List.mem_range.mpr hk))

end Pointer

namespace Processor

/-- What a pathway carries into its target. -/
def carry (v : Processor) (e : Wiring) (p : Pathway) : Option String :=
  match e p with
  | some f => (v.token p.source).bind f
  | none => if p = ⟨co, ci⟩ then outcome v.against (v.token ci) else v.linked p

/-- The processor after a tick. -/
def after (v : Processor) (e : Wiring) (a : Transfer) : Processor :=
  { a.learns.foldl teach v with token := a.flows.foldl (fun f p => Function.update f p.target (v.carry e p)) v.token }

/-- From a state that opens `a` the steps go on, each keyed on a token that its layer holds, and
lead to the processor `w`. -/
inductive Follows (registers : List LayerId) (e : Wiring) : Processor → Transfer → List ControlStep → Processor → Prop
  | done {v : Processor} : Follows registers e v .rest [] v
  | step {v w : Processor} {a b : Transfer} {condition : Option Condition} {alternatives : List (Option Condition)}
      {steps : List ControlStep} (hlegal : a.Legal registers) (hreads : (condition.map (·.layer)).toList = a.reads)
      (hholds : ∀ c ∈ condition, v.token c.layer = some c.token) (h : Follows registers e (v.after e a) b steps w) :
      Follows registers e v a (⟨condition, alternatives, b.gates⟩ :: steps) w

variable {registers : List LayerId} {named : List (LayerId × String)} {e : Wiring} {v w : Processor} {a b : Transfer}
  {steps : List ControlStep}

/-! ## Transfers -/

@[simp] theorem after_rest : v.after e .rest = v := rfl

@[simp] theorem after_reading (layer : LayerId) : v.after e (.reading layer) = v := rfl

theorem after_moving (p : Pathway) : v.after e (.moving [p]) = v.set p.target (v.carry e p) := rfl

theorem after_moving_pair (p q : Pathway) :
    v.after e (.moving [p, q]) = (v.set p.target (v.carry e p)).set q.target (v.carry e q) := rfl

theorem after_learning (p : Pathway) : v.after e (.learning [p]) = v.teach p := by
  unfold after
  show { v.teach p with token := v.token } = v.teach p
  unfold teach
  split <;> rfl

theorem legal_rest : Transfer.rest.Legal registers := ⟨by simp [Transfer.rest], List.nodup_nil, by simp [Transfer.rest]⟩

theorem legal_reading (layer : LayerId) : (Transfer.reading layer).Legal registers :=
  ⟨by simp [Transfer.reading], List.nodup_nil, by simp [Transfer.reading]⟩

theorem legal_moving {flows : List Pathway} (h : ∀ p ∈ flows, p ∈ flowPathways registers ∧ p.target ≠ gh ∧ p.target ≠ go)
    (honce : (flows.map (·.target)).Nodup) : (Transfer.moving flows).Legal registers :=
  ⟨h, honce, by simp [Transfer.moving]⟩

theorem legal_learning {learns : List Pathway} (h : ∀ p ∈ learns, p ∈ plasticPathways registers) :
    (Transfer.learning learns).Legal registers :=
  ⟨by simp [Transfer.learning], List.nodup_nil, h⟩

/-! ## Steps -/

namespace Follows

/-- A tick that is keyed on nothing. -/
theorem tick (hlegal : a.Legal registers) (hreads : a.reads = []) (h : Follows registers e (v.after e a) b steps w) :
    Follows registers e v a (ControlStep.tick b.gates :: steps) w :=
  .step hlegal (by rw [hreads]; rfl) nofun h

/-- The last tick before `start`. -/
theorem last (hlegal : a.Legal registers) (hreads : a.reads = []) :
    Follows registers e v a [ControlStep.tick []] (v.after e a) :=
  .tick (b := .rest) hlegal hreads .done

theorem rests (ticks : Nat) (h : Follows registers e v .rest steps w) :
    Follows registers e v .rest (ControlStep.rests ticks ++ steps) w := by
  induction ticks with
  | zero => exact h
  | succ ticks ih => exact .tick (b := .rest) legal_rest rfl ih

/-- The last tick before layers settle for some ticks. -/
theorem settled (ticks : Nat) (hlegal : a.Legal registers) (hreads : a.reads = []) :
    Follows registers e v a (ControlStep.rests (ticks + 1) ++ [ControlStep.tick []]) (v.after e a) :=
  .tick (b := .rest) hlegal hreads (.rests ticks (.last legal_rest rfl))

/-- A dispatch on the register that an operand layer names, and the tick to the state that acts. -/
theorem on {layer : LayerId} {r : LayerId × String} (hlegal : a.Legal registers) (hreads : a.reads = [layer])
    (hr : v.token layer = some r.2) (h : Follows registers e (v.after e a) b steps w) :
    Follows registers e v a (ControlStep.on named layer r :: ControlStep.tick b.gates :: steps) w := by
  refine .step (b := .rest) hlegal hreads.symm (fun c hc => ?_) (.tick legal_rest rfl h)
  obtain rfl := Option.some.inj hc
  exact hr

/-- The selection by a token of a layer. -/
theorem select {layer : LayerId} {idle taken token : String} (ht : v.token layer = some token)
    (h : Follows registers e v b steps w) :
    Follows registers e v (.reading layer) (ControlStep.select layer idle taken token b.gates :: steps) w := by
  refine .step (legal_reading layer) rfl (fun c hc => ?_) h
  obtain rfl := Option.some.inj hc
  exact ht

/-- The selection by the opcode. -/
theorem enter {op : Opcode} (hop : v.token opc = some op.mnemonic) (h : Follows registers e v b steps w) :
    Follows registers e v (.reading opc) (ControlStep.enter op b.gates :: steps) w := by
  refine .step (legal_reading opc) rfl (fun c hc => ?_) h
  obtain rfl := Option.some.inj hc
  exact hop

end Follows

/-! ## Rounds -/

/-- The operands of an instruction that is loaded name the registers that are read, and what else is
read holds tokens that are known. -/
structure Loaded (registers : List LayerId) (slots : Nat) (known : String → Prop) (i : Instruction) (o : Readings)
    (v : Processor) : Prop where
  opcode : v.token opc = some i.opcode.mnemonic
  first : v.token op1 = some i.first
  second : v.token op2 = some i.second
  firstName : i.opcode.operands[0]? = some .register → o.first.2 = i.first
  secondName : i.opcode.operands[1]? = some .register → o.second.2 = i.second
  equal : v.token co = some (if o.equal then trueToken else falseToken)
  register : ∀ r ∈ registers, ∃ t, v.token r = some t ∧ known t
  slot : ∃ k < slots, v.token mb = some (Pointer.slotToken k)

variable {slots : Nat} {place : String → Bool} {known : String → Prop} {i : Instruction} {o : Readings} {p : Pathway}

section

variable (hs : e.Serves registers slots place known i)

include hs

theorem carry_move {shift : Pointer.Shift} (hp : (p, shift) ∈ Pointer.moves) :
    v.carry e p = (v.token p.source).bind (shift.token? slots) := by
  unfold carry
  rw [hs.move _ hp]

theorem carry_taught (hp : p ∈ plasticPathways registers) (hne : p ≠ ⟨co, ci⟩) : v.carry e p = v.linked p := by
  unfold carry
  rw [hs.taught p hp]
  exact if_neg hne

theorem carry_compare : v.carry e ⟨co, ci⟩ = outcome v.against (v.token ci) := by
  unfold carry
  rw [hs.taught _ (mem_plasticPathways_fixed (by decide))]
  rfl

theorem carry_literal (hi : .literal ∈ i.opcode.operands) (hv : v.token op2 = some i.second) {l : LayerId}
    (hl : l ∈ ci :: registers) : v.carry e ⟨l, op2⟩ = some i.second := by
  obtain ⟨f, hf, hsecond⟩ := hs.literal hi l hl
  unfold carry
  rw [hf]
  show (v.token op2).bind f = _
  rw [hv]
  exact hsecond

theorem carry_label (hi : .label ∈ i.opcode.operands) (hv : v.token op1 = some i.first) :
    v.carry e ⟨ip, op1⟩ = some i.first := by
  obtain ⟨f, hf, hfirst⟩ := hs.label hi
  unfold carry
  rw [hf]
  show (v.token op1).bind f = _
  rw [hv]
  exact hfirst

theorem carry_copy {r l : LayerId} (hr : r ∈ registers) (hl : l ∈ ci :: registers)
    (hv : ∃ t, v.token r = some t ∧ known t) : v.carry e ⟨l, r⟩ = v.token r := by
  obtain ⟨f, hf, hcopy⟩ := hs.copy r hr l hl
  obtain ⟨t, ht, hknown⟩ := hv
  unfold carry
  rw [hf]
  show (v.token r).bind f = _
  rw [ht]
  exact hcopy t hknown

theorem carry_jump {r : LayerId} (hr : r ∈ registers) (hv : ∃ t, v.token r = some t ∧ known t) :
    v.carry e ⟨ip, r⟩ = (v.token r).filter place := by
  obtain ⟨f, hf, hjump⟩ := hs.jump r hr
  obtain ⟨t, ht, hknown⟩ := hv
  unfold carry
  rw [hf]
  show (v.token r).bind f = _
  rw [ht]
  exact (hjump t hknown).trans (by rw [Option.filter_some])

end

/-- Carrying a layer into another one. -/
theorem legal_flow (hp : p ∈ flowPathways registers) (htarget : p.target ≠ gh ∧ p.target ≠ go) :
    (Transfer.moving [p]).Legal registers := by
  refine legal_moving (fun q hq => ?_) (List.nodup_singleton _)
  rw [List.mem_singleton.mp hq]
  exact ⟨hp, htarget⟩

/-- Carrying layers into both layers of a pointer. -/
theorem legal_pair {q : Pathway} (hp : p ∈ flowPathways registers) (hq : q ∈ flowPathways registers)
    (hcontrol : (p.target ≠ gh ∧ p.target ≠ go) ∧ q.target ≠ gh ∧ q.target ≠ go) (hne : p.target ≠ q.target) :
    (Transfer.moving [p, q]).Legal registers := by
  refine legal_moving (fun x hx => ?_) (by simpa using hne)
  rcases List.mem_pair.mp hx with rfl | rfl
  · exact ⟨hp, hcontrol.1⟩
  · exact ⟨hq, hcontrol.2⟩

theorem legal_fixed (hp : p ∈ flowPathways [] ∧ p.target ≠ gh ∧ p.target ≠ go) : (Transfer.moving [p]).Legal registers :=
  legal_flow (mem_flowPathways_fixed hp.1) hp.2

theorem legal_teach (hp : p ∈ plasticPathways registers) : (Transfer.learning [p]).Legal registers :=
  legal_learning fun q hq => by rw [List.mem_singleton.mp hq]; exact hp

/-! ## Opcodes -/

namespace Loaded

variable (hv : v.Loaded registers slots known i o)

include hv

theorem entered {op : Opcode} (hop : i.opcode = op) (h : Follows registers e v b steps w) :
    Follows registers e v (.reading opc) (ControlStep.enter op b.gates :: steps) w :=
  .enter (hop ▸ hv.opcode) h

theorem firstNamed (hi : i.opcode.operands[0]? = some .register) : v.token op1 = some o.first.2 := by
  rw [hv.first, hv.firstName hi]

theorem secondNamed (hi : i.opcode.operands[1]? = some .register) : v.token op2 = some o.second.2 := by
  rw [hv.second, hv.secondName hi]

end Loaded

section

variable (hs : e.Serves registers slots place known i) (hbeyond : ∀ r ∈ registers, ¬ IsControl r)
  (hfirst : o.first.1 ∈ registers) (hsecond : o.second.1 ∈ registers) (hv : v.Loaded registers slots known i o)

include hfirst in
theorem legal_register (hp : p ∈ registerFlows o.first.1) (hcontrol : p.target ≠ gh ∧ p.target ≠ go) :
    (Transfer.moving [p]).Legal registers :=
  legal_flow (mem_flowPathways_register hfirst hp) hcontrol

include hbeyond in
theorem ne_of_control {r l : LayerId} (hr : r ∈ registers) (hl : IsControl l) : r ≠ l :=
  fun heq => hbeyond r hr (heq ▸ hl)

include hs hbeyond hfirst hv in
theorem follows_movv (hop : i.opcode = .movv) :
    Follows registers e v (.reading opc) (Opcode.movv.steps named o) (v.set o.first.1 (some i.second)) := by
  have hcarry := carry_literal hs (by simp [hop, Opcode.operands]) hv.second (List.mem_cons_of_mem _ hfirst)
  have hlegal : (Transfer.moving [⟨o.first.1, op2⟩]).Legal registers := legal_register hfirst (by simp [registerFlows])
    ⟨ne_of_control hbeyond hfirst (by decide), ne_of_control hbeyond hfirst (by decide)⟩
  rw [← hcarry, ← after_moving ⟨o.first.1, op2⟩]
  exact hv.entered (b := .reading op1) hop (.on (b := .moving [⟨o.first.1, op2⟩]) (legal_reading op1) rfl
    (hv.firstNamed (by rw [hop]; rfl)) (.last hlegal rfl))

include hs hbeyond hfirst hsecond hv in
theorem follows_movd (hop : i.opcode = .movd) :
    Follows registers e v (.reading opc) (Opcode.movd.steps named o) (v.set o.first.1 (v.token o.second.1)) := by
  have hcarry := carry_copy hs hsecond (List.mem_cons_of_mem _ hfirst) (hv.register _ hsecond)
  have hlegal : (Transfer.moving [⟨o.first.1, o.second.1⟩]).Legal registers :=
    legal_flow (mem_flowPathways_registers hfirst hsecond)
      ⟨ne_of_control hbeyond hfirst (by decide), ne_of_control hbeyond hfirst (by decide)⟩
  rw [← hcarry, ← after_moving ⟨o.first.1, o.second.1⟩]
  exact hv.entered (b := .reading op1) hop (.on (b := .reading op2) (legal_reading op1) rfl
    (hv.firstNamed (by rw [hop]; rfl)) (.on (b := .moving [⟨o.first.1, o.second.1⟩]) (legal_reading op2) rfl
      (hv.secondNamed (by rw [hop]; rfl)) (.last hlegal rfl)))

include hs hv in
theorem follows_jmpv (hop : i.opcode = .jmpv) :
    Follows registers e v (.reading opc) (Opcode.jmpv.steps named o) (v.set ip (some i.first)) := by
  rw [← carry_label hs (by simp [hop, Opcode.operands]) hv.first, ← after_moving ⟨ip, op1⟩]
  exact hv.entered (b := .moving [⟨ip, op1⟩]) hop (.settled 2 (legal_fixed (by decide)) rfl)

include hs hfirst hv in
theorem follows_jmpd (hop : i.opcode = .jmpd) :
    Follows registers e v (.reading opc) (Opcode.jmpd.steps named o) (v.set ip ((v.token o.first.1).filter place)) := by
  have hlegal : (Transfer.moving [⟨ip, o.first.1⟩]).Legal registers :=
    legal_register hfirst (by simp [registerFlows]) (by decide : ip ≠ gh ∧ ip ≠ go)
  rw [← carry_jump hs hfirst (hv.register _ hfirst), ← after_moving ⟨ip, o.first.1⟩]
  exact hv.entered (b := .reading op1) hop (.on (b := .moving [⟨ip, o.first.1⟩]) (legal_reading op1) rfl
    (hv.firstNamed (by rw [hop]; rfl)) (.settled 2 hlegal rfl))

include hs hv in
theorem follows_jie (hop : i.opcode = .jie) : Follows registers e v (.reading opc) (Opcode.jie.steps named o)
    (if v.token co = some trueToken then v.set ip (some i.first) else v) := by
  obtain ⟨first, second, equal⟩ := o
  cases equal with
  | false =>
    have hfalse : v.token co = some falseToken := hv.equal
    rw [if_neg (by rw [hfalse]; decide)]
    exact hv.entered (b := .reading co) hop (.select (b := .rest) hfalse .done)
  | true =>
    have htrue : v.token co = some trueToken := hv.equal
    rw [if_pos htrue, ← carry_label hs (by simp [hop, Opcode.operands]) hv.first, ← after_moving ⟨ip, op1⟩]
    exact hv.entered (b := .reading co) hop (.select (b := .moving [⟨ip, op1⟩]) htrue (.settled 4 (legal_fixed (by decide)) rfl))

/-- A comparison takes its first side, is taught it, takes its second side and looks that up. -/
theorem compare_eq (first second : Option String) :
    (((v.set ci first).teach ⟨co, ci⟩).set ci second).set co (outcome first second) = v.compare first second := by
  unfold compare set teach
  simp [Function.update_idem]

include hs in
/-- The comparison with what was taught. -/
theorem carry_compared (first second : Option String) :
    (((v.set ci first).teach ⟨co, ci⟩).set ci second).carry e ⟨co, ci⟩ = outcome first second := by
  rw [carry_compare hs, token_set_self]
  unfold teach
  rw [if_pos rfl]
  show outcome ((v.set ci first).token ci) second = _
  rw [token_set_self]

include hfirst in
theorem legal_compared : (Transfer.moving [⟨ci, o.first.1⟩]).Legal registers :=
  legal_register hfirst (by simp [registerFlows]) (by decide : ci ≠ gh ∧ ci ≠ go)

theorem legal_against : (Transfer.learning [⟨co, ci⟩]).Legal registers := legal_teach (mem_plasticPathways_fixed (by decide))

/-- The processor that was taught the first side of a comparison. -/
theorem after_against (hfirst : o.first.1 ∈ registers) (hv : v.Loaded registers slots known i o)
    (hs : e.Serves registers slots place known i) : (v.after e (.moving [⟨ci, o.first.1⟩])).after e (.learning [⟨co, ci⟩]) =
      (v.set ci (v.token o.first.1)).teach ⟨co, ci⟩ := by
  rw [after_moving, carry_copy hs hfirst List.mem_cons_self (hv.register _ hfirst), after_learning]

include hs hfirst hv in
theorem follows_cmpv (hop : i.opcode = .cmpv) : Follows registers e v (.reading opc) (Opcode.cmpv.steps named o)
    (v.compare (v.token o.first.1) (some i.second)) := by
  have hsecond : ((v.set ci (v.token o.first.1)).teach ⟨co, ci⟩).token op2 = some i.second := by
    rw [token_teach, token_set_of_ne _ (by decide), hv.second]
  have hcarry := carry_literal hs (by simp [hop, Opcode.operands]) hsecond List.mem_cons_self
  have hend : (((v.after e (.moving [⟨ci, o.first.1⟩])).after e (.learning [⟨co, ci⟩])).after e (.moving [⟨ci, op2⟩])).after e
      (.moving [⟨co, ci⟩]) = v.compare (v.token o.first.1) (some i.second) := by
    rw [after_against hfirst hv hs, after_moving ⟨ci, op2⟩, hcarry, after_moving, carry_compared hs, compare_eq]
  rw [← hend]
  exact hv.entered (b := .reading op1) hop (.on (b := .moving [⟨ci, o.first.1⟩]) (legal_reading op1) rfl
    (hv.firstNamed (by rw [hop]; rfl)) (.tick (b := .learning [⟨co, ci⟩]) (legal_compared hfirst) rfl
      (.tick (b := .moving [⟨ci, op2⟩]) legal_against rfl (.tick (b := .moving [⟨co, ci⟩]) (legal_fixed (by decide)) rfl
        (.last (legal_fixed (by decide)) rfl)))))

include hs hbeyond hfirst hsecond hv in
theorem follows_cmpd (hop : i.opcode = .cmpd) : Follows registers e v (.reading opc) (Opcode.cmpd.steps named o)
    (v.compare (v.token o.first.1) (v.token o.second.1)) := by
  have hother : ∀ l, l ≠ ci → ((v.set ci (v.token o.first.1)).teach ⟨co, ci⟩).token l = v.token l := by
    intro l hl
    rw [token_teach, token_set_of_ne _ hl]
  have htoken := hother _ (ne_of_control hbeyond hsecond (by decide))
  have hcarry := carry_copy hs hsecond List.mem_cons_self (htoken ▸ hv.register _ hsecond)
  have hlegal : (Transfer.moving [⟨ci, o.second.1⟩]).Legal registers :=
    legal_flow (mem_flowPathways_register hsecond (by simp [registerFlows])) (by decide : ci ≠ gh ∧ ci ≠ go)
  have hend : (((v.after e (.moving [⟨ci, o.first.1⟩])).after e (.learning [⟨co, ci⟩])).after e
      (.moving [⟨ci, o.second.1⟩])).after e (.moving [⟨co, ci⟩]) = v.compare (v.token o.first.1) (v.token o.second.1) := by
    rw [after_against hfirst hv hs, after_moving ⟨ci, o.second.1⟩, hcarry, htoken, after_moving, carry_compared hs, compare_eq]
  have hname : ((v.after e (.moving [⟨ci, o.first.1⟩])).after e (.learning [⟨co, ci⟩])).token op2 = some o.second.2 := by
    rw [after_against hfirst hv hs, hother _ (by decide), hv.secondNamed (by rw [hop]; rfl)]
  rw [← hend]
  exact hv.entered (b := .reading op1) hop (.on (b := .moving [⟨ci, o.first.1⟩]) (legal_reading op1) rfl
    (hv.firstNamed (by rw [hop]; rfl)) (.tick (b := .learning [⟨co, ci⟩]) (legal_compared hfirst) rfl
      (.tick (b := .reading op2) legal_against rfl (.on (b := .moving [⟨ci, o.second.1⟩]) (legal_reading op2) rfl hname
        (.tick (b := .moving [⟨co, ci⟩]) hlegal rfl (.last (legal_fixed (by decide)) rfl))))))

/-- Carrying the slot of one layer into both layers of a pointer. -/
theorem after_point (hs : e.Serves registers slots place known i) {first second source : LayerId} {shift : Pointer.Shift}
    (h₁ : (⟨first, source⟩, shift) ∈ Pointer.moves) (h₂ : (⟨second, source⟩, shift) ∈ Pointer.moves) :
    v.after e (.moving [⟨first, source⟩, ⟨second, source⟩]) =
      v.point first second ((v.token source).bind (shift.token? slots)) := by
  rw [after_moving_pair, carry_move hs h₁, carry_move hs h₂]
  rfl

theorem after_call (hs : e.Serves registers slots place known i) :
    (v.after e (.learning [⟨ip, sf⟩])).after e (.moving [⟨sf, sf⟩, ⟨sb, sf⟩]) = v.call slots := by
  rw [after_learning, after_point hs (by decide : (⟨sf, sf⟩, .on) ∈ Pointer.moves) (by decide), token_teach]
  rfl

/-- A call moves the stack pointer only. -/
theorem token_call {l : LayerId} (hsf : l ≠ sf) (hsb : l ≠ sb) : (v.call slots).token l = v.token l := by
  unfold call point
  rw [token_set_of_ne _ hsb, token_set_of_ne _ hsf, token_teach]

theorem legal_points {first second source : LayerId}
    (hp : (⟨first, source⟩ ∈ flowPathways [] ∧ ⟨second, source⟩ ∈ flowPathways []) ∧
      ((first ≠ gh ∧ first ≠ go) ∧ second ≠ gh ∧ second ≠ go) ∧ first ≠ second) :
    (Transfer.moving [⟨first, source⟩, ⟨second, source⟩]).Legal registers :=
  legal_pair (mem_flowPathways_fixed hp.1.1) (mem_flowPathways_fixed hp.1.2) hp.2.1 hp.2.2

theorem legal_return : (Transfer.learning [⟨ip, sf⟩]).Legal registers := legal_teach (mem_plasticPathways_fixed (by decide))

include hs hv in
theorem follows_subv (hop : i.opcode = .subv) : Follows registers e v (.reading opc) (Opcode.subv.steps named o)
    ((v.call slots).set ip (some i.first)) := by
  have hfirst : (v.call slots).token op1 = some i.first := by rw [token_call (by decide) (by decide), hv.first]
  rw [← carry_label hs (by simp [hop, Opcode.operands]) hfirst, ← after_moving ⟨ip, op1⟩, ← after_call hs]
  exact hv.entered (b := .learning [⟨ip, sf⟩]) hop (.tick (b := .moving [⟨sf, sf⟩, ⟨sb, sf⟩]) legal_return rfl
    (.tick (b := .moving [⟨ip, op1⟩]) (legal_points (by decide)) rfl (.settled 2 (legal_fixed (by decide)) rfl)))

include hs hbeyond hfirst hv in
theorem follows_subd (hop : i.opcode = .subd) : Follows registers e v (.reading opc) (Opcode.subd.steps named o)
    ((v.call slots).set ip ((v.token o.first.1).filter place)) := by
  have hother : (v.call slots).token o.first.1 = v.token o.first.1 :=
    token_call (ne_of_control hbeyond hfirst (by decide)) (ne_of_control hbeyond hfirst (by decide))
  have hlegal : (Transfer.moving [⟨ip, o.first.1⟩]).Legal registers :=
    legal_register hfirst (by simp [registerFlows]) (by decide : ip ≠ gh ∧ ip ≠ go)
  have hname : (v.call slots).token op1 = some o.first.2 := by
    rw [token_call (by decide) (by decide), hv.firstNamed (by rw [hop]; rfl)]
  rw [← hother, ← carry_jump hs hfirst (hother ▸ hv.register _ hfirst), ← after_moving ⟨ip, o.first.1⟩]
  rw [← after_call hs] at hname ⊢
  exact hv.entered (b := .learning [⟨ip, sf⟩]) hop (.tick (b := .moving [⟨sf, sf⟩, ⟨sb, sf⟩]) legal_return rfl
    (.tick (b := .reading op1) (legal_points (by decide)) rfl (.on (b := .moving [⟨ip, o.first.1⟩]) (legal_reading op1) rfl hname
      (.settled 2 hlegal rfl))))

include hs hv in
theorem follows_ret (hop : i.opcode = .ret) : Follows registers e v (.reading opc) (Opcode.ret.steps named o)
    ((v.leave slots).set ip ((v.leave slots).linked ⟨ip, sf⟩)) := by
  have hleave : v.after e (.moving [⟨sb, sb⟩, ⟨sf, sb⟩]) = v.leave slots :=
    after_point hs (by decide : (⟨sb, sb⟩, .back) ∈ Pointer.moves) (by decide)
  rw [← carry_taught hs (mem_plasticPathways_fixed (by decide)) (by decide), ← after_moving ⟨ip, sf⟩, ← hleave]
  exact hv.entered (b := .moving [⟨sb, sb⟩, ⟨sf, sb⟩]) hop (.tick (b := .moving [⟨ip, sf⟩]) (legal_points (by decide)) rfl
    (.last (legal_fixed (by decide)) rfl))

include hfirst hv in
theorem follows_mem (hop : i.opcode = .mem) : Follows registers e v (.reading opc) (Opcode.mem.steps named o)
    (v.teach ⟨o.first.1, mf⟩) := by
  have hlegal : (Transfer.learning [⟨o.first.1, mf⟩]).Legal registers :=
    legal_teach (mem_plasticPathways_register hfirst (by simp [registerPlastic]))
  rw [← after_learning]
  exact hv.entered (b := .reading op1) hop (.on (b := .learning [⟨o.first.1, mf⟩]) (legal_reading op1) rfl
    (hv.firstNamed (by rw [hop]; rfl)) (.last hlegal rfl))

include hs hbeyond hfirst hv in
theorem follows_rem (hop : i.opcode = .rem) : Follows registers e v (.reading opc) (Opcode.rem.steps named o)
    (v.set o.first.1 (v.linked ⟨o.first.1, mf⟩)) := by
  have hlegal : (Transfer.moving [⟨o.first.1, mf⟩]).Legal registers := legal_register hfirst (by simp [registerFlows])
    ⟨ne_of_control hbeyond hfirst (by decide), ne_of_control hbeyond hfirst (by decide)⟩
  have hcarry : v.carry e ⟨o.first.1, mf⟩ = v.linked ⟨o.first.1, mf⟩ :=
    carry_taught hs (mem_plasticPathways_register hfirst (by simp [registerPlastic]))
      fun heq => (ne_of_control hbeyond hfirst (by decide) : o.first.1 ≠ co) (congrArg Pathway.target heq)
  rw [← hcarry, ← after_moving ⟨o.first.1, mf⟩]
  exact hv.entered (b := .reading op1) hop (.on (b := .moving [⟨o.first.1, mf⟩]) (legal_reading op1) rfl
    (hv.firstNamed (by rw [hop]; rfl)) (.last hlegal rfl))

include hs hv in
theorem follows_nxt (hop : i.opcode = .nxt) : Follows registers e v (.reading opc) (Opcode.nxt.steps named o)
    (v.point mf mb ((v.token mf).bind (Pointer.Shift.on.token? slots))) := by
  rw [← after_point hs (by decide : (⟨mf, mf⟩, .on) ∈ Pointer.moves) (by decide)]
  exact hv.entered (b := .moving [⟨mf, mf⟩, ⟨mb, mf⟩]) hop (.last (legal_points (by decide)) rfl)

include hs hv in
theorem follows_prv (hop : i.opcode = .prv) : Follows registers e v (.reading opc) (Opcode.prv.steps named o)
    (v.point mb mf ((v.token mb).bind (Pointer.Shift.back.token? slots))) := by
  rw [← after_point hs (by decide : (⟨mb, mb⟩, .back) ∈ Pointer.moves) (by decide)]
  exact hv.entered (b := .moving [⟨mb, mb⟩, ⟨mf, mb⟩]) hop (.last (legal_points (by decide)) rfl)

theorem after_learning_pair (p q : Pathway) : v.after e (.learning [p, q]) = (v.teach p).teach q := by
  show { (v.teach p).teach q with token := v.token } = _
  rw [← token_teach v p, ← token_teach (v.teach p) q]

include hfirst hv in
theorem follows_ref (hop : i.opcode = .ref) : Follows registers e v (.reading opc) (Opcode.ref.steps named o)
    ((v.teach ⟨mf, o.first.1⟩).teach ⟨mb, o.first.1⟩) := by
  have hlegal : (Transfer.learning [⟨mf, o.first.1⟩, ⟨mb, o.first.1⟩]).Legal registers := legal_learning fun p hp => by
    rcases List.mem_pair.mp hp with rfl | rfl <;>
      exact mem_plasticPathways_register hfirst (by simp [registerPlastic])
  rw [← after_learning_pair (e := e)]
  exact hv.entered (b := .reading op1) hop (.on (b := .learning [⟨mf, o.first.1⟩, ⟨mb, o.first.1⟩]) (legal_reading op1) rfl
    (hv.firstNamed (by rw [hop]; rfl)) (.last hlegal rfl))

/-- Following the reference of a register. -/
theorem after_deref (hs : e.Serves registers slots place known i) (hfirst : o.first.1 ∈ registers) :
    v.after e (.moving [⟨mf, o.first.1⟩, ⟨mb, o.first.1⟩]) =
      (v.set mf (v.linked ⟨mf, o.first.1⟩)).set mb (v.linked ⟨mb, o.first.1⟩) := by
  have hmem : ∀ l ∈ [mf, mb], (⟨l, o.first.1⟩ : Pathway) ∈ plasticPathways registers := fun l hl => by
    rcases List.mem_pair.mp hl with rfl | rfl <;>
      exact mem_plasticPathways_register hfirst (by simp [registerPlastic])
  have hne : ∀ l ∈ [mf, mb], (⟨l, o.first.1⟩ : Pathway) ≠ ⟨co, ci⟩ := fun l hl heq => by
    have hl' := congrArg Pathway.target heq
    dsimp only at hl'
    rw [hl'] at hl
    exact absurd hl (by decide)
  rw [after_moving_pair, carry_taught hs (hmem mf (by simp)) (hne mf (by simp)),
    carry_taught hs (hmem mb (by simp)) (hne mb (by simp))]

theorem legal_deref (hfirst : o.first.1 ∈ registers) :
    (Transfer.moving [⟨mf, o.first.1⟩, ⟨mb, o.first.1⟩]).Legal registers :=
  legal_pair (mem_flowPathways_register hfirst (by simp [registerFlows]))
    (mem_flowPathways_register hfirst (by simp [registerFlows])) (by decide : (mf ≠ gh ∧ mf ≠ go) ∧ mb ≠ gh ∧ mb ≠ go)
    (by decide : mf ≠ mb)

include hs hfirst hv in
theorem follows_drf (hop : i.opcode = .drf) : Follows registers e v (.reading opc) (Opcode.drf.steps named o)
    ((v.set mf (v.linked ⟨mf, o.first.1⟩)).set mb (v.linked ⟨mb, o.first.1⟩)) := by
  rw [← after_deref hs hfirst]
  exact hv.entered (b := .reading op1) hop (.on (b := .moving [⟨mf, o.first.1⟩, ⟨mb, o.first.1⟩]) (legal_reading op1) rfl
    (hv.firstNamed (by rw [hop]; rfl)) (.last (legal_deref hfirst) rfl))

/-- A slot stays what it is on the way over the staged pointer. -/
theorem stay_slot (hv : v.Loaded registers slots known i o) :
    (v.token mb).bind (Pointer.Shift.stay.token? slots) = v.token mb := by
  obtain ⟨k, hk, ht⟩ := hv.slot
  rw [ht]
  exact Pointer.stay_token? hk

/-- Following the reference of a register leaves the reference to the place that was left behind. -/
theorem mref_eq {forward backward : Option String} :
    ((((v.set mp (v.token mb)).set mf forward).set mb backward).teach ⟨mp, mf⟩).point mf mb (v.token mb) =
      ((v.enter ⟨mp, mf⟩ forward (v.token mb)).set mp (v.token mb)).point mf mb (v.token mb) := by
  have hforward : (((v.set mp (v.token mb)).set mf forward).set mb backward).token mf = forward := by
    rw [token_set_of_ne _ (by decide), token_set_self]
  have hstaged : (((v.set mp (v.token mb)).set mf forward).set mb backward).token mp = v.token mb := by
    rw [token_set_of_ne _ (by decide), token_set_of_ne _ (by decide), token_set_self]
  unfold teach
  rw [if_neg (by decide), hforward, hstaged]
  unfold point enter set
  simp only [Function.update_idem, Function.update_comm (by decide : mb ≠ mf)]

include hs hbeyond hfirst hv in
theorem follows_mref (hop : i.opcode = .mref) : Follows registers e v (.reading opc) (Opcode.mref.steps named o)
    (((v.enter ⟨mp, mf⟩ (v.linked ⟨mf, o.first.1⟩) (v.token mb)).set mp (v.token mb)).point mf mb (v.token mb)) := by
  have hstaged : v.after e ⟨[op1], [⟨mp, mb⟩], []⟩ = v.set mp (v.token mb) := by
    rw [← stay_slot hv, ← carry_move hs (by decide : (⟨mp, mb⟩, .stay) ∈ Pointer.moves)]
    rfl
  have hend : (((v.after e ⟨[op1], [⟨mp, mb⟩], []⟩).after e (.moving [⟨mf, o.first.1⟩, ⟨mb, o.first.1⟩])).after e
      (.learning [⟨mp, mf⟩])).after e (.moving [⟨mf, mp⟩, ⟨mb, mp⟩]) =
      ((v.enter ⟨mp, mf⟩ (v.linked ⟨mf, o.first.1⟩) (v.token mb)).set mp (v.token mb)).point mf mb (v.token mb) := by
    rw [hstaged, after_deref hs hfirst, after_learning,
      after_point hs (by decide : (⟨mf, mp⟩, .stay) ∈ Pointer.moves) (by decide), token_teach,
      token_set_of_ne _ (by decide), token_set_of_ne _ (by decide), token_set_self, stay_slot hv]
    unfold linked
    rw [token_set_of_ne _ (ne_of_control hbeyond hfirst (by decide))]
    exact mref_eq
  have hlegal : Transfer.Legal registers ⟨[op1], [⟨mp, mb⟩], []⟩ :=
    ⟨fun p hp => by rw [List.mem_singleton.mp hp]; exact ⟨mem_flowPathways_fixed (by decide), by decide⟩, by decide, nofun⟩
  rw [← hend]
  exact hv.entered (b := ⟨[op1], [⟨mp, mb⟩], []⟩) hop (.on (b := .moving [⟨mf, o.first.1⟩, ⟨mb, o.first.1⟩]) hlegal rfl
    (hv.firstNamed (by rw [hop]; rfl)) (.tick (b := .learning [⟨mp, mf⟩]) (legal_deref hfirst) rfl
      (.tick (b := .moving [⟨mf, mp⟩, ⟨mb, mp⟩]) (legal_teach (mem_plasticPathways_fixed (by decide))) rfl
        (.last (legal_points (by decide)) rfl))))

include hs hv in
theorem follows_mdrf (hop : i.opcode = .mdrf) : Follows registers e v (.reading opc) (Opcode.mdrf.steps named o)
    ((v.set mp (v.linked ⟨mp, mf⟩)).point mf mb ((v.linked ⟨mp, mf⟩).bind (Pointer.Shift.stay.token? slots))) := by
  have hend : (v.after e (.moving [⟨mp, mf⟩])).after e (.moving [⟨mf, mp⟩, ⟨mb, mp⟩]) =
      (v.set mp (v.linked ⟨mp, mf⟩)).point mf mb ((v.linked ⟨mp, mf⟩).bind (Pointer.Shift.stay.token? slots)) := by
    rw [after_moving, carry_taught hs (mem_plasticPathways_fixed (by decide)) (by decide),
      after_point hs (by decide : (⟨mf, mp⟩, .stay) ∈ Pointer.moves) (by decide), token_set_self]
  rw [← hend]
  exact hv.entered (b := .moving [⟨mp, mf⟩]) hop (.tick (b := .moving [⟨mf, mp⟩, ⟨mb, mp⟩]) (legal_fixed (by decide)) rfl
    (.last (legal_points (by decide)) rfl))

include hv in
theorem follows_nop (hop : i.opcode = .nop) : Follows registers e v (.reading opc) (Opcode.nop.steps named o) v :=
  hv.entered (b := .rest) hop .done

include hs hbeyond hfirst hsecond hv in
/-- The round of an opcode, from `ready` on, carries the instruction out. -/
theorem follows_steps (hop : i.opcode ≠ .exit) : Follows registers e v (.reading opc) (i.opcode.steps named o)
    (v.exec slots place i o.first.1 o.second.1) := by
  unfold exec
  cases hi : i.opcode with
  | movv => exact follows_movv hs hbeyond hfirst hv hi
  | movd => exact follows_movd hs hbeyond hfirst hsecond hv hi
  | jmpv => exact follows_jmpv hs hv hi
  | jmpd => exact follows_jmpd hs hfirst hv hi
  | cmpv => exact follows_cmpv hs hfirst hv hi
  | cmpd => exact follows_cmpd hs hbeyond hfirst hsecond hv hi
  | jie => exact follows_jie hs hv hi
  | subv => exact follows_subv hs hv hi
  | subd => exact follows_subd hs hbeyond hfirst hv hi
  | ret => exact follows_ret hs hv hi
  | mem => exact follows_mem hfirst hv hi
  | rem => exact follows_rem hs hbeyond hfirst hv hi
  | nxt => exact follows_nxt hs hv hi
  | prv => exact follows_prv hs hv hi
  | ref => exact follows_ref hfirst hv hi
  | drf => exact follows_drf hs hfirst hv hi
  | mref => exact follows_mref hs hbeyond hfirst hv hi
  | mdrf => exact follows_mdrf hs hv hi
  | exit => exact absurd hi hop
  | nop => exact follows_nop hv hi

/-! ## Instructions -/

/-- The wiring leads from the place of an instruction to its fields and to the place after it. -/
structure Loads (e : Wiring) (i : Instruction) (here after : String) : Prop where
  next : ∃ f, e ⟨ip, ip⟩ = some f ∧ f here = some after
  opcode : ∃ f, e ⟨opc, ip⟩ = some f ∧ f here = some i.opcode.mnemonic
  first : ∃ f, e ⟨op1, ip⟩ = some f ∧ f here = some i.first
  second : ∃ f, e ⟨op2, ip⟩ = some f ∧ f here = some i.second

/-- What is carried from the instruction pointer. -/
theorem carry_place {here : String} (hv : v.token ip = some here) {l : LayerId} {t : String}
    (h : ∃ f, e ⟨l, ip⟩ = some f ∧ f here = some t) : v.carry e ⟨l, ip⟩ = some t := by
  obtain ⟨f, hf, ht⟩ := h
  unfold carry
  rw [hf]
  show (v.token ip).bind f = _
  rw [hv]
  exact ht

/-- What `load` lets through. -/
def loading : Transfer := .moving [⟨ip, ip⟩, ⟨opc, ip⟩, ⟨op1, ip⟩, ⟨op2, ip⟩]

theorem legal_loading : loading.Legal registers := by
  have hfixed : ∀ p ∈ loading.flows, p ∈ flowPathways [] ∧ p.target ≠ gh ∧ p.target ≠ go := by decide
  exact legal_moving (fun p hp => ⟨mem_flowPathways_fixed (hfixed p hp).1, (hfixed p hp).2⟩) (by decide)

theorem after_loading {here next : String} (hl : Loads e i here next) (hv : v.token ip = some here) :
    v.after e loading = v.fetch i next := by
  unfold fetch
  rw [← carry_place hv hl.next, ← carry_place hv hl.opcode, ← carry_place hv hl.first, ← carry_place hv hl.second]
  rfl

end

end Processor

namespace Processor

variable {registers : List LayerId} {named : List (LayerId × String)} {e : Wiring} {v : Processor} {slots : Nat}
  {place : String → Bool} {known : String → Prop} {i : Instruction} {o : Readings}

/-- The way of an instruction loads it and carries it out. -/
theorem follows_way {here next : String} (hs : e.Serves registers slots place known i)
    (hbeyond : ∀ r ∈ registers, ¬ IsControl r) (hfirst : o.first.1 ∈ registers) (hsecond : o.second.1 ∈ registers)
    (hl : Loads e i here next) (hip : v.token ip = some here) (hv : (v.fetch i next).Loaded registers slots known i o) :
    Follows registers e v .rest (i.opcode.way named o) ((v.fetch i next).exec slots place i o.first.1 o.second.1) := by
  have hload {steps : List ControlStep} {w : Processor} (h : Follows registers e (v.fetch i next) (.reading opc) steps w) :
      Follows registers e v .rest (.tick loading.gates :: .tick (Transfer.reading opc).gates :: steps) w := by
    rw [← after_loading hl hip] at h
    exact .tick legal_rest rfl (.tick legal_loading rfl h)
  unfold Opcode.way
  split
  next hop =>
    rw [hop]
    have hexit : (v.fetch i next).exec slots place i o.first.1 o.second.1 = v.fetch i next := by
      unfold exec
      rw [hop]
    rw [hexit]
    exact hload (hv.entered (b := .rest) hop .done)
  next hop => exact hload (follows_steps hs hbeyond hfirst hsecond hv hop)

end Processor

end Engram
