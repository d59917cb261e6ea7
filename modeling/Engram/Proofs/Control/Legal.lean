/-
  Engram.Proofs.Control.Legal — the routines ask of a network and of a sequencer what they may.

  A plan is legal for what its first state reads: only a state that reads an operand branches on
  it, no other state reads anything, and every gate is one that the network has (`Plan.Legal`). Registers
  are branched on through the operand layers, once each on any way through the plan, and only one
  opcode branches on the comparison output, at once (`Opcode.legal_routine`).
-/

import Engram.Proofs.Control.Failing
import Engram.Proofs.Network.Capacity

namespace Engram

open LayerId

/-- The layers whose tokens name registers. -/
def operandLayers : List LayerId := [op1, op2]

/-- The plan branches on registers through layers of one kind, and chooses on layers of another. -/
def Plan.Branches (each choose : LayerId → Prop) : Plan → Prop
  | .home => True
  | .act _ rest => rest.Branches each choose
  | .settle _ rest => rest.Branches each choose
  | .each layer branch => each layer ∧ ∀ r, (branch r).Branches each choose
  | .gather layer _ _ rest => each layer ∧ rest.Branches each choose
  | .choose layer _ _ _ rest => choose layer ∧ rest.Branches each choose

/-- The plan does not branch on the layer. -/
def Plan.Avoids (l : LayerId) (plan : Plan) : Prop := plan.Branches (· ≠ l) (· ≠ l)

/-- The gates are gates that there are, and read the given layer or none. -/
structure Allowed (units gates : List Gate) (read : Option LayerId) : Prop where
  known : gates ⊆ units
  reads : Sequencer.LetsIn gates read

/-- The plan can be followed from a state that reads the given layer, or none. What is read is
branched on at once; a choice stands at most at the beginning. -/
def Plan.Legal (units : List Gate) (registers : List LayerId) : Bool → Option LayerId → Plan → Prop
  | _, read, .home => read = none
  | _, read, .act gates rest => read = none ∧ ∃ next, Allowed units gates next ∧ rest.Legal units registers false next
  | _, read, .settle _ rest => read = none ∧ rest.Legal units registers false none
  | _, read, .each layer branch => read = some layer ∧ layer ∈ operandLayers ∧
      ∀ r ∈ registers, (branch r).Legal units registers false none ∧ (branch r).Avoids layer
  | _, read, .gather layer branch meet rest => read = some layer ∧ layer ∈ operandLayers ∧
      (∀ r ∈ registers, Allowed units (branch r) none) ∧ Allowed units meet none ∧ rest.Legal units registers false none
  | first, read, .choose layer idle taken gates rest => first = true ∧ read = some layer ∧ layer = co ∧ idle ≠ taken ∧
      ∃ next, Allowed units gates next ∧ rest.Legal units registers false next

/-- The routine can be followed from `ready`. -/
def Routine.Legal (units : List Gate) (registers : List LayerId) : Routine → Prop
  | .skip => True
  | .halt => True
  | .run gates plan => ∃ read, Allowed units gates read ∧ plan.Legal units registers true read

namespace Sequencer

/-! ## What lists of gates read -/

theorem letsIn_of_targets {gates : List Gate} (h : ∀ g ∈ gates, g.target ≠ gh) : LetsIn gates none :=
  fun _ _ => iff_of_false (fun hg => h _ hg rfl) (fun hread => by cases hread)

theorem letsIn_nil : LetsIn [] none := letsIn_of_targets fun _ hg => (List.not_mem_nil hg).elim

theorem letsIn_flow {target : LayerId} (source : LayerId) (h : target ≠ gh) : LetsIn (Gate.flow target source) none := by
  refine letsIn_of_targets fun g hg => ?_
  rcases List.mem_cons.mp hg with rfl | hg
  · exact h
  · rw [List.mem_singleton.mp hg]
    exact h

theorem letsIn_learn {target : LayerId} (source : LayerId) (h : target ≠ gh) : LetsIn [Gate.learn target source] none :=
  letsIn_of_targets fun g hg => by rw [List.mem_singleton.mp hg]; exact h

theorem LetsIn.append {gates gates' : List Gate} (h : LetsIn gates none) (h' : LetsIn gates' none) :
    LetsIn (gates ++ gates') none := by
  intro l hl
  rw [List.mem_append, h l hl, h' l hl, or_self]

end Sequencer

open Sequencer Network

/-! ## The gates of the routines -/

section

variable {registers : List LayerId} {count : Nat} {r s target source : LayerId}

/-- Every control layer and every register has a number below the number of layers. -/
structure Counted (registers : List LayerId) (count : Nat) : Prop where
  control : controlNames.length ≤ count % 65536
  register : ∀ r ∈ registers, ¬ IsControl r ∧ r.position < count % 65536

theorem Allowed.append {units gates gates' : List Gate} {read : Option LayerId} (h : Allowed units gates read)
    (h' : Allowed units gates' none) : Allowed units (gates ++ gates') read := by
  refine ⟨List.append_subset.mpr ⟨h.known, h'.known⟩, fun l hl => ?_⟩
  rw [List.mem_append, h.reads l hl, or_iff_left]
  exact fun hg => nomatch (h'.reads l hl).mp hg

theorem allowed_flow (h : Counted registers count) (hp : ⟨target, source⟩ ∈ flowPathways registers)
    (htarget : (IsControl target ∧ target ≠ gh) ∨ target ∈ registers) :
    Allowed (gateList registers count) (Gate.flow target source) none := by
  have hposition : target.position < count % 65536 :=
    htarget.elim (fun hc => Nat.lt_of_lt_of_le hc.1 h.control) fun hr => (h.register _ hr).2
  have hgh : target ≠ gh := htarget.elim (·.2) fun hr heq => (h.register _ hr).1 (heq ▸ by decide)
  refine ⟨fun g hg => ?_, letsIn_flow source hgh⟩
  rcases List.mem_cons.mp hg with rfl | hg
  · exact mem_copies hp
  · rw [List.mem_singleton.mp hg]
    exact mem_decays_iff.mpr hposition

theorem allowed_learn (h : Counted registers count) (hp : ⟨target, source⟩ ∈ plasticPathways registers)
    (htarget : target ≠ gh ∨ target ∈ registers) : Allowed (gateList registers count) [Gate.learn target source] none := by
  have hgh : target ≠ gh := htarget.elim id fun hr heq => (h.register _ hr).1 (heq ▸ by decide)
  exact ⟨List.cons_subset.mpr ⟨mem_learns hp, List.nil_subset _⟩, letsIn_learn source hgh⟩

/-- The gates through which a condition layer is read. -/
theorem allowed_read (l : LayerId) (hl : l ∈ conditions) : Allowed (gateList registers count) (Microcode.read l) (some l) := by
  have hboth : ∀ l ∈ conditions, (⟨gh, l⟩ : Pathway) ∈ flowPathways [] ∧ ⟨go, l⟩ ∈ flowPathways [] := by decide
  have hreads : ∀ l ∈ conditions, ∀ l' ∈ conditions, Gate.copy gh l' ∈ Microcode.read l ↔ some l = some l' := by decide
  refine ⟨fun g hg => ?_, hreads l hl⟩
  rcases List.mem_cons.mp hg with rfl | hg
  · exact mem_copies (mem_flowPathways_fixed (hboth l hl).1)
  · rw [List.mem_singleton.mp hg]
    exact mem_copies (mem_flowPathways_fixed (hboth l hl).2)

theorem allowed_fetch (h : Counted registers count) : Allowed (gateList registers count) Microcode.fetch none := by
  have hflow (target : LayerId) (hp : ⟨target, ip⟩ ∈ flowPathways [] ∧ IsControl target ∧ target ≠ gh := by decide) :=
    allowed_flow h (mem_flowPathways_fixed hp.1) (.inl hp.2)
  exact (((hflow ip).append (hflow opc)).append (hflow op1)).append (hflow op2)

/-- The gates that every state opens are gates that there are. -/
theorem mem_default (h : Counted registers count) : defaultGates ⊆ gateList registers count := by
  intro g hg
  have hcases : g = .copy gh gh ∨ g = .decay gh ∨ g = .copy go gh ∨ g = .decay go := by
    simpa [defaultGates, Gate.flow] using hg
  have hflows : (⟨gh, gh⟩ : Pathway) ∈ flowPathways [] ∧ (⟨go, gh⟩ : Pathway) ∈ flowPathways [] := by decide
  have hdecay (l : LayerId) (hl : l.position < controlNames.length) : Gate.decay l ∈ gateList registers count :=
    mem_decays_iff.mpr (Nat.lt_of_lt_of_le hl h.control)
  rcases hcases with rfl | rfl | rfl | rfl
  · exact mem_copies (mem_flowPathways_fixed hflows.1)
  · exact hdecay gh (by decide)
  · exact mem_copies (mem_flowPathways_fixed hflows.2)
  · exact hdecay go (by decide)

open Microcode in
/-- Every routine can be followed. -/
theorem Opcode.legal_routine (h : Counted registers count) (op : Opcode) :
    op.routine.Legal (gateList registers count) registers := by
  -- gates between control layers, between a register and a control layer, and between registers
  have hflow (target source : LayerId)
      (hp : ⟨target, source⟩ ∈ flowPathways [] ∧ IsControl target ∧ target ≠ gh := by decide) :=
    allowed_flow h (mem_flowPathways_fixed hp.1) (.inl hp.2)
  have hinto (r source : LayerId) (hr : r ∈ registers) (hp : ⟨r, source⟩ ∈ registerFlows r) :=
    allowed_flow h (mem_flowPathways_register hr hp) (.inr hr)
  have hfrom (target r : LayerId) (hr : r ∈ registers) (hp : ⟨target, r⟩ ∈ registerFlows r)
      (htarget : IsControl target ∧ target ≠ gh := by decide) :=
    allowed_flow h (mem_flowPathways_register hr hp) (.inl htarget)
  have hlearn (target source : LayerId) (hp : ⟨target, source⟩ ∈ plasticPathways [] ∧ target ≠ gh := by decide) :=
    allowed_learn h (mem_plasticPathways_fixed hp.1) (.inl hp.2)
  have hstore (target source r : LayerId) (hr : r ∈ registers) (hp : ⟨target, source⟩ ∈ registerPlastic r)
      (htarget : target ≠ gh ∨ target ∈ registers) :=
    allowed_learn h (mem_plasticPathways_register hr hp) htarget
  have hread (l : LayerId) (hl : l ∈ conditions := by decide) : Allowed (gateList registers count) (Microcode.read l) (some l) :=
    allowed_read l hl
  have hjump (l : LayerId) (hl : Allowed (gateList registers count) (Gate.flow ip l) none) :
      (Plan.jump l).Legal (gateList registers count) registers false none := ⟨rfl, _, hl, rfl, rfl⟩
  have hip (r : LayerId) (hr : r ∈ registers) := hfrom ip r hr (by simp [registerFlows])
  have hci (r : LayerId) (hr : r ∈ registers) := hfrom ci r hr (by simp [registerFlows])
  have hpoint (r : LayerId) (hr : r ∈ registers) : Allowed (gateList registers count) (point r) none :=
    (hfrom mf r hr (by simp [registerFlows])).append (hfrom mb r hr (by simp [registerFlows]))
  have hop1 : op1 ∈ operandLayers := by decide
  have hop2 : op2 ∈ operandLayers := by decide
  cases op with
  | movv => exact ⟨_, hread op1, rfl, hop1, fun r hr => ⟨⟨rfl, _, hinto r op2 hr (by simp [registerFlows]), rfl⟩, trivial⟩⟩
  | movd =>
    refine ⟨_, hread op1, rfl, hop1, fun r hr => ⟨⟨rfl, _, hread op2, rfl, hop2, fun s hs => ⟨⟨rfl, _, ?_, rfl⟩, trivial⟩⟩, ?_⟩⟩
    · exact allowed_flow h (mem_flowPathways_registers hr hs) (.inr hr)
    · exact ⟨by decide, fun _ => trivial⟩
  | jmpv => exact ⟨_, hflow ip op1, rfl, rfl⟩
  | jmpd => exact ⟨_, hread op1, rfl, hop1, fun r hr => ⟨hjump r (hip r hr), trivial⟩⟩
  | cmpv =>
    exact ⟨_, hread op1, rfl, hop1, fun r hr =>
      ⟨⟨rfl, _, hci r hr, rfl, _, hlearn co ci, rfl, _, hflow ci op2, rfl, _, hflow co ci, rfl⟩, trivial⟩⟩
  | cmpd =>
    refine ⟨_, hread op1, rfl, hop1, fun r hr =>
      ⟨⟨rfl, _, hci r hr, rfl, _, hlearn co ci, rfl, _, hread op2, rfl, hop2, fun s hs => ?_⟩, ?_⟩⟩
    · exact ⟨⟨rfl, _, hci s hs, rfl, _, hflow co ci, rfl⟩, trivial⟩
    · exact ⟨by decide, fun _ => trivial⟩
  | jie => exact ⟨_, hread co, rfl, rfl, rfl, by decide, _, hflow ip op1, rfl, rfl⟩
  | subv => exact ⟨_, hlearn ip sf, rfl, _, (hflow sf sf).append (hflow sb sf), hjump op1 (hflow ip op1)⟩
  | subd =>
    exact ⟨_, hlearn ip sf, rfl, _, (hflow sf sf).append (hflow sb sf), rfl, _, hread op1, rfl, hop1, fun r hr =>
      ⟨hjump r (hip r hr), trivial⟩⟩
  | ret => exact ⟨_, (hflow sb sb).append (hflow sf sb), rfl, _, hflow ip sf, rfl⟩
  | mem =>
    exact ⟨_, hread op1, rfl, hop1, fun r hr =>
      ⟨⟨rfl, _, hstore r mf r hr (by simp [registerPlastic]) (.inr hr), rfl⟩, trivial⟩⟩
  | rem => exact ⟨_, hread op1, rfl, hop1, fun r hr => ⟨⟨rfl, _, hinto r mf hr (by simp [registerFlows]), rfl⟩, trivial⟩⟩
  | nxt => exact ⟨_, (hflow mf mf).append (hflow mb mf), rfl⟩
  | prv => exact ⟨_, (hflow mb mb).append (hflow mf mb), rfl⟩
  | ref =>
    have hmf (r : LayerId) (hr : r ∈ registers) := hstore mf r r hr (by simp [registerPlastic]) (.inl (by decide))
    have hmb (r : LayerId) (hr : r ∈ registers) := hstore mb r r hr (by simp [registerPlastic]) (.inl (by decide))
    exact ⟨_, hread op1, rfl, hop1, fun r hr => ⟨⟨rfl, _, (hmf r hr).append (hmb r hr), rfl⟩, trivial⟩⟩
  | drf => exact ⟨_, hread op1, rfl, hop1, fun r hr => ⟨⟨rfl, _, hpoint r hr, rfl⟩, trivial⟩⟩
  | mref =>
    exact ⟨_, (hread op1).append (hflow mp mb), rfl, hop1, hpoint, hlearn mp mf, rfl, _,
      (hflow mf mp).append (hflow mb mp), rfl⟩
  | mdrf => exact ⟨_, hflow mp mf, rfl, _, (hflow mf mp).append (hflow mb mp), rfl⟩
  | exit => trivial
  | nop => trivial

end

/-- With numbers for all of its registers, a network has numbers for all of its layers. -/
theorem Network.BuiltFrom.counted {α : Type} [Scalar α] {c : Config α} {n : Network α} (h : n.BuiltFrom c)
    (hroom : c.registers.length ≤ 65522) : Counted n.registers (controlNames ++ c.registers).length := by
  have hnames : controlNames.length = 13 := rfl
  have hlayers := h.size_layers
  rw [List.length_append]
  refine ⟨by omega, fun r hr => ⟨h.registers_beyond.2 r hr, ?_⟩⟩
  have hposition := (h.numbered.registers r hr).2
  omega

/-- Operands are branched on, and one opcode chooses on the comparison output. -/
theorem Opcode.branches {op : Opcode} {gates : List Gate} {plan : Plan} (h : op.routine = .run gates plan) :
    plan.Branches (· ∈ operandLayers) (fun l => op = .jie ∧ l = co) := by
  cases op <;> cases h <;> simp [Plan.Branches, Plan.jump, operandLayers]

theorem Plan.Branches.mono {each each' choose choose' : LayerId → Prop} {plan : Plan} (h : plan.Branches each choose)
    (heach : ∀ l, each l → each' l) (hchoose : ∀ l, choose l → choose' l) : plan.Branches each' choose' := by
  induction plan with
  | home => trivial
  | act gates rest ih => exact ih h
  | settle ticks rest ih => exact ih h
  | each layer branch ih => exact ⟨heach layer h.1, fun r => ih r (h.2 r)⟩
  | gather layer branch meet rest ih => exact ⟨heach layer h.1, ih h.2⟩
  | choose layer idle taken gates rest ih => exact ⟨hchoose layer h.1, ih h.2⟩

/-- No routine branches on the opcode again. -/
theorem Opcode.avoids_opc {op : Opcode} {gates : List Gate} {plan : Plan} (h : op.routine = .run gates plan) :
    plan.Avoids opc := by
  have hoperands : ∀ l ∈ operandLayers, l ≠ opc := by decide
  exact (Opcode.branches h).mono hoperands fun l hl => hl.2 ▸ by decide

theorem Opcode.avoids_co {op : Opcode} (hop : op ≠ .jie) {gates : List Gate} {plan : Plan} (h : op.routine = .run gates plan) :
    plan.Avoids co := by
  have hoperands : ∀ l ∈ operandLayers, l ≠ co := by decide
  exact (Opcode.branches h).mono hoperands fun l hl => absurd hl.1 hop

end Engram
