/-
  Engram.Control.Automaton — the control automaton of the whole instruction set.

    start --> load --> ready --opc=movv--> … --> start
                             --opc=jie---> … --> start
                             --opc=exit--> exit --> exit

  The states and transits of each opcode follow its routine; the registers are branched on in
  their order.
-/

import Engram.Control.Microcode
import Engram.Control.Sequencer

namespace Engram

open LayerId Sequencer

variable {α : Type} [Scalar α]

/-- Records the plan from a state on, for the given registers and their names. -/
def Plan.record (registers : List (LayerId × String)) (start state : ControlState α) :
    Plan → Sequencing α Unit
  | .home => do
    let _ ← transit [] state none (some start)
  | .act gates rest => do
    let next ← transit gates state none none
    rest.record registers start next
  | .settle ticks rest => do
    let next ← Sequencer.settle state ticks
    rest.record registers start next
  | .each layer branch => registers.forM fun (r, name) => do
    let chosen ← dispatch state layer name
    (branch r).record registers start chosen
  | .gather layer branch meet rest => do
    let meeting ← registers.foldlM (fun (meeting : Option (ControlState α)) (r, name) => do
      let chosen ← dispatch state layer name
      let acting ← transit (branch r) chosen none none
      let reached ← transit meet acting none meeting
      return some (meeting.getD reached)) none
    match meeting with
    | none => throw (.config .noPointerRegister)
    | some meeting => rest.record registers start meeting
  | .choose layer idle taken gates rest => do
    let _ ← transit [] state (some ⟨layer, idle⟩) (some start)
    let next ← transit gates state (some ⟨layer, taken⟩) none
    rest.record registers start next

/-- Records the routine of an opcode. -/
def Opcode.record (registers : List (LayerId × String)) (start ready : ControlState α) (op : Opcode) :
    Sequencing α Unit := do
  setContext op.mnemonic
  let condition : Condition := ⟨opc, op.mnemonic⟩
  match op.routine with
  | .skip => do
    let _ ← transit [] ready condition (some start)
  | .halt => do
    let halted ← transit [] ready condition none
    nameState halted op.mnemonic
    let _ ← transit [] halted none (some halted)
  | .run gates plan => do
    let entered ← transit gates ready condition none
    nameState entered op.mnemonic
    plan.record registers start entered

/-- Records the automaton, and returns its `start`. -/
def recordInstructions (registers : List (LayerId × String)) : Sequencing α (ControlState α) := do
  setContext "fetch"
  let start ← initial "start"
  let load ← transit Microcode.fetch start none none
  nameState load "load"
  let ready ← transit (Microcode.read opc) load none none
  nameState ready "ready"
  Opcode.all.forM (Opcode.record registers start ready)
  return start

/-- The flashed automaton. -/
structure Automaton (α : Type) where
  weights : Weights α
  errors : Nat
  transits : Nat
  /-- The state in which every instruction starts. -/
  start : ControlState α

/-- Builds and flashes the automaton of a network. The control states and the tokens they are
keyed on stay in its code books. -/
def Network.compile (n : Network α) (verbose : Bool) : Noted (Except (Fault α) (Automaton α) × Network α) :=
  let registers := n.registers.map fun r => (r, n.name r)
  match (recordInstructions registers).run.run (Sequencer.new n) with
  | (.error e, s) => pure (.error e, s.network)
  | (.ok start, s) => do
    let f ← s.flash verbose
    return (.ok ⟨f.weights, f.errors, f.transits, start⟩, s.network)

end Engram
