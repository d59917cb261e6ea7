/-
  Engram.Machine.Run — instructions and runs, and what a machine shows of itself.

  An instruction ends when the hidden control layer holds `start` again, or `exit`. Both the
  ticks of an instruction and the instructions of a run are limited.
-/

import Engram.Machine.Basic

namespace Engram

open LayerId

/-- How an instruction ended, and after how many ticks. -/
inductive StepOutcome where
  | completed (ticks : Nat)
  | exited (ticks : Nat)
  /-- Neither `start` nor `exit` was reached. -/
  | stalled (ticks : Nat)
  deriving DecidableEq, Repr

/-- How a run ended, and after how many instructions. -/
inductive RunOutcome where
  | exited (steps : Nat)
  | stalled (steps : Nat)
  | stepLimit (steps : Nat)
  deriving DecidableEq, Repr

namespace Machine

variable {α : Type} [Scalar α]

def atStart (m : Machine α) : Bool := m.holding gh == "start"

def atReady (m : Machine α) : Bool := m.holding gh == "ready"

def atExit (m : Machine α) : Bool := m.holding gh == "exit"

/-- Whether the control layer holds a known state. -/
def controlKnown (m : Machine α) : Bool := m.holding gh != unknownToken

/-- Ticks on, after `done` ticks, until a hub is reached. -/
def stepFrom (m : Machine α) (done : Nat) : Nat → Noted (StepOutcome × Machine α)
  | 0 => do
    Noted.warn ("no control hub reached after " ++ toString done ++ " ticks (gh = " ++ m.holding gh ++ ")")
    return (.stalled done, m)
  | budget + 1 => do
    let m ← m.tick
    if m.atExit then return (.exited (done + 1), m)
    else if m.atStart then return (.completed (done + 1), m)
    else m.stepFrom (done + 1) budget

/-- Runs one instruction within a number of ticks. -/
def step (m : Machine α) (maxTicks : Nat) : Noted (StepOutcome × Machine α) := m.stepFrom 0 maxTicks

/-- Runs on, after `done` instructions. -/
def runFrom (m : Machine α) (done : Nat) : Nat → Noted (RunOutcome × Machine α)
  | 0 => return (.stepLimit done, m)
  | budget + 1 => do
    let (outcome, m) ← m.step m.config.maxTicks
    match outcome with
    | .exited _ => return (.exited (done + 1), m)
    | .stalled _ => return (.stalled (done + 1), m)
    | .completed _ => m.runFrom (done + 1) budget

/-- Runs instructions until the exit, a stall or the limit. -/
def run (m : Machine α) (maxSteps : Nat) : Noted (RunOutcome × Machine α) :=
  if m.atExit then return (.exited 0, m) else m.runFrom 0 maxSteps

/-! ## What a machine shows -/

/-- The token that the layer of a name holds. -/
def decode (m : Machine α) (layer : String) : Except (Fault α) String := do
  return m.holding (← m.network.id layer)

/-- The activity of the layer of a name. -/
def activityOf (m : Machine α) (layer : String) : Except (Fault α) (Pattern α) := do
  return m.active (← m.network.id layer)

/-- Sets the activity of the layer of a name. -/
def setActivity (m : Machine α) (layer : String) (p : Pattern α) : Except (Fault α) (Machine α) := do
  let l ← m.network.id layer
  let size := m.network.size l
  if p.size = size then return m.setActive l p else throw (.shapeMismatch [size] [p.size])

/-- What every layer but the gate layer holds, by name. -/
def state (m : Machine α) : List (String × String) :=
  (m.network.layerIds.filter (· != go)).map fun l => (m.network.name l, m.holding l)

/-- The instruction pointer, the loaded instruction and the registers in one line. -/
def stateText (m : Machine α) : String :=
  let registers := m.network.registers.map fun r => m.network.name r ++ ":" ++ m.holding r
  "ip " ++ m.holding ip ++ ": " ++ m.holding opc ++ " " ++ m.holding op1 ++ " " ++ m.holding op2 ++
    ", " ++ String.intercalate "," registers

end Machine

end Engram
