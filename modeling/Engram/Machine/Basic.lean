/-
  Engram.Machine.Basic — a machine: a network with its weights and the activity of its layers.

  In one tick every layer takes up, from the activities before the tick,

    its own activity through the identity pathway, unless its decay gate is open,
    W x + b of every pathway into it that has weights and whose copy gate is open,

  and squashes the sum. A gate is open when its unit of the gate layer is on. Every plastic
  pathway whose learn gate is open stores the association of the activities before the tick; that
  shows from the next tick on.
-/

import Engram.Control.Automaton
import Engram.Data.Plasticity
import Engram.Data.Pointer
import Engram.Data.Session

namespace Engram

open LayerId

structure Machine (α : Type) where
  config : Config α
  /-- The network, and the programs that have been assembled on it. -/
  session : Session α
  weights : Weights α
  plasticity : PlasticityMap α
  /-- The activity of each layer. -/
  activity : Array (Pattern α)
  automaton : Automaton α
  /-- Associations of the pointers and of the automaton that are missed. -/
  buildErrors : Nat
  /-- Ticks since a program was loaded. -/
  ticks : Nat

namespace Machine

variable {α : Type} [Scalar α]

def network (m : Machine α) : Network α := m.session.network

/-- The activity of a layer. -/
def active (m : Machine α) (l : LayerId) : Pattern α := m.activity.getD l.position #[]

/-- The token that a layer holds. -/
def holding (m : Machine α) (l : LayerId) : String := (m.network.layer l).decode (m.active l)

/-- Every gate that a machine over the network looks at. -/
def neededGates (n : Network α) : List Gate :=
  n.flows.map (fun p => .copy p.target p.source) ++ n.layerIds.map .decay ++
  n.plastic.map fun p => .learn p.target p.source

/-- Every layer at rest. -/
def blank (n : Network α) : Array (Pattern α) := n.layers.map (·.blank)

/-- The machine of a configuration. -/
def build (c : Config α) : Noted (Except (Fault α) (Machine α)) := (do
  let n ← ExceptT.mk (Network.build c)
  let ((pointerWeights, pointerErrors), n) ← ExceptT.mk do
    let (r, n) ← Pointer.flash n c.pointerSlots
    return r.map (·, n)
  let (automaton, n) ← ExceptT.mk do
    let (r, n) ← n.compile false
    return r.map (·, n)
  let (plasticity, n) := n.plasticity
  let errors := pointerErrors + automaton.errors
  if errors > 0 then
    liftM (Noted.warn ("machine built with " ++ toString errors ++ " recall errors"))
  liftM (Noted.info ("machine: " ++ toString n.layers.size ++ " layers, " ++ toString n.gates.size ++
    " gates, " ++ toString automaton.transits ++ " control transits"))
  let _ ← liftM ((neededGates n).mapM n.unit)
  return {
    config := c
    session := .new n
    weights := n.resetPlastic plasticity (pointerWeights.extend automaton.weights)
    plasticity, automaton
    activity := blank n
    buildErrors := errors
    ticks := 0 } : ExceptT (Fault α) Noted (Machine α)).run

/-! ## Programs -/

/-- Adds a parsed program under a name; the answer is how many associations are missed. -/
def assembleProgram (m : Machine α) (p : Program) (name : String) :
    Noted (Except (Fault α) Nat × Machine α) := do
  let (r, session) ← (Session.assemble p name m.config.orthogonal false).run.run m.session
  let m := { m with session }
  match r with
  | .error e => return (.error e, m)
  | .ok a => return (.ok a.errors, { m with weights := m.weights.extend a.weights })

/-- Adds the program that a text writes. -/
def assemble (m : Machine α) (source name : String) : Noted (Except (Fault α) Nat × Machine α) :=
  match Program.parse m.network.registerNames source with
  | .error e => pure (.error (.program e), m)
  | .ok p => m.assembleProgram p name

/-- Sets the activity of a layer. -/
def setActive (m : Machine α) (l : LayerId) (p : Pattern α) : Machine α :=
  { m with activity := m.activity.setIfInBounds l.position p }

/-- Lets a layer hold a token, which gets a pattern if it is new. -/
def hold (m : Machine α) (l : LayerId) (token : String) : Machine α :=
  let (p, network) := m.network.encode l token
  { m with session := { m.session with network } }.setActive l p

/-- The pattern of the entry of a program that has been assembled. -/
def entry? (m : Machine α) (program : String) : Option (Pattern α) :=
  if m.session.programs.contains program then (m.network.layer ip).pattern? program else none

/-- Every layer at rest but for those that hold something before the first instruction. -/
def rewind (m : Machine α) (entry : Pattern α) : Machine α :=
  let m := { m with activity := blank m.network }
  let m := m.setActive gh m.automaton.start.hidden
  let m := m.setActive go m.automaton.start.gates
  let m := m.setActive ip entry
  let m := m.hold co falseToken
  Pointer.layers.foldl (fun m l => m.hold l (Pointer.slotToken 0)) m

/-- Lets registers hold tokens. -/
def holdRegisters (m : Machine α) : List (String × String) → Except (Fault α) Unit × Machine α
  | [] => (.ok (), m)
  | (register, token) :: rest =>
    match m.network.id? register with
    | some l =>
      if m.network.registers.contains l then (m.hold l token).holdRegisters rest
      else (.error (.unknownLayer register), m)
    | none => (.error (.unknownLayer register), m)

/-- Brings the machine to the first instruction of a program, with tokens in registers. -/
def load (m : Machine α) (program : String) (registers : List (String × String)) :
    Noted (Except (Fault α) Unit × Machine α) :=
  match m.entry? program with
  | none => pure (.error (.unknownProgram program), m)
  | some entry =>
    match (m.rewind entry).holdRegisters registers with
    | (.error e, m) => pure (.error e, m)
    | (.ok (), m) => do
      Noted.debug ("loaded " ++ program)
      return (.ok (), { m with weights := m.network.resetPlastic m.plasticity m.weights, ticks := 0 })

/-! ## Ticks -/

/-- The gates that are open. -/
def openGates (m : Machine α) : List Gate := m.network.openGates (m.active go)

/-- What a layer takes up in a tick, before squashing. -/
def input (m : Machine α) (open' : List Gate) (l : LayerId) : Pattern α :=
  let own := if open'.contains (.decay l) then Pattern.zero (m.network.size l)
    else (m.active l).map (m.network.activator l).recurrent
  let carried := m.network.flows.filter fun p => p.target == l && open'.contains (.copy p.target p.source)
  carried.foldl (fun sum p =>
    match m.weights[p]? with
    | some c => sum.add (c.drive (m.active p.source))
    | none => sum) own

/-- The activity of a layer after a tick. -/
def next (m : Machine α) (open' : List Gate) (l : LayerId) : Pattern α :=
  (m.input open' l).map (m.network.activator l).squash

/-- Writes the association of the present activities into a plastic pathway. -/
def learnPathway (m : Machine α) (w : Weights α) (p : Pathway) : Noted (Weights α) := do
  match m.plasticity[p]?, w[p]? with
  | some r, some c =>
    let n := m.network
    let f := r.write n.rule c (m.active p.source) (m.active p.target) (n.activator p.source)
      (n.activator p.target)
    f.note 1
    return w.insert p f.connection
  | _, _ => return w

/-- The weights after the learning of a tick. -/
def learned (m : Machine α) (open' : List Gate) : Noted (Weights α) :=
  (m.network.plastic.filter fun p => open'.contains (.learn p.target p.source)).foldlM m.learnPathway m.weights

/-- One tick. -/
def tick (m : Machine α) : Noted (Machine α) := do
  let open' := m.openGates
  let weights ← m.learned open'
  return { m with weights, activity := (m.network.layerIds.map (m.next open')).toArray, ticks := m.ticks + 1 }

end Machine

end Engram
