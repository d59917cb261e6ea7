/-
  Engram.Network.Basic — the layers, pathways and gates of one configuration.

    go             gate output, one unit for each gate
    gh             hidden state of the control automaton
    ip             instruction pointer
    opc op1 op2    fields of the loaded instruction
    ci  co         comparison input and output
    sf  sb         stack pointer, forward and backward
    mf  mb  mp     memory pointer, forward, backward and staged
    r…             registers

  Layers are numbered in this order by 16-bit numbers. A flow is a pathway that carries
  activity when its copy gate is open, a plastic pathway one that is written when its learn gate
  is open; besides these gates every layer has a decay gate.
-/

import Engram.Layer.Basic
import Engram.Network.Config
import Engram.Notice

namespace Engram

namespace LayerId

def go : LayerId := ⟨0⟩
def gh : LayerId := ⟨1⟩
def ip : LayerId := ⟨2⟩
def opc : LayerId := ⟨3⟩
def op1 : LayerId := ⟨4⟩
def op2 : LayerId := ⟨5⟩
def ci : LayerId := ⟨6⟩
def co : LayerId := ⟨7⟩
def sf : LayerId := ⟨8⟩
def sb : LayerId := ⟨9⟩
def mf : LayerId := ⟨10⟩
def mb : LayerId := ⟨11⟩
def mp : LayerId := ⟨12⟩

/-- The layer of the register at a position. -/
def register (i : Nat) : LayerId := ⟨UInt16.ofNat (controlNames.length + i)⟩

/-- The layers whose tokens can key a control transit. -/
def conditions : List LayerId := [opc, op1, op2, co]

def position (l : LayerId) : Nat := l.index.toNat

end LayerId

open LayerId

/-- The gates that every control state keeps open. -/
def defaultGates : List Gate := Gate.flow gh gh ++ Gate.flow go gh

/-- The pathways that carry activity, in the order of their gates. -/
def flowPathways (registers : List LayerId) : List Pathway :=
  [⟨gh, gh⟩, ⟨go, gh⟩] ++ conditions.flatMap (fun c => [⟨gh, c⟩, ⟨go, c⟩]) ++
  [⟨ip, ip⟩, ⟨opc, ip⟩, ⟨op1, ip⟩, ⟨op2, ip⟩, ⟨ip, op1⟩] ++
  registers.flatMap (fun r => [⟨r, op2⟩, ⟨ip, r⟩, ⟨ci, r⟩, ⟨r, mf⟩, ⟨mf, r⟩, ⟨mb, r⟩]) ++
  registers.flatMap (fun r => registers.map (⟨r, ·⟩)) ++
  [⟨ci, op2⟩, ⟨co, ci⟩] ++
  [⟨sf, sf⟩, ⟨sb, sf⟩, ⟨sb, sb⟩, ⟨sf, sb⟩, ⟨ip, sf⟩] ++
  [⟨mf, mf⟩, ⟨mb, mf⟩, ⟨mb, mb⟩, ⟨mf, mb⟩, ⟨mp, mb⟩, ⟨mf, mp⟩, ⟨mb, mp⟩, ⟨mp, mf⟩]

/-- The pathways that are written at run time, in the order of their gates. -/
def plasticPathways (registers : List LayerId) : List Pathway :=
  [⟨ip, sf⟩, ⟨co, ci⟩] ++ registers.flatMap (fun r => [⟨r, mf⟩, ⟨mf, r⟩, ⟨mb, r⟩]) ++ [⟨mp, mf⟩]

structure Network (α : Type) where
  layers : Array (Layer α)
  registers : List LayerId
  gates : GateMap
  rule : Rule
  seed : UInt64

namespace Network

variable {α : Type} [Scalar α]

/-- Every gate of a network with the given registers and number of layers. -/
def gateList (registers : List LayerId) (layerCount : Nat) : List Gate :=
  (flowPathways registers).map (fun p => .copy p.target p.source) ++
  (plasticPathways registers).map (fun p => .learn p.target p.source) ++
  (List.range (UInt16.ofNat layerCount).toNat).map fun i => .decay ⟨UInt16.ofNat i⟩

/-- The multiplier that spreads seeds over the 64-bit numbers. -/
def seedFactor : UInt64 := 0x9E3779B97F4A7C15

/-- The layer at a position. -/
def buildLayer (c : Config α) (gateCount i : Nat) (name : String) : Layer α :=
  let id : LayerId := ⟨UInt16.ofNat i⟩
  let size := if id = go then gateCount else if id = gh then c.hiddenSize else c.layerSize
  .new name size c.activator (c.seed * seedFactor + UInt64.ofNat (i + 1))

/-- The network of a valid configuration. -/
def build (c : Config α) : Noted (Except (Fault α) (Network α)) :=
  match c.validate with
  | .error e => pure (.error e)
  | .ok () => do
    let names := controlNames ++ c.registers
    let registers := (List.range (UInt16.ofNat c.registers.length).toNat).map LayerId.register
    match GateMap.ofList (gateList registers names.length) with
    | .error g => pure (.error (.repeatedGate g.number))
    | .ok gates =>
      Noted.debug (s!"network: {names.length} layers, {(flowPathways registers).length} flows, " ++
        s!"{(plasticPathways registers).length} plastic pathways, {gates.size} gates")
      return .ok {
        layers := (names.mapIdx (buildLayer c gates.size)).toArray
        registers, gates, rule := c.rule, seed := c.seed }

def layer (n : Network α) (l : LayerId) : Layer α := n.layers.getD l.position .absent

def modifyLayer (n : Network α) (l : LayerId) (layer : Layer α) : Network α :=
  { n with layers := n.layers.setIfInBounds l.position layer }

/-- The layer of a name. -/
def id? (n : Network α) (name : String) : Option LayerId :=
  (n.layers.findIdx? (·.name == name)).map fun i => ⟨UInt16.ofNat i⟩

def id (n : Network α) (name : String) : Except (Fault α) LayerId :=
  match n.id? name with
  | some l => .ok l
  | none => .error (.unknownLayer name)

def name (n : Network α) (l : LayerId) : String := (n.layer l).name

def size (n : Network α) (l : LayerId) : Nat := (n.layer l).size

def activator (n : Network α) (l : LayerId) : Activator α := (n.layer l).activator

def flows (n : Network α) : List Pathway := flowPathways n.registers

def plastic (n : Network α) : List Pathway := plasticPathways n.registers

/-- Every layer, in order. -/
def layerIds (n : Network α) : List LayerId := (List.range n.layers.size).map fun i => ⟨UInt16.ofNat i⟩

def registerNames (n : Network α) : List String := n.registers.map n.name

def isRegister (n : Network α) (name : String) : Bool :=
  match n.id? name with
  | some l => n.registers.contains l
  | none => false

def gateName (n : Network α) (g : Gate) : String := g.name n.name

/-- The unit of a gate. -/
def unit (n : Network α) (g : Gate) : Except (Fault α) Nat :=
  match n.gates.unit? g with
  | some u => .ok u
  | none => .error (.unknownGate (n.gateName g))

def pathwayName (n : Network α) (p : Pathway) : String := n.name p.target ++ "<-" ++ n.name p.source

/-- The gates that a pattern of the gate layer opens, in the order of their units. -/
def openGates (n : Network α) (p : Pattern α) : List Gate := n.gates.openGates ((n.activator go).bits p)

/-! ## Code books

Operations on the code book of one layer of a network. -/

def bindToken (n : Network α) (l : LayerId) (token : String) (p : Pattern α) : Network α :=
  n.modifyLayer l ((n.layer l).bind token p)

def encode (n : Network α) (l : LayerId) (token : String) : Pattern α × Network α :=
  let (p, layer) := (n.layer l).encode token
  (p, n.modifyLayer l layer)

/-- The patterns of several tokens as the columns of a batch. -/
def encodeAll (n : Network α) (l : LayerId) (orthogonal : Bool) (tokens : List String) :
    Except (Fault α) (Columns α) × Network α :=
  let (r, layer) := (n.layer l).encodeAll orthogonal tokens
  (r.map (⟨n.size l, ·⟩), n.modifyLayer l layer)

end Network

end Engram
