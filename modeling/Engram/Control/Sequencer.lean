/-
  Engram.Control.Sequencer — building the control automaton one transit at a time.

  A control state is a pattern of the gate layer together with a pattern of the hidden layer. A
  transit is one association of the recurrent control pathways: from the hidden pattern of the
  old state, and the patterns of the condition layers, to the target state. A transit is keyed
  on at most one condition, a token in a condition layer; that layer's block of the input holds
  the pattern of the token and the other blocks are zero. This is what a running network sees,
  provided the old state has the gates from that condition layer open and those from the others
  closed; a transit whose old state has not is refused.

  A condition layer is used in one of two ways. It is selected on when one state alone reads
  it, and then the branches lead anywhere. It is dispatched on when any number of states read
  it over the same tokens; then the inputs are linearly dependent, and the target of each pair
  of state and token is composed of a part for the state and a part for the token.

  Nothing is learned before `flash`, which writes all transits at once.
-/

import Engram.Association.Flash
import Engram.Network.Basic
import Engram.Network.Weights

namespace Engram

open LayerId

structure ControlState (α : Type) where
  gates : Pattern α
  hidden : Pattern α

/-- A token that a condition layer holds. -/
structure Condition where
  layer : LayerId
  token : String
  deriving DecidableEq, Repr

/-- What a transit is recorded under: the bits of its source state and its condition. -/
structure TransitKey where
  hidden : Bits
  gates : Bits
  condition : Option Condition
  deriving Repr

instance : DecidableEq TransitKey := fun a b =>
  decidable_of_iff (a.hidden = b.hidden ∧ a.gates = b.gates ∧ a.condition = b.condition)
    (by cases a; cases b; simp)

/-- How a condition layer keys the automaton. -/
inductive Keying where
  /-- One state reads it, the one with these hidden bits. -/
  | select (hidden : Bits)
  /-- Any number of states read it. -/
  | dispatch
  deriving Repr

instance : DecidableEq Keying
  | .select a, .select b => decidable_of_iff (a = b) ⟨congrArg _, Keying.select.inj⟩
  | .select _, .dispatch => isFalse nofun
  | .dispatch, .select _ => isFalse nofun
  | .dispatch, .dispatch => isTrue rfl

structure Transit (α : Type) where
  key : TransitKey
  input : Pattern α
  target : ControlState α

structure Sequencer (α : Type) where
  network : Network α
  /-- Transits in the order in which they were recorded. -/
  transits : List (Transit α)
  keying : List (LayerId × Keying)
  /-- The signs that a dispatch on a layer takes away. -/
  offsets : List (LayerId × Bits)
  /-- The signs that a dispatch on a condition adds. -/
  codes : List (Condition × Bits)
  stream : Random.Stream
  /-- Name of what is being built, for the names of fresh states and for faults. -/
  context : String
  /-- How many states have been named after the contexts. -/
  named : Nat

/-- What flashing the automaton leaves. -/
structure ControlFlash (α : Type) where
  weights : Weights α
  errors : Nat
  transits : Nat

/-- An operation on a sequencer that can fail. What it did before it failed stays done. -/
abbrev Sequencing (α β : Type) := ExceptT (Fault α) (StateM (Sequencer α)) β

namespace Sequencer

variable {α : Type} [Scalar α]

def new (n : Network α) : Sequencer α where
  network := n
  transits := []
  keying := []
  offsets := []
  codes := []
  stream := .ofSeed (n.seed * Network.seedFactor ^^^ 0xD15BA7C4)
  context := "control"
  named := 0

def hiddenBits (s : Sequencer α) (state : ControlState α) : Bits := (s.network.layer gh).bits state.hidden

def gateBits (s : Sequencer α) (state : ControlState α) : Bits := (s.network.layer go).bits state.gates

/-- The name of a state, by its hidden pattern. -/
def stateName (s : Sequencer α) (state : ControlState α) : String :=
  (s.network.layer gh).decode state.hidden

def key (s : Sequencer α) (old : ControlState α) (condition : Option Condition) : TransitKey :=
  ⟨s.hiddenBits old, s.gateBits old, condition⟩

/-- Whether two states have the same bits. -/
def sameState (s : Sequencer α) (a b : ControlState α) : Bool :=
  s.gateBits a == s.gateBits b && s.hiddenBits a == s.hiddenBits b

def find? (s : Sequencer α) (k : TransitKey) : Option (Transit α) := s.transits.find? (·.key = k)

def conditionName (s : Sequencer α) : Option Condition → String
  | some c => s.network.name c.layer ++ "=" ++ c.token
  | none => "no condition"

/-- Units of the condition layers together. -/
def conditionSize (n : Network α) : Nat := conditions.foldr (fun l total => n.size l + total) 0

/-- Units of an input: the hidden layer and the condition layers. -/
def inputSize (n : Network α) : Nat := n.size gh + conditionSize n

/-- The gate pattern that opens the given gates and the default ones. -/
def makeGates (n : Network α) (open' : List Gate) : Except (Fault α) (Pattern α) := do
  let units ← (defaultGates ++ open').mapM n.unit
  let act := n.activator go
  return units.foldl (fun p u => p.setIfInBounds u act.on) (Array.replicate (n.size go) act.off)

/-- Refuses a transit whose old state has the gates from a condition layer open or closed
against what the transit is keyed on. -/
def checkLayer (s : Sequencer α) (old : ControlState α) (condition : Option Condition)
    (layer : LayerId) : Except (Fault α) Unit := do
  let unit ← s.network.unit (.copy gh layer)
  let isOpen := (s.network.activator go).isOn (old.gates.entry unit)
  let isKeyed := condition.any (·.layer == layer)
  if isKeyed && !isOpen then
    throw (.conditionNotGated s.context (s.stateName old) (s.network.name layer))
  if isOpen && !isKeyed then
    throw (.unconditionedBias s.context (s.stateName old) (s.network.name layer))

def checkCondition (s : Sequencer α) (old : ControlState α) (condition : Option Condition) :
    Except (Fault α) Unit := do
  match condition with
  | some c =>
    unless conditions.contains c.layer do
      throw (.conditionNotGated s.context (s.stateName old) (s.network.name c.layer))
  | none => pure ()
  conditions.forM (s.checkLayer old condition)

/-- Notes how a layer keys the automaton, and refuses a second way. -/
def claim (old : ControlState α) (layer : LayerId) (keying : Keying) : Sequencing α Unit := do
  let s ← get
  match s.keying.lookup layer with
  | none => set { s with keying := s.keying ++ [(layer, keying)] }
  | some earlier =>
    if earlier ≠ keying then
      throw (.sharedCondition s.context (s.stateName old) (s.network.name layer))

/-- A new name after the context. -/
def freshName : Sequencing α String := do
  let s ← get
  set { s with named := s.named + 1 }
  return s.context ++ "." ++ toString s.named

/-- A hidden pattern under a new name. -/
def freshHidden : Sequencing α (Pattern α) := do
  let name ← freshName
  let s ← get
  let (p, network) := s.network.encode gh name
  set { s with network }
  return p

/-- Gives a state a name on the hidden layer. -/
def nameState (state : ControlState α) (name : String) : Sequencing α Unit :=
  modify fun s => { s with network := s.network.bindToken gh name state.hidden }

def setContext (context : String) : Sequencing α Unit := modify ({ · with context })

/-- The input of a transit. A token that its layer does not know gets a pattern. -/
def jointInput (old : ControlState α) (condition : Option Condition) : Sequencing α (Pattern α) := do
  match condition with
  | none => return old.hidden ++ Pattern.zero (conditionSize (← get).network)
  | some c =>
    let s ← get
    let (p, network) := s.network.encode c.layer c.token
    set { s with network }
    return conditions.foldl (fun input layer =>
      input ++ if layer = c.layer then p else Pattern.zero (network.size layer)) old.hidden

/-- Records a transit that is not recorded yet. -/
def record (old : ControlState α) (condition : Option Condition) (target : ControlState α) :
    Sequencing α (ControlState α) := do
  let input ← jointInput old condition
  modify fun s => { s with transits := s.transits ++ [⟨s.key old condition, input, target⟩] }
  return target

/-- An entry state with the default gates and a name. -/
def initial (name : String) : Sequencing α (ControlState α) := do
  let gates ← liftM (makeGates (← get).network [])
  let state := ⟨gates, ← freshHidden⟩
  nameState state name
  return state

/-- Adds a transit from `old`. Its target is the given state, or else a fresh one that opens the
given gates and the default ones. A transit that is recorded already is only accepted with the
target it has. -/
def transit (open' : List Gate) (old : ControlState α) (condition : Option Condition)
    (target : Option (ControlState α)) : Sequencing α (ControlState α) := do
  liftM ((← get).checkCondition old condition)
  if let some c := condition then
    claim old c.layer (.select ((← get).hiddenBits old))
  let s ← get
  match s.find? (s.key old condition), target with
  | some earlier, some target =>
    if s.sameState earlier.target target then return earlier.target
    else throw (.transitConflict s.context (s.stateName old) (s.conditionName condition))
  | some _, none => throw (.transitConflict s.context (s.stateName old) (s.conditionName condition))
  | none, some target => record old condition target
  | none, none =>
    let gates ← liftM (makeGates s.network open')
    record old condition ⟨gates, ← freshHidden⟩

/-- The signs that a dispatch on a layer takes away. -/
def offset (layer : LayerId) : Sequencing α Bits := do
  let s ← get
  match s.offsets.lookup layer with
  | some signs => return signs
  | none =>
    let (signs, stream) := s.stream.bits (s.network.size gh)
    set { s with stream, offsets := s.offsets ++ [(layer, signs)] }
    return signs

/-- The signs that a dispatch on a condition adds. -/
def code (condition : Condition) : Sequencing α Bits := do
  let s ← get
  match s.codes.lookup condition with
  | some signs => return signs
  | none =>
    let (signs, stream) := s.stream.bits (s.network.size gh)
    set { s with stream, codes := s.codes ++ [(condition, signs)] }
    return signs

/-- One, positive or negative. -/
def signed (positive : Bool) : α := if positive then 1 else -1

/-- The composed hidden pattern: its input is a sum of a part for the old state and a part for
the condition, so that one linear map fits every pair of them. The unit is a third of what
saturates, so the input stays in the band; the sign of each unit is the majority of three. -/
def compose (act : Activator α) (old : Pattern α) (code offset : Bits) : Pattern α :=
  let mid := act.inverse act.midpoint
  let unit := (act.inverse act.on - mid) / ((3 : Nat) : α)
  let signs := ((act.bits old).zip (code.zip offset)).map fun (a, c, o) =>
    (signed a + signed c - signed o : α)
  (signs.map fun sign => act.squash (mid + unit * sign)).toArray

/-- Adds a transit on a dispatch layer, to a composed state with the default gates only. -/
def dispatch (old : ControlState α) (layer : LayerId) (token : String) : Sequencing α (ControlState α) := do
  let condition : Condition := ⟨layer, token⟩
  liftM ((← get).checkCondition old condition)
  claim old layer .dispatch
  let s ← get
  match s.find? (s.key old condition) with
  | some earlier => return earlier.target
  | none =>
    let offset ← offset layer
    let code ← code condition
    let n := (← get).network
    let hidden := compose (n.activator gh) old.hidden code offset
    let target := ⟨← liftM (makeGates n []), hidden⟩
    nameState target (← freshName)
    record old condition target

/-- Adds a chain of transits with the default gates only. -/
def settle (old : ControlState α) : Nat → Sequencing α (ControlState α)
  | 0 => return old
  | n + 1 => do settle (← transit [] old none none) n

/-- The part of a joint connection that acts on the block of a source layer, with the given bias. -/
def block (n : Network α) (target : LayerId) (joint : Connection α) (start : Nat) (source : LayerId)
    (bias : Pattern α) : Pathway × Connection α :=
  (⟨target, source⟩, ⟨joint.weights.slice start (n.size source), bias⟩)

/-- The blocks of the given layers, from a start on, without bias. -/
def blocksFrom (n : Network α) (target : LayerId) (joint : Connection α) (start : Nat) :
    List LayerId → List (Pathway × Connection α)
  | [] => []
  | layer :: rest =>
    block n target joint start layer (Pattern.zero joint.bias.size) ::
      blocksFrom n target joint (start + n.size layer) rest

/-- The connections into a control layer, cut out of the joint connection. The bias goes with
the hidden layer. -/
def split (n : Network α) (target : LayerId) (joint : Connection α) : List (Pathway × Connection α) :=
  block n target joint 0 gh joint.bias :: blocksFrom n target joint (n.size gh) conditions

/-- Writes every transit at once: the hidden layer learns the hidden patterns of the targets,
the gate layer their gate patterns. -/
def flash (s : Sequencer α) (verbose : Bool) : Noted (ControlFlash α) := do
  let n := s.network
  let inputs : Columns α := ⟨inputSize n, s.transits.map (·.input)⟩
  let count := s.transits.length
  let learn (target : LayerId) (patterns : List (Pattern α)) : Noted (Flash α) := do
    let f := Association.flash n.rule (.zero (n.size target) (inputSize n)) inputs
      ⟨n.size target, patterns⟩ (n.activator gh) (n.activator target)
    f.note count
    return f
  let recurrent ← learn gh (s.transits.map (·.target.hidden))
  let readout ← learn go (s.transits.map (·.target.gates))
  let errors := recurrent.errors + readout.errors
  let done := "control automaton: " ++ toString count ++ " transits flashed"
  if errors > 0 then
    Noted.warn ("control automaton: " ++ toString errors ++ " of " ++ toString count ++
      " transits not recalled (hidden " ++ toString recurrent.errors ++ ", gates " ++
      toString readout.errors ++ ")")
  else if verbose then Noted.info done
  else Noted.debug done
  let weights := (split n gh recurrent.connection ++ split n go readout.connection).foldl
    (fun (w : Weights α) (p, c) => w.insert p c) {}
  return ⟨weights, errors, count⟩

end Sequencer

end Engram
