/-
  Engram.Network.Config — the parameters of one machine, and which of them are valid.

  Faults are reported in the order of the fields; of the register names the first that is wrong
  counts, and a name that is wrong in itself is not compared with the names before it.
-/

import Engram.Association.Flash
import Engram.Fault
import Engram.Layer.Sylvester

namespace Engram

/-- Names of the layers every network has, in the order of their numbers. -/
def controlNames : List String :=
  ["go", "gh", "ip", "opc", "op1", "op2", "ci", "co", "sf", "sb", "mf", "mb", "mp"]

structure Config (α : Type) where
  /-- Names of the register layers, in order. -/
  registers : List String
  /-- Units of a data layer. -/
  layerSize : Nat
  /-- Units of the hidden control layer. -/
  hiddenSize : Nat
  squashing : Squashing
  /-- Distance of the saturation levels from the asymptotes. -/
  pad : α
  rule : Rule
  /-- Whether program tokens get orthogonal patterns. -/
  orthogonal : Bool
  /-- Slots of the stack and of the memory. -/
  pointerSlots : Nat
  seed : UInt64
  /-- The greatest number of ticks of one instruction. -/
  maxTicks : Nat

namespace Config

variable {α : Type} [Scalar α]

def standard : Config α where
  registers := ["r0", "r1", "r2"]
  layerSize := 64
  hiddenSize := 256
  squashing := .tanh
  pad := Activator.standard.pad
  rule := .rehebbian
  orthogonal := false
  pointerSlots := 32
  seed := 0
  maxTicks := 50

def withRegisters (registers : List String) : Config α := { standard with registers }

/-- Small layers and one register. -/
def compact : Config α :=
  { standard with registers := ["r0"], layerSize := 32, hiddenSize := 128, pointerSlots := 16 }

def activator (c : Config α) : Activator α := ⟨c.squashing, c.pad⟩

/-- What is wrong with a register name after the given ones. -/
def registerFault? (earlier : List String) (name : String) : Option (ConfigFault α) :=
  if name.isEmpty || name.toList.any Text.isBlank then some (.invalidRegister name)
  else if controlNames.contains name || name == nullToken then some (.reservedRegister name)
  else if earlier.contains name then some (.repeatedRegister name)
  else none

/-- The first fault of a list of register names that follows the given ones. -/
def registersFault? (earlier : List String) : List String → Option (ConfigFault α)
  | [] => none
  | name :: rest =>
    match registerFault? earlier name with
    | some fault => some fault
    | none => registersFault? (earlier ++ [name]) rest

/-- The first fault of a configuration. -/
def fault? (c : Config α) : Option (ConfigFault α) :=
  if c.registers.isEmpty then some .noRegister
  else match registersFault? [] c.registers with
    | some fault => some fault
    | none =>
      if !Sylvester.isPowerOfTwo c.layerSize || decide (c.layerSize < 8) then some (.layerSize c.layerSize)
      else if c.hiddenSize < 32 then some (.hiddenSize c.hiddenSize)
      else if !(Scalar.lt 0 c.pad && Scalar.lt c.pad (1 / ((2 : Nat) : α))) then some (.pad c.pad)
      else if c.pointerSlots < 2 ∨ c.layerSize < c.pointerSlots then
        some (.pointerSlots c.layerSize c.pointerSlots)
      else if c.maxTicks = 0 then some .tickBudget
      else none

def validate (c : Config α) : Except (Fault α) Unit :=
  match c.fault? with
  | some fault => .error (.config fault)
  | none => .ok ()

end Config

end Engram
