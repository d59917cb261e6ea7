/-
  Engram.Fault — what can go wrong, as causes, and the message of each.

  A fault carries what its message names. Numbers of the network's scalar type appear in one
  message only, so the function that writes them is an argument of `message`.
-/

import Engram.Breach
import Engram.Network.Gate
import Engram.Program.Parser

namespace Engram

/-- Why a configuration, or what is asked of a configured machine, is not acceptable. -/
inductive ConfigFault (α : Type) where
  | noRegister
  | invalidRegister (name : String)
  | reservedRegister (name : String)
  | repeatedRegister (name : String)
  | layerSize (given : Nat)
  | hiddenSize (given : Nat)
  | pad (given : α)
  | pointerSlots (limit given : Nat)
  | tickBudget
  /-- Orthogonal patterns exist only for layers whose size is a power of two. -/
  | patternSize (layer : String) (size : Nat)
  | programName (name : String)
  | emptyProgram (name : String)
  /-- Pointers cannot be stored through a register when there is none. -/
  | noPointerRegister
  | artifactVersion (given : Nat)

/-- Why a file could not be read or written. -/
inductive FileFault where
  | notFound
  | isDirectory
  | notDirectory
  | nameTooLong
  | denied
  | invalidText
  | other (text : String)
  deriving DecidableEq, Repr

inductive Fault (α : Type) where
  | program (error : Program.Error)
  /-- Two transits leave one state on one condition for different targets. -/
  | transitConflict (context state condition : String)
  /-- A transit is keyed on a layer that its source state does not read. -/
  | conditionNotGated (context state layer : String)
  /-- The source state reads a layer that the transit is not keyed on. -/
  | unconditionedBias (context state layer : String)
  /-- A condition layer is keyed in two ways. -/
  | sharedCondition (context state layer : String)
  | unknownLayer (name : String)
  | unknownGate (name : String)
  | repeatedGate (name : String)
  | unknownProgram (name : String)
  | config (cause : ConfigFault α)
  /-- The orthogonal patterns of a layer are used up. -/
  | exhausted (layer : String) (requested capacity : Nat)
  | shapeMismatch (expected actual : List Nat)
  | file (cause : FileFault)
  /-- A text is not the JSON of what was to be read. -/
  | malformed
  | breach (cause : Breach)

def FileFault.message : FileFault → String
  | notFound => "No such file or directory (os error 2)"
  | isDirectory => "Is a directory (os error 21)"
  | notDirectory => "Not a directory (os error 20)"
  | nameTooLong => "File name too long (os error 36)"
  | denied => "Permission denied (os error 13)"
  | invalidText => "stream did not contain valid UTF-8"
  | other text => text

def ConfigFault.message {α : Type} (number : α → String) : ConfigFault α → String
  | noRegister => "at least one register is required"
  | invalidRegister name => "invalid register name " ++ Text.quoted name
  | reservedRegister name => "register name " ++ name ++ " is reserved"
  | repeatedRegister name => "duplicate register " ++ name
  | layerSize given => "layer_size must be a power of two >= 8, got " ++ toString given
  | hiddenSize given => "hidden_size must be >= 32, got " ++ toString given
  | pad given => "pad must be in (0, 0.5), got " ++ number given
  | pointerSlots limit given =>
    "pointer_slots must be in 2..=" ++ toString limit ++ ", got " ++ toString given
  | tickBudget => "max_ticks must be positive"
  | patternSize layer size =>
    "orthogonal patterns on " ++ layer ++ " need a power-of-two size, got " ++ toString size
  | programName name =>
    "invalid program name " ++ Text.quoted name ++ ": use no '.', ':' or whitespace"
  | emptyProgram name => "program " ++ name ++ " has no instructions"
  | noPointerRegister => "mref needs at least one register"
  | artifactVersion given => "unsupported artifact version " ++ toString given

/-- A list of dimensions, in brackets. -/
def dimensions (ns : List Nat) : String := "[" ++ String.intercalate ", " (ns.map toString) ++ "]"

def Fault.message {α : Type} (number : α → String) : Fault α → String
  | program error => "Program error: " ++ error.message
  | transitConflict context state condition =>
    "Automaton conflict in " ++ context ++ ": state " ++ state ++ " on " ++ condition ++
      " already leads elsewhere"
  | conditionNotGated context state layer =>
    "Condition layer " ++ layer ++ " is not gated into the control state " ++ state ++
      " (" ++ context ++ ")"
  | unconditionedBias context state layer =>
    "State " ++ state ++ " reads " ++ layer ++ " but the transit is not keyed on it (" ++ context ++ ")"
  | sharedCondition context state layer =>
    "Condition layer " ++ layer ++ " is already keyed elsewhere, cannot key it from " ++ state ++
      " (" ++ context ++ ")"
  | unknownLayer name => "Unknown layer: " ++ name
  | unknownGate name => "Unknown gate: " ++ name
  | repeatedGate name => "Duplicate gate: " ++ name
  | unknownProgram name => "Unknown program: " ++ name
  | config cause => "Configuration error: " ++ cause.message number
  | exhausted layer requested capacity =>
    "Pattern family exhausted on layer " ++ layer ++ ": " ++ toString requested ++ " requested, " ++
      toString capacity ++ " available"
  | shapeMismatch expected actual =>
    "Shape mismatch: expected " ++ dimensions expected ++ ", got " ++ dimensions actual
  | file cause => "IO error: " ++ cause.message
  | malformed => "Serialization error"
  | breach .dimensions => "Dimensions do not fit together"
  | breach .levels => "Saturation levels are out of order"

end Engram
