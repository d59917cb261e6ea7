/-
  Engram.Program.Basic — parsed programs.

  An instruction has exactly three fields: its opcode and two operands, where an operand that
  the opcode does not have is the token `null`. Labels name instructions by position. Before a
  program enters a machine its labels are scoped: a label, and every operand that spells one,
  gets the name of the program and a colon in front. No label contains a colon, so the labels of
  two programs never meet.
-/

import Engram.Program.Opcode
import Engram.Text.Blank

namespace Engram

/-- The token of an absent operand. -/
def nullToken : String := "null"

structure Instruction where
  opcode : Opcode
  first : String
  second : String
  /-- Number of the source line, from 1. -/
  line : Nat
  deriving DecidableEq, Repr

/-- The three fields of an instruction. -/
inductive Field where
  | opcode
  | first
  | second
  deriving DecidableEq, Repr

namespace Instruction

def field (i : Instruction) : Field → String
  | .opcode => i.opcode.mnemonic
  | .first => i.first
  | .second => i.second

def operands (i : Instruction) : List String := [i.first, i.second]

end Instruction

structure Program where
  instructions : List Instruction
  /-- Each label and the position of its instruction, in order of definition. -/
  labels : List (String × Nat)
  deriving DecidableEq, Repr, Inhabited

namespace Program

def empty : Program := ⟨[], []⟩

def size (p : Program) : Nat := p.instructions.length

def isEmpty (p : Program) : Bool := p.instructions.isEmpty

def hasLabel (p : Program) (token : String) : Bool := p.labels.any (·.1 == token)

/-- The position that a label names. -/
def position? (p : Program) (label : String) : Option Nat := p.labels.lookup label

/-- The labels in ascending order. -/
def sortedLabels (p : Program) : List (String × Nat) := p.labels.mergeSort fun a b => a.1 ≤ b.1

/-- The operand tokens that are neither registers nor absent, ascending, each once. -/
def literals (p : Program) (registers : List String) : List String :=
  Text.sortedSet <| p.instructions.flatMap fun i =>
    i.operands.filter fun t => t != nullToken && !registers.contains t

/-- The tokens in one field of the program, ascending, each once. -/
def fieldTokens (p : Program) (f : Field) : List String :=
  Text.sortedSet (p.instructions.map (·.field f))

/-- A token with the scope in front if it is a label. -/
def rename (p : Program) (scope token : String) : String :=
  if p.hasLabel token then scope ++ ":" ++ token else token

/-- The program with its labels, and the operands that spell them, under a scope. -/
def withScope (p : Program) (scope : String) : Program where
  instructions := p.instructions.map fun i =>
    { i with first := p.rename scope i.first, second := p.rename scope i.second }
  labels := p.labels.map fun l => (p.rename scope l.1, l.2)

@[simp] theorem size_withScope (p : Program) (scope : String) : (p.withScope scope).size = p.size := by
  simp [size, withScope]

end Program

end Engram
