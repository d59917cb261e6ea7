/-
  Engram.Program.Parser — program text.

    # a comment runs to the end of its line
    start:  movv r0 A        # label, opcode, operands
            jie  start
    done:                    # a label alone names the next instruction
            exit

  A line holds an optional label, then an optional instruction; words are separated by blanks.
  A text is read line by line, and the first line that is wrong is reported. What only the whole
  text can show is reported after that: a label that no instruction follows, a text without
  instructions, and an operand that names no label, in this order.
-/

import Engram.Program.Basic
import Engram.Text.Quoted

namespace Engram

namespace Program

/-- Why a text is not a program. -/
inductive Flaw where
  | unknownOpcode (word : String)
  | operandCount (opcode : Opcode) (given : Nat)
  | invalidLabel (label : String)
  | reservedLabel (label : String)
  | repeatedLabel (label : String)
  | reservedToken
  | notRegister (opcode : Opcode) (token : String)
  | notLiteral (opcode : Opcode) (token : String)
  | danglingLabel (label : String)
  | noInstructions
  | undefinedLabel (label : String)
  deriving DecidableEq, Repr

def Flaw.message : Flaw → String
  | unknownOpcode word => "Unknown opcode: " ++ word
  | operandCount op given =>
    op.mnemonic ++ " expects " ++ toString op.arity ++ " operand(s), got " ++ toString given
  | invalidLabel label => "Invalid label: " ++ Text.quoted label
  | reservedLabel label => "Label " ++ label ++ " shadows a reserved name"
  | repeatedLabel label => "Duplicate label: " ++ label
  | reservedToken => nullToken ++ " is reserved"
  | notRegister op token => op.mnemonic ++ " expects a register, got " ++ token
  | notLiteral op token => op.mnemonic ++ " expects a literal, got register " ++ token
  | danglingLabel label => "Label " ++ label ++ " is not followed by an instruction"
  | noInstructions => "Program has no instructions"
  | undefinedLabel label => "Undefined label: " ++ label

/-- A flaw and the line it is reported for. -/
structure Error where
  line : Nat
  flaw : Flaw
  deriving DecidableEq, Repr

def Error.message (e : Error) : String := "Line " ++ toString e.line ++ ": " ++ e.flaw.message

/-- What has been read of a text. Labels and label references stand with the line they are on. -/
structure Draft where
  instructions : List Instruction
  labels : List (String × Nat)
  /-- Labels that wait for the next instruction. -/
  pending : List (String × Nat)
  references : List (String × Nat)

namespace Draft

def empty : Draft := ⟨[], [], [], []⟩

/-- Opens a label on the given line. -/
def define (registers : List String) (line : Nat) (label : String) (d : Draft) : Except Flaw Draft :=
  if label.isEmpty || label.toList.contains ':' then .error (.invalidLabel label)
  else if label == nullToken || registers.contains label then .error (.reservedLabel label)
  else if d.labels.any (·.1 == label) || d.pending.any (·.1 == label) then .error (.repeatedLabel label)
  else .ok { d with pending := d.pending ++ [(label, line)] }

/-- Whether a token may stand as an operand of a kind. -/
def checkOperand (registers : List String) (op : Opcode) (kind : Operand) (token : String) :
    Except Flaw Unit :=
  if token == nullToken then .error .reservedToken
  else match kind, registers.contains token with
    | .register, false => .error (.notRegister op token)
    | .literal, true => .error (.notLiteral op token)
    | .label, true => .error (.notLiteral op token)
    | _, _ => .ok ()

/-- Checks the operands from left to right. -/
def checkOperands (registers : List String) (op : Opcode) : List Operand → List String → Except Flaw Unit
  | kind :: kinds, token :: tokens => do
    checkOperand registers op kind token
    checkOperands registers op kinds tokens
  | _, _ => .ok ()

/-- The operands that have to be labels. -/
def labelOperands (op : Opcode) (tokens : List String) : List String :=
  ((op.operands.zip tokens).filter (·.1 == .label)).map (·.2)

/-- Adds an instruction; the labels that waited for one name it. -/
def append (registers : List String) (line : Nat) (word : String) (operands : List String) (d : Draft) :
    Except Flaw Draft :=
  match Opcode.ofWord? word with
  | none => .error (.unknownOpcode word)
  | some op => do
    if operands.length ≠ op.arity then throw (.operandCount op operands.length)
    checkOperands registers op op.operands operands
    let position := d.instructions.length
    return {
      instructions := d.instructions ++
        [⟨op, operands.getD 0 nullToken, operands.getD 1 nullToken, line⟩]
      labels := d.labels ++ d.pending.map fun l => (l.1, position)
      pending := []
      references := d.references ++ (labelOperands op operands).map (·, line) }

/-- The label that a word opens: what stands before a final colon. -/
def label? (word : List Char) : Option String :=
  if word.getLast? = some ':' then some (String.ofList word.dropLast) else none

/-- Reads an instruction, or nothing. -/
def readInstruction (registers : List String) (line : Nat) (d : Draft) : List (List Char) → Except Flaw Draft
  | [] => .ok d
  | word :: operands => d.append registers line (String.ofList word) (operands.map String.ofList)

/-- Reads the words of one line. -/
def readWords (registers : List String) (line : Nat) (d : Draft) : List (List Char) → Except Flaw Draft
  | [] => .ok d
  | word :: rest =>
    match label? word with
    | some label => do
      let d ← d.define registers line label
      d.readInstruction registers line rest
    | none => d.readInstruction registers line (word :: rest)

/-- The words of a line before its comment. -/
def lineWords (line : List Char) : List (List Char) := Text.words (line.takeWhile (· != '#'))

/-- Reads lines numbered from the given one. -/
def readLines (registers : List String) (number : Nat) (d : Draft) : List (List Char) → Except Error Draft
  | [] => .ok d
  | line :: rest =>
    match d.readWords registers number (lineWords line) with
    | .ok d => readLines registers (number + 1) d rest
    | .error flaw => .error ⟨number, flaw⟩

/-- The program of a text that was read to its end. -/
def finish (d : Draft) (lineCount : Nat) : Except Error Program :=
  match d.pending, d.instructions with
  | (label, line) :: _, _ => .error ⟨line, .danglingLabel label⟩
  | [], [] => .error ⟨lineCount, .noInstructions⟩
  | [], _ :: _ =>
    match d.references.find? fun r => !d.labels.any (·.1 == r.1) with
    | some (label, line) => .error ⟨line, .undefinedLabel label⟩
    | none => .ok ⟨d.instructions, d.labels⟩

end Draft

/-- The program that a text writes, over the given register names. -/
def parse (registers : List String) (source : String) : Except Error Program := do
  let lines := Text.lines source.toList
  let d ← Draft.empty.readLines registers 1 lines
  d.finish lines.length

end Program

end Engram
