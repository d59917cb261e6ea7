/-
  Engram.Program.Opcode — the twenty instructions and what their operands are.

    move      movv reg literal   movd reg reg
    jump      jmpv label         jmpd reg          jie label
    compare   cmpv reg literal   cmpd reg reg
    call      subv label         subd reg          ret
    memory    mem reg            rem reg           nxt    prv
    pointer   ref reg            drf reg           mref reg    mdrf
    system    exit               nop
-/

namespace Engram

/-- What an operand names. -/
inductive Operand where
  | register
  /-- A token that is no register. -/
  | literal
  /-- A label of the same program. -/
  | label
  deriving DecidableEq, Repr

inductive Opcode where
  | movv | movd | jmpv | jmpd | cmpv | cmpd | jie | subv | subd | ret
  | mem | rem | nxt | prv | ref | drf | mref | mdrf | exit | nop
  deriving DecidableEq, Repr

namespace Opcode

/-- Every opcode, in the order in which the control automaton is built. -/
def all : List Opcode :=
  [movv, movd, jmpv, jmpd, cmpv, cmpd, jie, subv, subd, ret,
   mem, rem, nxt, prv, ref, drf, mref, mdrf, exit, nop]

def mnemonic : Opcode → String
  | movv => "movv" | movd => "movd" | jmpv => "jmpv" | jmpd => "jmpd" | cmpv => "cmpv"
  | cmpd => "cmpd" | jie => "jie" | subv => "subv" | subd => "subd" | ret => "ret"
  | mem => "mem" | rem => "rem" | nxt => "nxt" | prv => "prv" | ref => "ref"
  | drf => "drf" | mref => "mref" | mdrf => "mdrf" | exit => "exit" | nop => "nop"

def ofMnemonic? (s : String) : Option Opcode := all.find? fun op => op.mnemonic == s

/-- The opcode that a word of a program names: upper and lower case of the twenty-six letters
are the same. -/
def ofWord? (s : String) : Option Opcode := ofMnemonic? (String.ofList (s.toList.map Char.toLower))

/-- The operands, in order. -/
def operands : Opcode → List Operand
  | movv | cmpv => [.register, .literal]
  | movd | cmpd => [.register, .register]
  | jmpv | jie | subv => [.label]
  | jmpd | subd | mem | rem | ref | drf | mref => [.register]
  | ret | nxt | prv | mdrf | exit | nop => []

def arity (op : Opcode) : Nat := op.operands.length

theorem mem_all (op : Opcode) : op ∈ all := by cases op <;> decide

theorem ofMnemonic?_mnemonic (op : Opcode) : ofMnemonic? op.mnemonic = some op := by
  cases op <;> rfl

theorem mnemonic_injective {a b : Opcode} (h : a.mnemonic = b.mnemonic) : a = b :=
  Option.some.inj (by rw [← ofMnemonic?_mnemonic a, h, ofMnemonic?_mnemonic b])

theorem arity_le_two (op : Opcode) : op.arity ≤ 2 := by cases op <;> decide

end Opcode

end Engram
