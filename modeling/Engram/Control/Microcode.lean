/-
  Engram.Control.Microcode — which gates each opcode opens, and in which order.

  Every instruction starts in `start`, loads the next instruction into the opcode and operand
  layers, and reaches `ready`, which reads the opcode. What follows is the routine of the opcode.
  A routine is data: the states of the control automaton, its branches and its way back to
  `start` are all read off it. A branch on a register passes through a state with the default
  gates only and opens the gates of the branch one tick later.
-/

import Engram.Network.Basic
import Engram.Program.Opcode

namespace Engram

open LayerId Gate

/-- The tokens that the comparison output holds. -/
def trueToken : String := "true"

def falseToken : String := "false"

/-- What happens from a state on. -/
inductive Plan where
  /-- Back to `start`. -/
  | home
  /-- Open gates for one tick. -/
  | act (gates : List Gate) (rest : Plan)
  /-- Let the layers settle for some ticks. -/
  | settle (ticks : Nat) (rest : Plan)
  /-- Branch on the register that an operand layer names. -/
  | each (layer : LayerId) (branch : LayerId → Plan)
  /-- Branch on the register that an operand layer names, open the gates of the branch, and meet
  in one state that opens the gates `meet`. -/
  | gather (layer : LayerId) (branch : LayerId → List Gate) (meet : List Gate) (rest : Plan)
  /-- Back to `start` on the token `idle` of a layer; open gates on the token `taken`. -/
  | choose (layer : LayerId) (idle taken : String) (gates : List Gate) (rest : Plan)

/-- What an opcode does after `ready`. -/
inductive Routine where
  /-- Back to `start` at once. -/
  | skip
  /-- A state that is never left. -/
  | halt
  /-- Open gates for one tick, then follow a plan. -/
  | run (gates : List Gate) (plan : Plan)

/-! ## Gates that belong together -/

namespace Microcode

/-- The gates through which a condition layer is read. -/
def read (layer : LayerId) : List Gate := [copy gh layer, copy go layer]

/-- The gates that load the next instruction. -/
def fetch : List Gate := flow ip ip ++ flow opc ip ++ flow op1 ip ++ flow op2 ip

/-- Moves a pointer pair one slot on. -/
def advance (forward backward : LayerId) : List Gate := flow forward forward ++ flow backward forward

/-- Moves a pointer pair one slot back. -/
def retreat (forward backward : LayerId) : List Gate := flow backward backward ++ flow forward backward

/-- Moves the memory pointer to where a layer points. -/
def point (layer : LayerId) : List Gate := flow mf layer ++ flow mb layer

end Microcode

/-! ## The routines -/

/-- Ticks for which a jump settles. -/
def jumpTicks : Nat := 3

/-- Ticks for which a taken branch settles. -/
def branchTicks : Nat := 5

open Plan Microcode

/-- A jump to where a layer points. -/
def Plan.jump (layer : LayerId) : Plan := act (flow ip layer) (settle jumpTicks home)

def Opcode.routine : Opcode → Routine
  | .movv => .run (read op1) (each op1 fun r => act (flow r op2) home)
  | .movd => .run (read op1) (each op1 fun r => act (read op2) (each op2 fun s => act (flow r s) home))
  | .jmpv => .run (flow ip op1) (settle jumpTicks home)
  | .jmpd => .run (read op1) (each op1 jump)
  | .cmpv => .run (read op1) (each op1 fun r =>
      act (flow ci r) (act [learn co ci] (act (flow ci op2) (act (flow co ci) home))))
  | .cmpd => .run (read op1) (each op1 fun r =>
      act (flow ci r) (act [learn co ci] (act (read op2) (each op2 fun s =>
        act (flow ci s) (act (flow co ci) home)))))
  | .jie => .run (read co) (choose co falseToken trueToken (flow ip op1) (settle branchTicks home))
  | .subv => .run [learn ip sf] (act (advance sf sb) (jump op1))
  | .subd => .run [learn ip sf] (act (advance sf sb) (act (read op1) (each op1 jump)))
  | .ret => .run (retreat sf sb) (act (flow ip sf) home)
  | .mem => .run (read op1) (each op1 fun r => act [learn r mf] home)
  | .rem => .run (read op1) (each op1 fun r => act (flow r mf) home)
  | .nxt => .run (advance mf mb) home
  | .prv => .run (retreat mf mb) home
  | .ref => .run (read op1) (each op1 fun r => act [learn mf r, learn mb r] home)
  | .drf => .run (read op1) (each op1 fun r => act (point r) home)
  | .mref => .run (read op1 ++ flow mp mb) (gather op1 point [learn mp mf] (act (point mp) home))
  | .mdrf => .run (flow mp mf) (act (point mp) home)
  | .exit => .halt
  | .nop => .skip

end Engram
