/-
  Engram.Proofs.Machine.Processor — the processor that a machine stands for.

  The activity of a machine is patterns, which stand for tokens. Seen this way a machine is a
  processor: layers that hold tokens, and pathways that were taught, while it ran, which token
  leads to which. What it does can be told without gates and ticks: it loads an instruction
  (`fetch`) and carries it out (`exec`).

  A token can be unknown: what a cell of the memory holds that was never written, the slot after
  the last one, the place that a token stands for which is not a label.
-/

import Engram.Data.Pointer
import Engram.Control.Microcode
import Engram.Program.Basic
import Mathlib.Logic.Function.Basic

namespace Engram

open LayerId

/-- The token that a shift of so many slots takes a token to. -/
def Pointer.Shift.token? (shift : Shift) (slots : Nat) (token : String) : Option String :=
  let tokens := (List.range slots).map slotToken
  (shift.pairs tokens tokens).lookup token

/-- What is known of the tokens of a machine. -/
structure Processor where
  /-- The token that a layer holds. -/
  token : LayerId → Option String
  /-- The token that a pathway leads a token to since it was taught. -/
  link : Pathway → String → Option String
  /-- The token that is compared with. -/
  against : Option String

namespace Processor

/-- Lets a layer hold a token. -/
def set (v : Processor) (l : LayerId) (token : Option String) : Processor :=
  { v with token := Function.update v.token l token }

/-- Lets both layers of a pointer hold a slot. -/
def point (v : Processor) (first second : LayerId) (slot : Option String) : Processor :=
  (v.set first slot).set second slot

/-- What a pathway that was taught leads the token of its source to. -/
def linked (v : Processor) (p : Pathway) : Option String := (v.token p.source).bind (v.link p)

/-- Writes a value under a key. When the key is unknown, so is what any key leads to afterwards. -/
def write (f : String → Option String) (key value : Option String) : String → Option String :=
  match key with
  | some k => Function.update f k value
  | none => fun _ => none

/-- Teaches a pathway that a key leads to a value. -/
def enter (v : Processor) (p : Pathway) (key value : Option String) : Processor :=
  { v with link := Function.update v.link p (write (v.link p) key value) }

/-- Teaches a pathway what its layers hold. The comparison forgets what it was taught before. -/
def teach (v : Processor) (p : Pathway) : Processor :=
  if p = ⟨co, ci⟩ then { v with against := v.token ci } else v.enter p (v.token p.source) (v.token p.target)

/-- What a comparison of two tokens comes to. -/
def outcome (first second : Option String) : Option String := do
  return if (← first) = (← second) then trueToken else falseToken

theorem token_set_self (v : Processor) (l : LayerId) (t : Option String) : (v.set l t).token l = t :=
  Function.update_self ..

theorem token_set_of_ne (v : Processor) {l other : LayerId} (h : other ≠ l) (t : Option String) :
    (v.set l t).token other = v.token other := Function.update_of_ne h ..

theorem token_teach (v : Processor) (p : Pathway) : (v.teach p).token = v.token := by
  unfold teach
  split <;> rfl

/-! ## Instructions -/

/-- Loads an instruction, and goes on to the place after it. -/
def fetch (v : Processor) (i : Instruction) (after : String) : Processor :=
  (((v.set ip (some after)).set opc (some i.opcode.mnemonic)).set op1 (some i.first)).set op2 (some i.second)

/-- Loading an instruction changes nothing but the place and the fields. -/
theorem token_fetch_of_ne (v : Processor) {l : LayerId} (hl : l ∉ [ip, opc, op1, op2]) (i : Instruction) (after : String) :
    (v.fetch i after).token l = v.token l := by
  simp only [List.mem_cons, List.not_mem_nil, or_false, not_or] at hl
  obtain ⟨hip, hopc, hop1, hop2⟩ := hl
  unfold fetch
  rw [token_set_of_ne _ hop2, token_set_of_ne _ hop1, token_set_of_ne _ hopc, token_set_of_ne _ hip]

/-- Loading an instruction forgets the place it was at. -/
theorem fetch_set_place (v : Processor) (here : Option String) (i : Instruction) (after : String) :
    (v.set ip here).fetch i after = v.fetch i after := by
  unfold fetch set
  rw [Function.update_idem]

/-- Compares two tokens. -/
def compare (v : Processor) (first second : Option String) : Processor :=
  { (v.set ci second).set co (outcome first second) with against := first }

/-- Puts the place to go back to on the stack. -/
def call (v : Processor) (slots : Nat) : Processor :=
  (v.teach ⟨ip, sf⟩).point sf sb ((v.token sf).bind (Pointer.Shift.on.token? slots))

/-- Takes the last place off the stack. -/
def leave (v : Processor) (slots : Nat) : Processor :=
  v.point sb sf ((v.token sb).bind (Pointer.Shift.back.token? slots))

/-- What an instruction that has been loaded does, for so many slots. Its operands name the
registers `r` and `s`, as far as they name any; `place` tells which tokens stand for a place to
jump to. -/
def exec (v : Processor) (slots : Nat) (place : String → Bool) (i : Instruction) (r s : LayerId) : Processor :=
  match i.opcode with
  | .movv => v.set r (some i.second)
  | .movd => v.set r (v.token s)
  | .jmpv => v.set ip (some i.first)
  | .jmpd => v.set ip ((v.token r).filter place)
  | .cmpv => v.compare (v.token r) (some i.second)
  | .cmpd => v.compare (v.token r) (v.token s)
  | .jie => if v.token co = some trueToken then v.set ip (some i.first) else v
  | .subv => (v.call slots).set ip (some i.first)
  | .subd => (v.call slots).set ip ((v.token r).filter place)
  | .ret => (v.leave slots).set ip ((v.leave slots).linked ⟨ip, sf⟩)
  | .mem => v.teach ⟨r, mf⟩
  | .rem => v.set r (v.linked ⟨r, mf⟩)
  | .nxt => v.point mf mb ((v.token mf).bind (Pointer.Shift.on.token? slots))
  | .prv => v.point mb mf ((v.token mb).bind (Pointer.Shift.back.token? slots))
  | .ref => (v.teach ⟨mf, r⟩).teach ⟨mb, r⟩
  | .drf => (v.set mf (v.linked ⟨mf, r⟩)).set mb (v.linked ⟨mb, r⟩)
  | .mref => ((v.enter ⟨mp, mf⟩ (v.linked ⟨mf, r⟩) (v.token mb)).set mp (v.token mb)).point mf mb (v.token mb)
  | .mdrf => (v.set mp (v.linked ⟨mp, mf⟩)).point mf mb ((v.linked ⟨mp, mf⟩).bind (Pointer.Shift.stay.token? slots))
  | .exit => v
  | .nop => v

end Processor

end Engram
