/-
  Engram.Proofs.Control.Table — the automaton as a table.

  Every instruction goes once round: from `start` over `load` and `ready` through the states of its
  opcode and back to `start`. The table lists these rounds, for each opcode and for the registers
  that its operands name: what each state is keyed on, everything else it may be keyed on, and
  which gates besides the default ones the next state opens. `[op1=r]` in the comments is a
  dispatch, which leads to a state with the default gates only.

  The paths of a plan are the walks that it allows; for every opcode these are the ones of the
  table (`path_steps`, `exists_readings`).
-/

import Engram.Control.Microcode
import Engram.Control.Sequencer

namespace Engram

open LayerId Microcode

/-- One tick of the automaton. -/
structure ControlStep where
  /-- What the state before is keyed on. -/
  condition : Option Condition
  /-- Everything that the state before may be keyed on. -/
  alternatives : List (Option Condition)
  /-- What the state after opens besides the default gates. -/
  gates : List Gate

namespace ControlStep

def tick (gates : List Gate) : ControlStep := ⟨none, [none], gates⟩

/-- A dispatch on the register that an operand layer names. -/
def on (registers : List (LayerId × String)) (layer : LayerId) (r : LayerId × String) : ControlStep :=
  ⟨some ⟨layer, r.2⟩, registers.map fun r => some ⟨layer, r.2⟩, []⟩

/-- A selection by one of two tokens. -/
def select (layer : LayerId) (idle taken token : String) (gates : List Gate) : ControlStep :=
  ⟨some ⟨layer, token⟩, [some ⟨layer, idle⟩, some ⟨layer, taken⟩], gates⟩

/-- The selection by the opcode. -/
def enter (op : Opcode) (gates : List Gate) : ControlStep :=
  ⟨some ⟨opc, op.mnemonic⟩, Opcode.all.map fun op => some ⟨opc, op.mnemonic⟩, gates⟩

/-- Ticks with the default gates only. -/
def rests (ticks : Nat) : List ControlStep := List.replicate ticks (tick [])

end ControlStep

/-- What the automaton reads on the way round: the registers that the operands name, and whether
the last comparison found its sides equal. -/
structure Readings where
  first : LayerId × String
  second : LayerId × String
  equal : Bool

/-- The operands name registers. -/
structure Readings.Valid (registers : List (LayerId × String)) (o : Readings) : Prop where
  first : o.first ∈ registers
  second : o.second ∈ registers

open ControlStep

/-- What follows `ready`. The last step leads back to `start`, for `exit` back to itself. -/
def Opcode.steps (registers : List (LayerId × String)) (op : Opcode) (o : Readings) : List ControlStep :=
  let r := o.first.1
  let s := o.second.1
  let first := on registers op1 o.first
  let second := on registers op2 o.second
  match op with
  -- back to start
  | .nop => [enter op []]
  -- a state that stays
  | .exit => [enter op [], tick []]
  -- bias op1, [op1=r], flow(r,op2)
  | .movv => [enter op (read op1), first, tick (Gate.flow r op2), tick []]
  -- bias op1, [op1=r], bias op2, [op2=s], flow(r,s)
  | .movd => [enter op (read op1), first, tick (read op2), second, tick (Gate.flow r s), tick []]
  -- flow(ip,op1), three ticks
  | .jmpv => enter op (Gate.flow ip op1) :: rests 3 ++ [tick []]
  -- bias op1, [op1=r], flow(ip,r), three ticks
  | .jmpd => [enter op (read op1), first, tick (Gate.flow ip r)] ++ rests 3 ++ [tick []]
  -- bias op1, [op1=r], flow(ci,r), learn(co,ci), flow(ci,op2), flow(co,ci)
  | .cmpv => [enter op (read op1), first, tick (Gate.flow ci r), tick [Gate.learn co ci], tick (Gate.flow ci op2),
      tick (Gate.flow co ci), tick []]
  -- bias op1, [op1=r], flow(ci,r), learn(co,ci), bias op2, [op2=s], flow(ci,s), flow(co,ci)
  | .cmpd => [enter op (read op1), first, tick (Gate.flow ci r), tick [Gate.learn co ci], tick (read op2), second,
      tick (Gate.flow ci s), tick (Gate.flow co ci), tick []]
  -- bias co, back on false, on true flow(ip,op1), five ticks
  | .jie =>
    if o.equal then
      [enter op (read co), select co falseToken trueToken trueToken (Gate.flow ip op1)] ++ rests 5 ++ [tick []]
    else [enter op (read co), select co falseToken trueToken falseToken []]
  -- learn(ip,sf), flow(sf,sf) and flow(sb,sf), flow(ip,op1), three ticks
  | .subv => [enter op [Gate.learn ip sf], tick (Gate.flow sf sf ++ Gate.flow sb sf), tick (Gate.flow ip op1)] ++
      rests 3 ++ [tick []]
  -- learn(ip,sf), flow(sf,sf) and flow(sb,sf), bias op1, [op1=r], flow(ip,r), three ticks
  | .subd => [enter op [Gate.learn ip sf], tick (Gate.flow sf sf ++ Gate.flow sb sf), tick (read op1), first,
      tick (Gate.flow ip r)] ++ rests 3 ++ [tick []]
  -- flow(sb,sb) and flow(sf,sb), flow(ip,sf)
  | .ret => [enter op (Gate.flow sb sb ++ Gate.flow sf sb), tick (Gate.flow ip sf), tick []]
  -- bias op1, [op1=r], learn(r,mf)
  | .mem => [enter op (read op1), first, tick [Gate.learn r mf], tick []]
  -- bias op1, [op1=r], flow(r,mf)
  | .rem => [enter op (read op1), first, tick (Gate.flow r mf), tick []]
  -- flow(mf,mf) and flow(mb,mf)
  | .nxt => [enter op (Gate.flow mf mf ++ Gate.flow mb mf), tick []]
  -- flow(mb,mb) and flow(mf,mb)
  | .prv => [enter op (Gate.flow mb mb ++ Gate.flow mf mb), tick []]
  -- bias op1, [op1=r], learn(mf,r) and learn(mb,r)
  | .ref => [enter op (read op1), first, tick [Gate.learn mf r, Gate.learn mb r], tick []]
  -- bias op1, [op1=r], flow(mf,r) and flow(mb,r)
  | .drf => [enter op (read op1), first, tick (Gate.flow mf r ++ Gate.flow mb r), tick []]
  -- bias op1 and flow(mp,mb), [op1=r], flow(mf,r) and flow(mb,r), learn(mp,mf), flow(mf,mp) and flow(mb,mp)
  | .mref => [enter op (read op1 ++ Gate.flow mp mb), first, tick (Gate.flow mf r ++ Gate.flow mb r),
      tick [Gate.learn mp mf], tick (Gate.flow mf mp ++ Gate.flow mb mp), tick []]
  -- flow(mp,mf), flow(mf,mp) and flow(mb,mp)
  | .mdrf => [enter op (Gate.flow mp mf), tick (Gate.flow mf mp ++ Gate.flow mb mp), tick []]

/-- The way round from `start`: `load` opens flow(ip,ip), flow(opc,ip), flow(op1,ip) and
flow(op2,ip), and `ready` is biased by the opcode. -/
def Opcode.round (registers : List (LayerId × String)) (op : Opcode) (o : Readings) : List ControlStep :=
  tick (Gate.flow ip ip ++ Gate.flow opc ip ++ Gate.flow op1 ip ++ Gate.flow op2 ip) :: tick (read opc) ::
    op.steps registers o

/-- No way round takes more than eleven ticks. -/
theorem Opcode.length_round (registers : List (LayerId × String)) (op : Opcode) (o : Readings) :
    (op.round registers o).length ≤ 11 := by
  obtain ⟨first, second, equal⟩ := o
  cases op
  case jie => cases equal <;> exact Nat.le_of_ble_eq_true rfl
  all_goals exact Nat.le_of_ble_eq_true rfl

/-! ## Paths -/

/-- A walk that a plan allows. -/
inductive Plan.Path (registers : List (LayerId × String)) : Plan → List ControlStep → Prop
  | home : Path registers .home [tick []]
  | act {gates rest steps} (h : Path registers rest steps) : Path registers (.act gates rest) (tick gates :: steps)
  | settle {ticks rest steps} (h : Path registers rest steps) : Path registers (.settle ticks rest) (rests ticks ++ steps)
  | each {layer branch steps} (r : LayerId × String) (hr : r ∈ registers) (h : Path registers (branch r.1) steps) :
      Path registers (.each layer branch) (on registers layer r :: steps)
  | gather {layer branch meet rest steps} (r : LayerId × String) (hr : r ∈ registers) (h : Path registers rest steps) :
      Path registers (.gather layer branch meet rest) (on registers layer r :: tick (branch r.1) :: tick meet :: steps)
  | idle {layer idle taken gates rest} :
      Path registers (.choose layer idle taken gates rest) [select layer idle taken idle []]
  | taken {layer idle taken gates rest steps} (h : Path registers rest steps) :
      Path registers (.choose layer idle taken gates rest) (select layer idle taken taken gates :: steps)

namespace Plan.Path

variable {registers : List (LayerId × String)} {steps : List ControlStep} {rest : Plan}

theorem of_home (h : Plan.home.Path registers steps) : steps = [tick []] := by
  cases h
  rfl

theorem of_act {gates : List Gate} (h : (Plan.act gates rest).Path registers steps) :
    ∃ more, rest.Path registers more ∧ steps = tick gates :: more := by
  cases h with
  | act h => exact ⟨_, h, rfl⟩

theorem of_settle {ticks : Nat} (h : (Plan.settle ticks rest).Path registers steps) :
    ∃ more, rest.Path registers more ∧ steps = rests ticks ++ more := by
  cases h with
  | settle h => exact ⟨_, h, rfl⟩

theorem of_each {layer : LayerId} {branch : LayerId → Plan} (h : (Plan.each layer branch).Path registers steps) :
    ∃ r ∈ registers, ∃ more, (branch r.1).Path registers more ∧ steps = on registers layer r :: more := by
  cases h with
  | each r hr h => exact ⟨r, hr, _, h, rfl⟩

theorem of_gather {layer : LayerId} {branch : LayerId → List Gate} {meet : List Gate}
    (h : (Plan.gather layer branch meet rest).Path registers steps) : ∃ r ∈ registers, ∃ more, rest.Path registers more ∧
      steps = on registers layer r :: tick (branch r.1) :: tick meet :: more := by
  cases h with
  | gather r hr h => exact ⟨r, hr, _, h, rfl⟩

theorem of_choose {layer : LayerId} {idle taken : String} {gates : List Gate}
    (h : (Plan.choose layer idle taken gates rest).Path registers steps) :
    steps = [select layer idle taken idle []] ∨
      ∃ more, rest.Path registers more ∧ steps = select layer idle taken taken gates :: more := by
  cases h with
  | idle => exact .inl rfl
  | taken h => exact .inr ⟨_, h, rfl⟩

end Plan.Path

/-- A walk that an opcode allows from `ready` on. -/
def Opcode.Path (registers : List (LayerId × String)) (op : Opcode) (steps : List ControlStep) : Prop :=
  match op.routine with
  | .skip => steps = [enter op []]
  | .halt => steps = [enter op [], tick []]
  | .run gates plan => ∃ rest, plan.Path registers rest ∧ steps = enter op gates :: rest

theorem Opcode.path_steps {registers : List (LayerId × String)} (op : Opcode) {o : Readings} (h : o.Valid registers) :
    op.Path registers (op.steps registers o) := by
  obtain ⟨first, second, equal⟩ := o
  obtain ⟨h₁, h₂⟩ := h
  cases op
  case nop => exact rfl
  case exit => exact rfl
  case jie =>
    cases equal
    · exact ⟨_, .idle, rfl⟩
    · exact ⟨_, .taken (.settle .home), rfl⟩
  case movv => exact ⟨_, .each first h₁ (.act .home), rfl⟩
  case movd => exact ⟨_, .each first h₁ (.act (.each second h₂ (.act .home))), rfl⟩
  case jmpv => exact ⟨_, .settle .home, rfl⟩
  case jmpd => exact ⟨_, .each first h₁ (.act (.settle .home)), rfl⟩
  case cmpv => exact ⟨_, .each first h₁ (.act (.act (.act (.act .home)))), rfl⟩
  case cmpd => exact ⟨_, .each first h₁ (.act (.act (.act (.each second h₂ (.act (.act .home)))))), rfl⟩
  case subv => exact ⟨_, .act (.act (.settle .home)), rfl⟩
  case subd => exact ⟨_, .act (.act (.each first h₁ (.act (.settle .home)))), rfl⟩
  case ret => exact ⟨_, .act .home, rfl⟩
  case nxt => exact ⟨_, .home, rfl⟩
  case prv => exact ⟨_, .home, rfl⟩
  case mref => exact ⟨_, .gather first h₁ (.act .home), rfl⟩
  case mdrf => exact ⟨_, .act .home, rfl⟩
  all_goals exact ⟨_, .each first h₁ (.act .home), rfl⟩

/-- Every walk of an opcode is in the table. -/
theorem Opcode.exists_readings {registers : List (LayerId × String)} (hne : registers ≠ []) {op : Opcode}
    {steps : List ControlStep} (h : op.Path registers steps) :
    ∃ o : Readings, o.Valid registers ∧ steps = op.steps registers o := by
  obtain ⟨r₀, hr₀⟩ := List.exists_mem_of_ne_nil registers hne
  cases op
  case nop => exact ⟨⟨r₀, r₀, false⟩, ⟨hr₀, hr₀⟩, h⟩
  case exit => exact ⟨⟨r₀, r₀, false⟩, ⟨hr₀, hr₀⟩, h⟩
  all_goals obtain ⟨rest, hrest, rfl⟩ := h
  case jie =>
    rcases hrest.of_choose with rfl | ⟨more, h₁, rfl⟩
    · exact ⟨⟨r₀, r₀, false⟩, ⟨hr₀, hr₀⟩, rfl⟩
    · obtain ⟨more, h₂, rfl⟩ := h₁.of_settle
      obtain rfl := h₂.of_home
      exact ⟨⟨r₀, r₀, true⟩, ⟨hr₀, hr₀⟩, rfl⟩
  case movd =>
    obtain ⟨r, hr, more, h₁, rfl⟩ := hrest.of_each
    obtain ⟨more, h₂, rfl⟩ := h₁.of_act
    obtain ⟨q, hq, more, h₃, rfl⟩ := h₂.of_each
    obtain ⟨more, h₄, rfl⟩ := h₃.of_act
    obtain rfl := h₄.of_home
    exact ⟨⟨r, q, false⟩, ⟨hr, hq⟩, rfl⟩
  case jmpv =>
    obtain ⟨more, h₁, rfl⟩ := hrest.of_settle
    obtain rfl := h₁.of_home
    exact ⟨⟨r₀, r₀, false⟩, ⟨hr₀, hr₀⟩, rfl⟩
  case jmpd =>
    obtain ⟨r, hr, more, h₁, rfl⟩ := hrest.of_each
    obtain ⟨more, h₂, rfl⟩ := h₁.of_act
    obtain ⟨more, h₃, rfl⟩ := h₂.of_settle
    obtain rfl := h₃.of_home
    exact ⟨⟨r, r₀, false⟩, ⟨hr, hr₀⟩, rfl⟩
  case cmpv =>
    obtain ⟨r, hr, more, h₁, rfl⟩ := hrest.of_each
    obtain ⟨more, h₂, rfl⟩ := h₁.of_act
    obtain ⟨more, h₃, rfl⟩ := h₂.of_act
    obtain ⟨more, h₄, rfl⟩ := h₃.of_act
    obtain ⟨more, h₅, rfl⟩ := h₄.of_act
    obtain rfl := h₅.of_home
    exact ⟨⟨r, r₀, false⟩, ⟨hr, hr₀⟩, rfl⟩
  case cmpd =>
    obtain ⟨r, hr, more, h₁, rfl⟩ := hrest.of_each
    obtain ⟨more, h₂, rfl⟩ := h₁.of_act
    obtain ⟨more, h₃, rfl⟩ := h₂.of_act
    obtain ⟨more, h₄, rfl⟩ := h₃.of_act
    obtain ⟨q, hq, more, h₅, rfl⟩ := h₄.of_each
    obtain ⟨more, h₆, rfl⟩ := h₅.of_act
    obtain ⟨more, h₇, rfl⟩ := h₆.of_act
    obtain rfl := h₇.of_home
    exact ⟨⟨r, q, false⟩, ⟨hr, hq⟩, rfl⟩
  case subv =>
    obtain ⟨more, h₁, rfl⟩ := hrest.of_act
    obtain ⟨more, h₂, rfl⟩ := h₁.of_act
    obtain ⟨more, h₃, rfl⟩ := h₂.of_settle
    obtain rfl := h₃.of_home
    exact ⟨⟨r₀, r₀, false⟩, ⟨hr₀, hr₀⟩, rfl⟩
  case subd =>
    obtain ⟨more, h₁, rfl⟩ := hrest.of_act
    obtain ⟨more, h₂, rfl⟩ := h₁.of_act
    obtain ⟨r, hr, more, h₃, rfl⟩ := h₂.of_each
    obtain ⟨more, h₄, rfl⟩ := h₃.of_act
    obtain ⟨more, h₅, rfl⟩ := h₄.of_settle
    obtain rfl := h₅.of_home
    exact ⟨⟨r, r₀, false⟩, ⟨hr, hr₀⟩, rfl⟩
  case mref =>
    obtain ⟨r, hr, more, h₁, rfl⟩ := hrest.of_gather
    obtain ⟨more, h₂, rfl⟩ := h₁.of_act
    obtain rfl := h₂.of_home
    exact ⟨⟨r, r₀, false⟩, ⟨hr, hr₀⟩, rfl⟩
  case nxt =>
    obtain rfl := hrest.of_home
    exact ⟨⟨r₀, r₀, false⟩, ⟨hr₀, hr₀⟩, rfl⟩
  case prv =>
    obtain rfl := hrest.of_home
    exact ⟨⟨r₀, r₀, false⟩, ⟨hr₀, hr₀⟩, rfl⟩
  case ret =>
    obtain ⟨more, h₁, rfl⟩ := hrest.of_act
    obtain rfl := h₁.of_home
    exact ⟨⟨r₀, r₀, false⟩, ⟨hr₀, hr₀⟩, rfl⟩
  case mdrf =>
    obtain ⟨more, h₁, rfl⟩ := hrest.of_act
    obtain rfl := h₁.of_home
    exact ⟨⟨r₀, r₀, false⟩, ⟨hr₀, hr₀⟩, rfl⟩
  -- the opcodes that branch on a register and act once
  all_goals
    obtain ⟨r, hr, more, h₁, rfl⟩ := hrest.of_each
    obtain ⟨more, h₂, rfl⟩ := h₁.of_act
    obtain rfl := h₂.of_home
    exact ⟨⟨r, r₀, false⟩, ⟨hr, hr₀⟩, rfl⟩

end Engram
