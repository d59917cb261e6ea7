/-
  Engram.Proofs.Control.Ways — where an instruction ends.

  A machine ends an instruction in the first state that is called `start` or `exit`. On a round of
  the table that is the last one: `start` has hidden bits of its own, so no other state is called
  so, and the only state called `exit` is the one that `ready` leads to on `exit`
  (`Recorded.target_of_exit`). That one leads nowhere but to itself, so no round that comes home
  passes it (`Walk.avoids`).
-/

import Engram.Proofs.Control.Compiled

namespace Engram

open LayerId ControlStep

/-- The ticks of an instruction until it ends: the last step of `exit` stays where it is. -/
def Opcode.way (registers : List (LayerId × String)) (op : Opcode) (o : Readings) : List ControlStep :=
  if op = .exit then (op.round registers o).dropLast else op.round registers o

theorem Opcode.length_way (registers : List (LayerId × String)) (op : Opcode) (o : Readings) :
    (op.way registers o).length ≤ 11 := by
  have hround := op.length_round registers o
  unfold way
  split
  · rw [List.length_dropLast]
    omega
  · exact hround

/-- The opcode is read once. -/
theorem Opcode.layer_ne_opc (registers : List (LayerId × String)) (op : Opcode) (o : Readings) :
    ∀ step ∈ (op.steps registers o).tail, ∀ c ∈ step.condition, c.layer ≠ opc := by
  obtain ⟨first, second, equal⟩ := o
  cases op
  case jie => cases equal <;> simp [steps, tick, select, rests] <;> decide
  all_goals simp [steps, tick, on, rests]
  all_goals decide

namespace Sequencer

variable {α : Type} [Scalar α] {s : Sequencer α} {registers : List (LayerId × String)}
  {start load ready halted state : ControlState α}

/-- What a walk passes has the condition of one of its steps. -/
theorem Passes.exists_step {t : Transit α} {steps : List ControlStep} {states : List (ControlState α)}
    (h : s.Passes t state steps states) : ∃ step ∈ steps, t.key.condition = step.condition := by
  induction steps generalizing state states with
  | nil => cases states <;> exact h.elim
  | cons step steps ih =>
    cases states with
    | nil => exact h.elim
    | cons next states =>
      rcases h with ⟨hkey, -⟩ | h
      · exact ⟨step, List.mem_cons_self, congrArg TransitKey.condition hkey⟩
      · obtain ⟨later, hmem, hcondition⟩ := ih h
        exact ⟨later, List.mem_cons_of_mem _ hmem, hcondition⟩

/-- A walk that ends elsewhere does not pass a state that leads to itself only. -/
theorem Walk.avoids {fin : ControlState α} (hloop : ∀ old condition next, s.hiddenBits old = s.hiddenBits halted →
      s.Leads old condition next → s.hiddenBits next = s.hiddenBits halted)
    (hfin : s.hiddenBits fin ≠ s.hiddenBits halted) {steps : List ControlStep} {states : List (ControlState α)}
    (h : s.Walk state steps (states ++ [fin])) : ∀ st ∈ state :: states, s.hiddenBits st ≠ s.hiddenBits halted := by
  induction states generalizing state steps with
  | nil =>
    cases steps with
    | nil => exact h.elim
    | cons step steps =>
      intro st hst heq
      rw [List.mem_singleton.mp hst] at heq
      exact hfin (hloop _ _ _ heq h.1.leads)
  | cons next states ih =>
    cases steps with
    | nil => exact h.elim
    | cons step steps =>
      have hrest := ih h.2
      intro st hst
      rcases List.mem_cons.mp hst with rfl | hst
      · exact fun heq => hrest next List.mem_cons_self (hloop _ _ _ heq h.1.leads)
      · exact hrest st hst

/-- A state is called what its hidden bits were named last. -/
theorem mem_names_of_stateName {name : String} (h : s.stateName state = name) (hname : name ≠ unknownToken) :
    (s.hiddenBits state, name) ∈ s.names := by
  have hlookup : s.names.lookup (s.hiddenBits state) = some name := by
    cases hfound : s.names.lookup (s.hiddenBits state) with
    | none =>
      have hdecode : s.stateName state = (s.names.lookup (s.hiddenBits state)).getD unknownToken := rfl
      rw [hfound, h] at hdecode
      exact absurd hdecode hname
    | some x =>
      have hdecode : s.stateName state = (s.names.lookup (s.hiddenBits state)).getD unknownToken := rfl
      rw [hfound, h] at hdecode
      exact congrArg some hdecode.symm
  obtain ⟨before, after, heq, -⟩ := List.lookup_eq_some_iff.mp hlookup
  rw [heq]
  exact List.mem_append_right _ List.mem_cons_self

namespace Recorded

variable (h : Recorded registers start load ready halted s)

include h

/-- The transits on `exit` lead to one state. -/
theorem target_of_exit {t : Transit α} (ht : t ∈ s.transits) (hcondition : t.key.condition = some ⟨opc, Opcode.exit.mnemonic⟩) :
    t.target = halted := by
  obtain ⟨op, o, ho, states, hwalk, hpass⟩ := h.passes t ht
  obtain ⟨gates, rest, hsteps⟩ := exists_enter (op.path_steps ho)
  unfold Opcode.round at hwalk hpass
  obtain ⟨states, rfl, hload⟩ := hwalk.head_eq h.traced h.toLoad
  obtain ⟨states, rfl, hready⟩ := hload.head_eq h.traced h.toReady
  rcases hpass with ⟨hkey, -⟩ | ⟨hkey, -⟩ | hpass
  · rw [hkey] at hcondition
    cases hcondition
  · rw [hkey] at hcondition
    cases hcondition
  rw [hsteps] at hready hpass
  cases states with
  | nil => exact hready.elim
  | cons next states =>
    rcases hpass with ⟨hkey, rfl⟩ | hpass
    · have hleads : s.Leads ready (some ⟨opc, Opcode.exit.mnemonic⟩) t.target := by
        rw [hkey] at hcondition
        rw [← hcondition]
        exact hready.1.leads
      exact hleads.unique h.traced h.toHalted
    · -- what follows reads other layers
      obtain ⟨step, hstep, heq⟩ := hpass.exists_step
      refine absurd rfl (op.layer_ne_opc registers o step ?_ _ (heq ▸ hcondition))
      rw [hsteps]
      exact hstep

/-- No state but `start` has its name. -/
theorem bits_of_start (hname : s.stateName state = "start") : s.hiddenBits state = s.hiddenBits start :=
  (h.names _ (mem_names_of_stateName hname (by decide))).1 rfl

theorem bits_of_exit (hname : s.stateName state = Opcode.exit.mnemonic) : s.hiddenBits state = s.hiddenBits halted := by
  obtain ⟨t, ht, hcondition, hbits⟩ := (h.names _ (mem_names_of_stateName hname (by decide))).2 .exit rfl
  rw [h.target_of_exit ht hcondition] at hbits
  exact hbits

/-- The state after `exit` leads to itself only. -/
theorem loops {o : Readings} (ho : o.Valid registers) {old next : ControlState α} {condition : Option Condition}
    (hbits : s.hiddenBits old = s.hiddenBits halted) (hleads : s.Leads old condition next) : next = halted := by
  obtain ⟨-, -, -, hself, -⟩ := h.walk_exit ho
  obtain ⟨t, ht, hkey, rfl, -⟩ := hleads
  obtain ⟨u, hu, hukey, htarget, -⟩ := hself.leads
  obtain ⟨c, hc, hsame⟩ := hself.only t ht (by rw [hkey]; exact hbits)
  obtain rfl := List.mem_singleton.mp hc
  rw [List.inj_on_of_nodup_map h.traced.keys ht hu (hsame.trans hukey.symm), htarget]

omit h [Scalar α] in
theorem lastState_of_ne {op : Opcode} (hop : op ≠ .exit) : lastState start halted op = start := if_neg hop

/-- The state after `exit` is not `start`. -/
theorem bits_halted_ne {o : Readings} (ho : o.Valid registers) : s.hiddenBits halted ≠ s.hiddenBits start := by
  obtain ⟨s₀, -, hd⟩ := h.drawn
  obtain ⟨states, hwalk, hnew⟩ := hd.walks (Opcode.exit.round registers o) _ ⟨.exit, _, Opcode.exit.path_steps ho, rfl, rfl⟩
  obtain ⟨more, heq, hload⟩ := hwalk.head_eq h.traced h.toLoad
  obtain ⟨more, rfl, hready⟩ := hload.head_eq h.traced h.toReady
  obtain ⟨more, rfl, hlast⟩ := hready.head_eq h.traced h.toHalted
  have hmore : ∃ x, more = [x] := by
    cases more with
    | nil => exact hlast.elim
    | cons x more =>
      cases more with
      | nil => exact ⟨x, rfl⟩
      | cons y more => exact hlast.2.elim
  obtain ⟨x, rfl⟩ := hmore
  refine (hnew halted ?_).ne
  have heq : states ++ [lastState start halted .exit] = [load, ready, halted] ++ [x] := heq
  have hstates : states = [load, ready, halted] := (List.append_inj' heq rfl).1
  rw [hstates]
  simp

/-- A round that comes home passes neither `start` nor the state after `exit`. -/
theorem walk_between {op : Opcode} (hop : op ≠ .exit) {o : Readings} (ho : o.Valid registers) : ∃ states,
    s.Walk start (op.round registers o) (states ++ [start]) ∧
      ∀ st ∈ states, s.hiddenBits st ≠ s.hiddenBits start ∧ s.hiddenBits st ≠ s.hiddenBits halted := by
  obtain ⟨s₀, -, hd⟩ := h.drawn
  obtain ⟨states, hwalk, hnew⟩ := hd.walks (op.round registers o) _ ⟨op, _, op.path_steps ho, rfl, rfl⟩
  rw [lastState_of_ne hop] at hwalk
  have hloop : ∀ old condition next, s.hiddenBits old = s.hiddenBits halted → s.Leads old condition next →
      s.hiddenBits next = s.hiddenBits halted := fun _ _ _ hbits hleads => by rw [h.loops ho hbits hleads]
  have havoids := hwalk.avoids hloop (h.bits_halted_ne ho).symm
  exact ⟨states, hwalk, fun st hst => ⟨(hnew st hst).ne, havoids st (List.mem_cons_of_mem _ hst)⟩⟩

/-- Neither are the two states that every round passes. -/
theorem bits_fetching {o : Readings} (ho : o.Valid registers) : ∀ st ∈ [load, ready],
    s.hiddenBits st ≠ s.hiddenBits start ∧ s.hiddenBits st ≠ s.hiddenBits halted := by
  obtain ⟨states, hwalk, hbetween⟩ := h.walk_between (by decide : Opcode.nop ≠ .exit) ho
  obtain ⟨more, heq, hmore⟩ := hwalk.head_eq h.traced h.toLoad
  obtain ⟨more, rfl, hrest⟩ := hmore.head_eq h.traced h.toReady
  cases more with
  | nil => exact hrest.elim
  | cons x more =>
    cases more with
    | nil =>
      have heq : states ++ [start] = [load, ready] ++ [x] := heq
      have hstates : states = [load, ready] := (List.append_inj' heq rfl).1
      exact hstates ▸ hbetween
    | cons y more => exact hrest.2.elim

/-- The states on the way of an instruction are called neither `start` nor `exit`, until it ends. -/
theorem walk_way {op : Opcode} {o : Readings} (ho : o.Valid registers) : ∃ states,
    s.Walk start (op.way registers o) (states ++ [lastState start halted op]) ∧
      ∀ st ∈ states, s.stateName st ≠ "start" ∧ s.stateName st ≠ Opcode.exit.mnemonic := by
  have hnames {st : ControlState α} (hst : s.hiddenBits st ≠ s.hiddenBits start ∧ s.hiddenBits st ≠ s.hiddenBits halted) :
      s.stateName st ≠ "start" ∧ s.stateName st ≠ Opcode.exit.mnemonic :=
    ⟨fun hname => hst.1 (h.bits_of_start hname), fun hname => hst.2 (h.bits_of_exit hname)⟩
  by_cases hop : op = .exit
  · subst hop
    obtain ⟨hload, hready, hhalted, -⟩ := h.walk_exit ho
    exact ⟨[load, ready], ⟨hload, hready, hhalted, trivial⟩, fun st hst => hnames (h.bits_fetching ho st hst)⟩
  · obtain ⟨states, hwalk, hbetween⟩ := h.walk_between hop ho
    unfold Opcode.way
    rw [if_neg hop, lastState_of_ne hop]
    exact ⟨states, hwalk, fun st hst => hnames (hbetween st hst)⟩

end Recorded

end Sequencer

end Engram
