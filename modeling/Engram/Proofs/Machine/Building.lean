/-
  Engram.Proofs.Machine.Building — which valid configurations have a machine.

  A machine is built from its network, the slots of its pointers and its automaton. A valid
  configuration has a network and every gate that a machine looks at, as long as there are numbers
  for its layers. Its pointer layers have as many orthogonal patterns as units, and no more slots
  than that. The routines ask for no gate that is not there, and use each condition layer in one
  way. What is left are states that are not told apart: recording the automaton stops at a conflict
  if it stops at all, and then two control states have the same hidden bits (`build_or_clash`).

  The states that branches on registers lead to are composed, without a look at the patterns that
  are taken already. On thirty-two hidden units that goes wrong for some seeds, with one register
  (`valid_without_machine`).
-/

import Engram.Proofs.Control.Conflicts
import Engram.Proofs.Machine.Shapes

namespace Engram

open LayerId Sequencer

variable {α : Type} [Scalar α]

namespace Network.BuiltFrom

variable {c : Config α} {n : Network α}

/-- The sequencer finds the gates that it looks up. -/
theorem legible (h : n.BuiltFrom c) (hroom : c.registers.length ≤ 65522)
    (hlevels : ∀ bit, c.activator.isOn (c.activator.level bit) = bit) :
    Sequencer.Legible (gateList n.registers (controlNames ++ c.registers).length) n := by
  have hgo : n.activator go = c.activator := h.activator_eq (Nat.lt_of_lt_of_le (by decide) h.numbered.control)
  refine ⟨h.gates, ?_, ?_, mem_default (h.counted hroom), fun l hl => (allowed_read l hl).known List.mem_cons_self⟩
  · rw [hgo]
    exact hlevels true
  · rw [hgo]
    exact hlevels false

/-- There are patterns for all slots. -/
theorem exists_slots (h : n.BuiltFrom c) : ∃ patterns later,
    Pointer.encodeSlots ((List.range c.pointerSlots).map Pointer.slotToken) n Pointer.layers = (.ok patterns, later) := by
  have hlayers : ∀ l ∈ Pointer.layers, l.position < controlNames.length ∧ l ≠ go ∧ l ≠ gh := by decide
  refine Pointer.exists_encodeSlots h.sound (by decide) fun l hl => ?_
  obtain ⟨hposition, hgo, hgh⟩ := hlayers l hl
  have hlt : l.position < n.layers.size := Nat.lt_of_lt_of_le hposition h.numbered.control
  have hsize := h.size_data hlt hgo hgh
  have hleft : (n.layer l).book.left = n.size l := by
    obtain ⟨name, hname⟩ := h.layer_eq hlt
    unfold Network.size
    rw [hname]
    rfl
  rw [hleft, hsize, List.length_map, List.length_range]
  exact ⟨(Config.of_validate h.valid).2.2, (Config.pointerSlots_of_validate h.valid).2⟩

end Network.BuiltFrom

/-- Recording the automaton of the network stops at a conflict, and two of the control states that
were created by then have the same hidden bits. -/
def Network.Clashes (n : Network α) (e : Fault α) : Prop :=
  e.IsConflict ∧ ∃ start s later, Does (initial "start") { Sequencer.new n with context := "fetch" } start s ∧
    Fails (recordInstructions n.namedRegisters) (Sequencer.new n) e later ∧ Continues start s later ∧ ¬ later.Apart start

namespace Machine

variable {c : Config α}

/-- No machine is built where the automaton is not recorded. -/
theorem build_of_fails {bare n : Network α} {later : Sequencer α} {pointers : Weights α × Nat} {e : Fault α}
    (hbare : (Network.build c).value = .ok bare) (hpointers : (Pointer.flash bare c.pointerSlots).value = (.ok pointers, n))
    (hfails : Fails (recordInstructions n.namedRegisters) (Sequencer.new n) e later) : (build c).value = .error e := by
  have h₁ : (ExceptT.mk (Network.build c)).run.value = .ok bare := hbare
  have h₂ := run_of_kept hpointers
  have hcompile : (n.compile false).value = (.error e, later.network) := by
    unfold Network.compile
    dsimp only
    rw [show (recordInstructions (n.registers.map fun r => (r, n.name r))).run.run (Sequencer.new n) = (.error e, later)
      from hfails]
    rfl
  have h₃ := run_of_lost hcompile
  unfold build
  rw [run_bind_of_ok h₁, run_bind_of_ok h₂]
  dsimp only
  rw [run_bind_of_error h₃]

/-- A valid configuration with numbers for all of its layers has a machine, unless recording its
automaton stops at a conflict between two control states with the same hidden bits. Without numbers
for all of its layers it has none. -/
theorem build_or_clash (hvalid : c.validate = .ok ()) (hlevels : ∀ bit, c.activator.isOn (c.activator.level bit) = bit) :
    (c.registers.length ≤ 65522 → (∃ m, (build c).value = .ok m) ∨
      ∃ bare pointers n e, (Network.build c).value = .ok bare ∧
        (Pointer.flash bare c.pointerSlots).value = (.ok pointers, n) ∧ n.Clashes e ∧ (build c).value = .error e) ∧
    (65522 < c.registers.length → ∃ e, (build c).value = .error e) := by
  constructor
  · intro hroom
    obtain ⟨bare, hbare⟩ := Network.exists_build hvalid hroom
    have hbuilt := Network.builtFrom_of_build hbare
    obtain ⟨patterns, n, hslots⟩ := hbuilt.exists_slots
    obtain ⟨weights, errors, hpointers⟩ := Pointer.exists_flash hslots
    have hgrows : bare.Grows n := by
      have h := Pointer.grows_encodeSlots ((List.range c.pointerSlots).map Pointer.slotToken) bare Pointer.layers
      rw [hslots] at h
      exact h
    have hsound : n.Sound := by
      have h := Pointer.sound_encodeSlots ((List.range c.pointerSlots).map Pointer.slotToken) hbuilt.sound Pointer.layers
      rw [hslots] at h
      exact h
    have hkeeps : bare.Keeps (fun _ _ => False) n := hgrows.mono fun _ _ _ => trivial
    have hregisters : n.namedRegisters.map (·.1) = bare.registers := by
      unfold Network.namedRegisters
      rw [List.map_map, ← hkeeps.registers]
      exact List.map_id' _
    have hgo : n.size go = n.gates.size := by rw [hkeeps.size, hkeeps.gates, hbuilt.size_go]
    rcases hrun : (recordInstructions n.namedRegisters).run.run (Sequencer.new n) with ⟨e | start, s⟩
    · right
      have hcounted := hbuilt.counted hroom
      have hne : n.namedRegisters ≠ [] := by
        intro hnil
        rw [hnil, hbuilt.registers, UInt16.toNat_ofNat'] at hregisters
        have hlength := congrArg List.length hregisters
        rw [List.map_nil, List.length_nil, List.length_map, List.length_range] at hlength
        have hsome := List.length_pos_iff.mpr (Config.of_validate hvalid).1
        omega
      have hnames : (n.namedRegisters.map (·.2)).Nodup := by
        have hname : n.name = bare.name := funext hkeeps.name
        unfold Network.namedRegisters
        rw [List.map_map, hkeeps.registers]
        show (bare.registers.map n.name).Nodup
        rw [hname]
        exact hbuilt.nodup_names
      have hlegal : ∀ op : Opcode, op.routine.Legal (Network.gateList bare.registers (controlNames ++ c.registers).length)
          (n.namedRegisters.map (·.1)) := by
        rw [hregisters]
        exact Opcode.legal_routine hcounted
      obtain ⟨hconflict, hclash⟩ := clash_of_instructions hgo (hkeeps.numbered hbuilt.numbered)
        ((hbuilt.legible hroom hlevels).keeps hkeeps) (allowed_fetch hcounted) (allowed_read opc (by decide)) hlegal hne hnames hrun
      obtain ⟨start, s₀, hinitial, hcontinues, hapart⟩ := hclash
      exact ⟨bare, _, n, e, hbare, hpointers, ⟨hconflict, start, s₀, s, hinitial, hrun, hcontinues, hapart⟩,
        build_of_fails hbare hpointers hrun⟩
    · left
      have hcount : bare.layers.size < 65536 := by
        have hlayers := hbuilt.size_layers
        have hcontrol : controlNames.length = 13 := rfl
        omega
      obtain ⟨units, hunits⟩ := Network.exists_units (unit?_of_needed hbuilt hcount)
      have hgoverns := (governs_of_records hsound hgo (hgrows.numbered hbuilt.numbered) hrun).1
      have hlater := hkeeps.trans (hgoverns.keeps.mono fun _ _ hf => hf.elim)
      exact exists_build hbare hpointers (Network.value_compile hrun false) hlater hunits
  · intro hmore
    cases hbuild : (build c).value with
    | error e => exact ⟨e, rfl⟩
    | ok m => exact absurd (length_le_of_build hbuild) (Nat.not_le.mpr hmore)

/-- Another seed for the small configuration, with which two states of a comparison between
registers get the same hidden pattern. -/
def clashConfig : Config Fixed := { smallConfig with seed := 916 }

/-- What a conflict says, of a result that is one. -/
def conflict? {β : Type} : Except (Fault α) β → Option (String × String × String)
  | .error (.transitConflict context state condition) => some (context, state, condition)
  | _ => none

omit [Scalar α] in
theorem eq_of_conflict? {β : Type} {r : Except (Fault α) β} {context state condition : String}
    (h : conflict? r = some (context, state, condition)) : r = .error (.transitConflict context state condition) := by
  unfold conflict? at h
  split at h
  · cases h
    rfl
  · cases h

theorem validate_clashConfig : clashConfig.validate = .ok () := by
  have hnone : clashConfig.fault? = none := by decide +kernel
  unfold Config.validate
  rw [hnone]

theorem build_clashConfig :
    (build clashConfig).value = .error (.transitConflict "cmpd" "cmpd.28" "no condition") :=
  eq_of_conflict? (by decide +kernel)

theorem valid_without_machine : clashConfig.validate = .ok () ∧ ∀ m, (build clashConfig).value ≠ .ok m := by
  refine ⟨validate_clashConfig, fun m hm => ?_⟩
  rw [build_clashConfig] at hm
  cases hm

/-- The conflict is one between two states with the same hidden bits. -/
theorem clashConfig_clashes : ∃ bare pointers n, (Network.build clashConfig).value = .ok bare ∧
    (Pointer.flash bare clashConfig.pointerSlots).value = (.ok pointers, n) ∧
    n.Clashes (.transitConflict "cmpd" "cmpd.28" "no condition") := by
  have hlevels := Fixed.isOn_level validate_clashConfig
  rcases (build_or_clash validate_clashConfig hlevels).1 (by decide) with ⟨m, hm⟩ | ⟨bare, pointers, n, e, hbare, hpointers, hclash, he⟩
  · rw [build_clashConfig] at hm
    cases hm
  · obtain rfl := Except.error.inj (build_clashConfig.symm.trans he)
    exact ⟨bare, pointers, n, hbare, hpointers, hclash⟩

end Machine

end Engram
