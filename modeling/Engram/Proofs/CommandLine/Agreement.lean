/-
  Engram.Proofs.CommandLine.Agreement — the command line does what its machine does.

  A machine is loaded for a program file in three steps: it is built, the text is added under a
  name made from the path, and the registers get their first tokens. The name is always a valid
  one, so adding the text fails only if it is no program or a layer runs out of patterns, and
  loading fails only for a name that is no register (`exists_loaded_iff`). After that the command
  line counts instructions on its own, without a look whether the machine is at the exit before the
  first one; from the start that makes no difference (`execute_tells`).
-/

import Engram.CommandLine.Basic
import Engram.Proofs.Machine.Loading
import Engram.Proofs.Program.Grammar
import Engram.Storage.FileTree
import Mathlib

namespace Engram

open LayerId

/-! ## Registers by name -/

namespace Network

variable {α : Type} {n : Network α}

theorem checkRegisters_eq_ok_iff {registers : List (String × String)} :
    n.checkRegisters registers = .ok () ↔ ∀ r ∈ registers, n.isRegister r.1 = true := by
  induction registers with
  | nil => exact iff_of_true rfl fun r hr => (List.not_mem_nil hr).elim
  | cons r rest ih =>
    rw [checkRegisters, List.forall_mem_cons]
    by_cases hr : n.isRegister r.1 = true
    · rw [if_pos hr, ih, and_iff_right hr]
    · rw [if_neg hr]
      exact iff_of_false (fun h => by cases h) fun h => hr h.1

/-- Only names that are no registers stop the registers from getting their tokens. -/
theorem of_checkRegisters_error {registers : List (String × String)} {e : Fault α}
    (h : n.checkRegisters registers = .error e) : ∃ name, e = .unknownLayer name := by
  induction registers with
  | nil => cases h
  | cons r rest ih =>
    rw [checkRegisters] at h
    split at h
    · exact ih h
    · cases h
      exact ⟨_, rfl⟩

end Network

namespace Machine

variable {α : Type} [Scalar α] {c : Config α} {m : Machine α}

/-! ## Machines that were just built -/

theorem registers_of_build (h : (build c).value = .ok m) :
    m.network.registerNames = c.registers ∧ ∀ name, m.network.isRegister name = true ↔ name ∈ c.registers := by
  obtain ⟨bare, n, s, hparts⟩ := builtFrom_of_build h
  have hbare := Network.builtFrom_of_build hparts.network
  have hkeeps := hparts.keeps_bare
  have hroom : controlNames.length + c.registers.length ≤ 65536 := by
    have hnames : controlNames.length = 13 := rfl
    have hle := length_le_of_build h
    omega
  have hnames := hkeeps.names (hbare.size_layers ▸ hroom)
  refine ⟨hkeeps.registerNames.trans (hbare.registerNames_eq hroom), fun name => ?_⟩
  rw [← hbare.isRegister_iff hroom, Network.isRegister_congr hnames hkeeps.registers]

/-- A machine that was built, to which a program was added, brought to the first instruction. -/
def Loaded (c : Config α) (source name : String) (registers : List (String × String)) (m : Machine α) : Prop :=
  ∃ built errors assembled, (build c).value = .ok built ∧ (built.assemble source name).value = (.ok errors, assembled) ∧
    (assembled.load name registers).value = (.ok (), m)

theorem Loaded.unique {source name : String} {registers : List (String × String)} {m' : Machine α}
    (h : Loaded c source name registers m) (h' : Loaded c source name registers m') : m = m' := by
  obtain ⟨built, errors, assembled, hbuild, hassemble, hload⟩ := h
  obtain ⟨built', errors', assembled', hbuild', hassemble', hload'⟩ := h'
  obtain rfl := Except.ok.inj (hbuild.symm.trans hbuild')
  obtain ⟨-, rfl⟩ := Prod.mk.inj (hassemble.symm.trans hassemble')
  exact (Prod.mk.inj (hload.symm.trans hload')).2

/-- What adding a text under a valid name comes to: it is no program, or a layer has not enough
patterns left, or the program is known, and the registers are those that were there. -/
theorem assemble_cases_of_build (h : (build c).value = .ok m) (source : String) {name : String}
    (hname : Session.isProgramName name = true) :
    (∃ e, Program.parse c.registers source = .error e ∧ (m.assemble source name).value = (.error (.program e), m)) ∨
    (∃ p, Program.parse c.registers source = .ok p) ∧
      ((∃ layer needed capacity later, (m.assemble source name).value = (.error (.exhausted layer needed capacity), later)) ∨
        ∃ errors later, (m.assemble source name).value = (.ok errors, later) ∧ (later.entry? name).isSome = true ∧
          ∀ x, later.network.isRegister x = true ↔ x ∈ c.registers) := by
  obtain ⟨hnames, hregisters⟩ := registers_of_build h
  obtain ⟨bare, n, s, hparts⟩ := builtFrom_of_build h
  have hready := (hparts.ready (config_of_build h)).1
  cases hparse : Program.parse c.registers source with
  | error e =>
    refine .inl ⟨e, rfl, ?_⟩
    unfold assemble
    rw [hnames, hparse]
    rfl
  | ok p =>
    have hassemble : (m.assemble source name).value = (m.assembleProgram p name).value := by
      unfold assemble
      rw [hnames, hparse]
    have hempty : ¬ p.isEmpty = true := by
      rw [Program.isEmpty_of_parse hparse]
      exact Bool.false_ne_true
    refine .inr ⟨⟨p, rfl⟩, ?_⟩
    rw [hassemble]
    rcases Session.assemble_cases_of_valid hready.good (Program.labelled_of_parse hparse) hname hempty
        (fun _ l hl => (hready.size l hl).symm ▸ hready.valid) false with
      ⟨learning, -, a, t, hdoes, -⟩ | ⟨-, l, needed, later, -, -, hfails⟩
    · right
      have hrun : (m.assembleProgram p name).value =
          (.ok a.errors, { m with session := t, weights := m.weights.extend a.weights }) := by
        unfold assembleProgram
        rw [Noted.value_bind, hdoes]
        rfl
      cases comes_of_assembleProgram hready (Program.labelled_of_parse hparse) hrun with
      | added _ _ _ hknows hconfined =>
        refine ⟨_, _, hrun, ( isSome_entry? _ _).mpr ⟨?_, hknows⟩, fun x => ?_⟩
        · rw [hconfined.programs]
          exact Session.mem_enrolled.mpr (.inr rfl)
        · rw [← hregisters x]
          exact iff_of_eq (congrArg (· = true) (Network.isRegister_congr hconfined.names hconfined.keeps.registers x))
    · left
      refine ⟨m.network.name l, needed, m.network.size l, { m with session := later }, ?_⟩
      unfold assembleProgram
      rw [Noted.value_bind, hfails]
      rfl

/-- A machine is loaded unless it is not built, the text is no program, a layer has not enough
patterns left, or a name is no register; it is never the name of the program that is not known. -/
theorem exists_loaded_iff (c : Config α) (source : String) {name : String} (hname : Session.isProgramName name = true)
    (registers : List (String × String)) :
    ((∃ m, Loaded c source name registers m) ↔
      ¬ ((∃ e, (build c).value = .error e) ∨ (∃ e, Program.parse c.registers source = .error e) ∨
        (∃ m layer needed capacity, (build c).value = .ok m ∧
          (m.assemble source name).value.1 = .error (.exhausted layer needed capacity)) ∨
        ∃ r ∈ registers, r.1 ∉ c.registers)) ∧
    ∀ built errors assembled, (build c).value = .ok built → (built.assemble source name).value = (.ok errors, assembled) →
      ∀ program, (assembled.load name registers).value.1 ≠ .error (.unknownProgram program) := by
  constructor
  · constructor
    · rintro ⟨m, built, errors, assembled, hbuild, hassemble, hload⟩
      rcases assemble_cases_of_build hbuild source hname with ⟨e, hparse, hrun⟩ | ⟨⟨p, hparse⟩, hrun⟩
      · rw [hrun] at hassemble
        cases hassemble
      rcases hrun with ⟨layer, needed, capacity, later, hrun⟩ | ⟨errors', later, hrun, hentry, hregisters⟩
      · rw [hrun] at hassemble
        cases hassemble
      rw [hrun] at hassemble
      cases hassemble
      have hchecked := congrArg Prod.fst hload
      rw [fst_load, if_pos hentry, Network.checkRegisters_eq_ok_iff] at hchecked
      rintro (⟨e, he⟩ | ⟨e, he⟩ | ⟨m', layer, needed, capacity, hm', he⟩ | ⟨r, hr, hmissing⟩)
      · rw [hbuild] at he; cases he
      · rw [hparse] at he; cases he
      · obtain rfl := Except.ok.inj (hbuild.symm.trans hm')
        rw [hrun] at he
        cases he
      · exact hmissing ((hregisters r.1).mp (hchecked r hr))
    · intro hnone
      simp only [not_or, not_exists, not_and, not_not] at hnone
      obtain ⟨hbuilt, hparsed, hroomy, hregistered⟩ := hnone
      cases hbuild : (build c).value with
      | error e => exact (hbuilt e hbuild).elim
      | ok built =>
        rcases assemble_cases_of_build hbuild source hname with ⟨e, hparse, -⟩ | ⟨-, hrun⟩
        · exact (hparsed e hparse).elim
        rcases hrun with ⟨layer, needed, capacity, later, hrun⟩ | ⟨errors, later, hrun, hentry, hregisters⟩
        · exact (hroomy built layer needed capacity hbuild (congrArg Prod.fst hrun)).elim
        have hload : (later.load name registers).value.1 = .ok () := by
          rw [fst_load, if_pos hentry, Network.checkRegisters_eq_ok_iff]
          exact fun r hr => (hregisters r.1).mpr (hregistered r hr)
        exact ⟨_, built, errors, later, hbuild, hrun, Prod.ext hload rfl⟩
  · intro built errors assembled hbuild hassemble program hunknown
    rcases assemble_cases_of_build hbuild source hname with ⟨e, -, hrun⟩ | ⟨-, hrun⟩
    · rw [hrun] at hassemble
      cases hassemble
    rcases hrun with ⟨layer, needed, capacity, later, hrun⟩ | ⟨errors', later, hrun, hentry, -⟩
    · rw [hrun] at hassemble
      cases hassemble
    rw [hrun] at hassemble
    cases hassemble
    rw [fst_load, if_pos hentry] at hunknown
    obtain ⟨missing, heq⟩ := Network.of_checkRegisters_error hunknown
    cases heq

end Machine

/-- A file holds the text that was written. -/
theorem FileTree.read_of_file {t : FileTree} {path text : String} {place : Place}
    (hplace : t.place path (FileTree.components path) = .ok place) (hentry : t.entry? place = some (.file text.toUTF8)) :
    t.read path = .ok text := by
  have htext : String.fromUTF8? text.toUTF8 = some text := by
    simp only [String.fromUTF8?, String.toUTF8_eq_toByteArray, dif_pos text.isValidUTF8]
    rfl
  unfold FileTree.read
  simp only [hplace, hentry, htext, bind, Except.bind]

namespace CommandLine

/-! ## The name of a program -/

theorem isProgramName_ofList {name : List Char} (hname : name ≠ [])
    (hall : ∀ c ∈ name, c ≠ '.' ∧ c ≠ ':' ∧ Text.isBlank c = false) : Session.isProgramName (String.ofList name) = true := by
  have hempty : (String.ofList name).isEmpty = false := by
    rw [Bool.eq_false_iff]
    intro h
    apply hname
    rw [String.isEmpty_iff] at h
    exact String.ofList_eq_empty_iff.mp h
  have hany : ((String.ofList name).toList.any fun c => c == '.' || c == ':' || Text.isBlank c) = false := by
    rw [String.toList_ofList, List.any_eq_false]
    intro c hc
    obtain ⟨hpoint, hcolon, hblank⟩ := hall c hc
    simp [hpoint, hcolon, hblank]
  rw [Session.isProgramName, hempty, hany]
  rfl

/-- The name made from a path can be the name of a program, whatever the path. -/
theorem isProgramName_programName (path : String) : Session.isProgramName (programName path) = true := by
  unfold programName
  dsimp only
  split
  · decide
  · next hempty =>
    refine isProgramName_ofList (fun hnil => hempty (by rw [hnil]; rfl)) fun c hc => ?_
    obtain ⟨d, -, rfl⟩ := List.mem_map.mp hc
    split
    · decide
    · next hkept =>
      simp only [Bool.or_eq_true, beq_iff_eq, not_or, Bool.not_eq_true] at hkept
      exact ⟨hkept.1.1, hkept.1.2, hkept.2⟩

/-! ## Running -/

/-- What a report says of a run. -/
def Report.Tells (r : Report) : RunOutcome → Prop
  | .exited steps => r.status = 0 ∧ ("exited after " ++ toString steps ++ " steps") ∈ r.out
  | .stalled steps => r.status = 1 ∧ ∃ ticks : Nat, ("stalled at step " ++ toString steps ++ " after " ++ toString ticks ++ " ticks") ∈ r.err
  | .stepLimit steps => r.status = 1 ∧ ("step limit " ++ toString steps ++ " reached") ∈ r.err

theorem Report.Tells.after {r : Report} {outcome : RunOutcome} (h : r.Tells outcome) (out err : List String) :
    (r.after out err).Tells outcome := by
  cases outcome with
  | exited steps => exact ⟨h.1, List.mem_append_right _ h.2⟩
  | stalled steps => exact ⟨h.1, h.2.imp fun _ hmem => List.mem_append_right _ hmem⟩
  | stepLimit steps => exact ⟨h.1, List.mem_append_right _ h.2⟩

/-- Counting instructions leaves the machine that a run leaves, and tells how the run ended. -/
theorem execute_tells (verbose : Bool) (m : Machine Float) (done budget : Nat) :
    (execute verbose m done budget).1.Tells (m.runFrom done budget).value.1 ∧
      (execute verbose m done budget).2 = (m.runFrom done budget).value.2 := by
  induction budget generalizing m done with
  | zero => exact ⟨⟨rfl, List.mem_singleton_self _⟩, rfl⟩
  | succ budget ih =>
    unfold execute Machine.runFrom
    rw [Noted.value_bind]
    rcases (m.step m.config.maxTicks).value with ⟨outcome, later⟩
    cases outcome with
    | exited ticks => exact ⟨⟨rfl, List.mem_cons_self⟩, rfl⟩
    | stalled ticks => exact ⟨⟨rfl, ticks, List.mem_cons_self⟩, rfl⟩
    | completed ticks =>
      obtain ⟨htells, hmachine⟩ := ih later (done + 1)
      exact ⟨htells.after _ _, hmachine⟩

/-- Not at the exit, a run counts instructions from the first one on. -/
theorem run_of_atStart {m : Machine Float} (h : m.atStart = true) (maxSteps : Nat) : m.run maxSteps = m.runFrom 0 maxSteps := by
  have hexit : ¬ m.atExit = true := by
    rw [Machine.atStart, beq_iff_eq] at h
    rw [Machine.atExit, h]
    decide
  rw [Machine.run, if_neg hexit]

/-! ## The whole command line -/

/-- The command line prepares the machine that is loaded, or stops when there is none. -/
theorem prepare_cases (o : Options) (c : Config Float) (path source : String) :
    (∃ m warnings, prepare o c path source = .ok (m, warnings) ∧
      Machine.Loaded c source (programName path) o.registers m) ∨
    (∃ line, prepare o c path source = .error line) ∧ ¬ ∃ m, Machine.Loaded c source (programName path) o.registers m := by
  cases hbuild : (Machine.build c).value with
  | error e =>
    refine .inr ⟨⟨_, by simp only [prepare, hbuild]; rfl⟩, ?_⟩
    rintro ⟨m, built, errors, assembled, hok, -⟩
    rw [hbuild] at hok
    cases hok
  | ok built =>
  rcases hassemble : (built.assemble source (programName path)).value with ⟨e | errors, assembled⟩
  · refine .inr ⟨⟨_, by simp only [prepare, hbuild, pure_bind, hassemble]; rfl⟩, ?_⟩
    rintro ⟨m, built', errors, assembled', hok, hrun, -⟩
    obtain rfl := Except.ok.inj (hbuild.symm.trans hok)
    rw [hassemble] at hrun
    cases hrun
  rcases hload : (assembled.load (programName path) o.registers).value with ⟨e | u, m⟩
  · refine .inr ⟨⟨_, by simp only [prepare, hbuild, pure_bind, hassemble, hload]; rfl⟩, ?_⟩
    rintro ⟨m', built', errors', assembled', hok, hrun, hm⟩
    obtain rfl := Except.ok.inj (hbuild.symm.trans hok)
    rw [hassemble] at hrun
    cases hrun
    rw [hload] at hm
    cases hm
  · exact .inl ⟨m, _, by simp only [prepare, hbuild, pure_bind, hassemble, hload]; rfl, built, errors, assembled, hbuild, hassemble, hload⟩

theorem run_bind {β γ : Type} (x : StateM FileTree β) (f : β → StateM FileTree γ) (t : FileTree) :
    (x >>= f).run t = (f (x.run t).1).run (x.run t).2 := rfl

/-- Reading a file gives what the tree has, and changes nothing. -/
theorem run_read (t : FileTree) (path : String) : (FileTree.files.read path).run t = (t.read path, t) := rfl

theorem snd_run_config (o : Options) (t : FileTree) : ((config FileTree.files o).run t).2 = t := by
  unfold config
  cases o.config with
  | none => rfl
  | some path =>
    simp only [Config.load, run_bind, run_read]
    cases t.read path with
    | error e => rfl
    | ok text => rfl

/-- What starting a program comes to: the line that stops it, or what counting instructions reports,
with lines before it. -/
theorem run_start {t : FileTree} {o : Options} {c : Config Float} {path source : String} (hdump : o.dump = none)
    (hconfig : ((config FileTree.files o).run t).1 = .ok c) (hsource : t.read path = .ok source) :
    (∃ line, prepare o c path source = .error line ∧ ((start FileTree.files o path).run t).1 = .failure line) ∨
    ∃ m warnings out, prepare o c path source = .ok (m, warnings) ∧
      ((start FileTree.files o path).run t).1 = (execute o.verbose m 0 o.maxSteps).1.after out warnings := by
  have hrun : (config FileTree.files o).run t = (.ok c, t) := Prod.ext hconfig (snd_run_config o t)
  cases hprepare : prepare o c path source with
  | error line =>
    refine .inl ⟨line, rfl, ?_⟩
    simp only [start, run_bind, hrun, run_read, hsource, hprepare]
    rfl
  | ok prepared =>
    obtain ⟨m, warnings⟩ := prepared
    exact .inr ⟨m, warnings, _, rfl, by simp only [start, run_bind, hrun, run_read, hsource, hprepare, hdump]; rfl⟩

/-- The status that a report gives a run. -/
theorem Report.Tells.status {r : Report} {outcome : RunOutcome} (h : r.Tells outcome) :
    (r.status = 0 ↔ ∃ steps, outcome = .exited steps) ∧
      (r.status = 1 ↔ ∃ steps, outcome = .stalled steps ∨ outcome = .stepLimit steps) ∧ r.status ≠ 2 := by
  cases outcome with
  | exited steps => simp [h.1]
  | stalled steps => simp [h.1]
  | stepLimit steps => simp [h.1]

/-- The command line and the machine agree. For arguments that name a program file that can be read,
with a configuration and no file to write, the name made from the path is valid; the status is 2 just
if the machine is not built, the text is no program, a layer has not enough patterns left, or a
register is named that is none; otherwise a machine is loaded, and never is the program unknown to it.
If that machine is at the start, the report tells what its run comes to, with status 0 for the exit
and 1 for a stall or the limit, and the machine is left as by the run. -/
theorem run_agrees {t : FileTree} {args : List String} {o : Options} {c : Config Float} {path source : String}
    (hargs : Options.read {} args = .ok (some o)) (hpath : o.program = some path) (hdump : o.dump = none)
    (hconfig : ((config FileTree.files o).run t).1 = .ok c) (hsource : t.read path = .ok source) :
    Session.isProgramName (programName path) = true ∧
    (((run FileTree.files args).run t).1.status = 2 ↔
      (∃ e, (Machine.build c).value = .error e) ∨ (∃ e, Program.parse c.registers source = .error e) ∨
      (∃ m layer needed capacity, (Machine.build c).value = .ok m ∧
        (m.assemble source (programName path)).value.1 = .error (.exhausted layer needed capacity)) ∨
      ∃ r ∈ o.registers, r.1 ∉ c.registers) ∧
    (((run FileTree.files args).run t).1.status ≠ 2 → ∃ m, Machine.Loaded c source (programName path) o.registers m) ∧
    (∀ built errors assembled, (Machine.build c).value = .ok built →
      (built.assemble source (programName path)).value = (.ok errors, assembled) →
      ∀ program, (assembled.load (programName path) o.registers).value.1 ≠ .error (.unknownProgram program)) ∧
    ∀ m, Machine.Loaded c source (programName path) o.registers m → m.atStart = true →
      (((run FileTree.files args).run t).1.status = 0 ↔ ∃ steps, (m.run o.maxSteps).value.1 = .exited steps) ∧
      (((run FileTree.files args).run t).1.status = 1 ↔
        ∃ steps, (m.run o.maxSteps).value.1 = .stalled steps ∨ (m.run o.maxSteps).value.1 = .stepLimit steps) ∧
      ((run FileTree.files args).run t).1.Tells (m.run o.maxSteps).value.1 ∧
      (execute o.verbose m 0 o.maxSteps).2 = (m.run o.maxSteps).value.2 := by
  have hname := isProgramName_programName path
  have hrun : run FileTree.files args = start FileTree.files o path := by
    simp only [run, hargs, hpath]
    rfl
  obtain ⟨hloaded, hknown⟩ := Machine.exists_loaded_iff c source hname o.registers
  rw [hrun]
  rcases run_start hdump hconfig hsource with ⟨line, hprepare, hreport⟩ | ⟨m, warnings, out, hprepare, hreport⟩
  -- there is no machine
  · have hnone : ¬ ∃ m, Machine.Loaded c source (programName path) o.registers m := by
      rcases prepare_cases o c path source with ⟨m, warnings, hok, -⟩ | ⟨-, hnone⟩
      · rw [hprepare] at hok
        cases hok
      · exact hnone
    have hstatus : ((start FileTree.files o path).run t).1.status = 2 := by rw [hreport]; rfl
    refine ⟨hname, iff_of_true hstatus ?_, fun h => (h hstatus).elim, hknown, fun m hm => (hnone ⟨m, hm⟩).elim⟩
    exact not_not.mp fun hall => hnone (hloaded.mpr hall)
  -- the machine that is loaded runs
  · have hm : Machine.Loaded c source (programName path) o.registers m := by
      rcases prepare_cases o c path source with ⟨m', warnings', hok, hm'⟩ | ⟨⟨line, herror⟩, -⟩
      · rw [hprepare] at hok
        cases hok
        exact hm'
      · rw [hprepare] at herror
        cases herror
    obtain ⟨htells, hmachine⟩ := execute_tells o.verbose m 0 o.maxSteps
    have htells := htells.after out warnings
    rw [← hreport] at htells
    refine ⟨hname, iff_of_false htells.status.2.2 (hloaded.mp ⟨m, hm⟩), fun _ => ⟨m, hm⟩, hknown, fun m' hm' hstart => ?_⟩
    obtain rfl := hm.unique hm'
    rw [← run_of_atStart hstart] at htells hmachine
    exact ⟨htells.status.1, htells.status.2.1, htells, hmachine⟩

/-- A directory with one file, which is no program. -/
def stopTree : FileTree := [(["p.q"], .file "stop".toUTF8)]

theorem read_stopTree : stopTree.read "p.q" = .ok "stop" := by
  have hcomponents : FileTree.components "p.q" = ["p.q"] := by cbv
  have hstart : "p.q".startsWith "/" = false := by cbv
  have hplace : stopTree.place "p.q" (FileTree.components "p.q") = .ok (.inside ["p.q"]) := by
    rw [FileTree.place, hcomponents, hstart]
    rfl
  exact FileTree.read_of_file hplace rfl

/-- A file that is no program: the status is 2. -/
theorem run_of_no_program : ((run FileTree.files ["--set", "r0=A", "p.q"]).run stopTree).1.status = 2 := by
  let o : Options := { registers := [("r0", "A")], program := some "p.q" }
  have hargs : Options.read {} ["--set", "r0=A", "p.q"] = .ok (some o) := rfl
  have hconfig : ((config FileTree.files o).run stopTree).1 = .ok (Config.standard : Config Float) := rfl
  obtain ⟨-, hstatus, -⟩ := run_agrees hargs rfl rfl hconfig read_stopTree
  refine hstatus.mpr (.inr (.inl ⟨⟨1, .unknownOpcode "stop"⟩, ?_⟩))
  decide +kernel

end CommandLine

end Engram
