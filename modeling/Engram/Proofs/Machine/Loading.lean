/-
  Engram.Proofs.Machine.Loading — which programs a machine loads after some were added to it.

  A program is loaded by name, when the name is enrolled and the instruction pointer knows it. A
  call that succeeds sees to both. A call that is refused changes nothing; but one that fails for
  want of orthogonal patterns has enrolled the name before, and when the layer without patterns is
  the instruction pointer itself, the entry may be the token that got the last one. So the
  programs that load are those of the calls that entered them (`Attempt.Enters`), whether these
  succeeded or not (`loads_after_attempts`).
-/

import Engram.Proofs.Data.Failing
import Engram.Proofs.Machine.Control

namespace Engram

open LayerId

variable {α : Type} [Scalar α]

namespace Network

/-! ## Registers by name -/

/-- Whether the registers that are to hold tokens are there. -/
def checkRegisters (n : Network α) : List (String × String) → Except (Fault α) Unit
  | [] => .ok ()
  | (register, _) :: rest => if n.isRegister register then n.checkRegisters rest else .error (.unknownLayer register)

variable {n later : Network α}

omit [Scalar α] in
theorem id?_congr (h : later.layers.map (·.name) = n.layers.map (·.name)) (name : String) : later.id? name = n.id? name := by
  have hfind : ∀ m : Network α, m.layers.findIdx? (·.name == name) = (m.layers.map (·.name)).findIdx? (· == name) :=
    fun m => by rw [Array.findIdx?_map]; rfl
  rw [id?, id?, hfind, hfind, h]

omit [Scalar α] in
theorem isRegister_congr (hnames : later.layers.map (·.name) = n.layers.map (·.name)) (hregisters : later.registers = n.registers)
    (name : String) : later.isRegister name = n.isRegister name := by
  rw [isRegister, isRegister, id?_congr hnames, hregisters]

omit [Scalar α] in
theorem checkRegisters_congr (hnames : later.layers.map (·.name) = n.layers.map (·.name)) (hregisters : later.registers = n.registers)
    (registers : List (String × String)) : later.checkRegisters registers = n.checkRegisters registers := by
  induction registers with
  | nil => rfl
  | cons r rest ih => rw [checkRegisters, checkRegisters, isRegister_congr hnames hregisters, ih]

end Network

namespace Machine

theorem fst_holdRegisters (m : Machine α) (registers : List (String × String)) :
    (m.holdRegisters registers).1 = m.network.checkRegisters registers := by
  induction registers generalizing m with
  | nil => rfl
  | cons r rest ih =>
    unfold holdRegisters Network.checkRegisters Network.isRegister
    cases m.network.id? r.1 with
    | none => rfl
    | some l =>
      dsimp only
      split
      · rw [ih]
        exact Network.checkRegisters_congr (Network.names_encode _ _ _) (Network.grows_encode _ _ _).registers rest
      · rfl

theorem network_rewind (m : Machine α) (entry : Pattern α) :
    (m.rewind entry).network.layers.map (·.name) = m.network.layers.map (·.name) ∧
      (m.rewind entry).network.registers = m.network.registers := by
  have hfold : ∀ (layers : List LayerId) (m' : Machine α),
      (layers.foldl (fun m l => m.hold l (Pointer.slotToken 0)) m').network.layers.map (·.name) = m'.network.layers.map (·.name) ∧
        (layers.foldl (fun m l => m.hold l (Pointer.slotToken 0)) m').network.registers = m'.network.registers := by
    intro layers
    induction layers with
    | nil => exact fun _ => ⟨rfl, rfl⟩
    | cons l rest ih =>
      intro m'
      obtain ⟨hnames, hregisters⟩ := ih (m'.hold l (Pointer.slotToken 0))
      exact ⟨hnames.trans (Network.names_encode _ _ _), hregisters.trans (Network.grows_encode _ _ _).registers⟩
  let activity := (((blank m.network).setIfInBounds gh.position m.automaton.start.hidden).setIfInBounds go.position
    m.automaton.start.gates).setIfInBounds ip.position entry
  have hrewind : m.rewind entry =
    Pointer.layers.foldl (fun m l => m.hold l (Pointer.slotToken 0)) ({ m with activity }.hold co falseToken) := rfl
  obtain ⟨hnames, hregisters⟩ := hfold Pointer.layers ({ m with activity }.hold co falseToken)
  rw [hrewind]
  exact ⟨hnames.trans (Network.names_encode _ _ _), hregisters.trans (Network.grows_encode _ _ _).registers⟩

/-- What loading answers: the program has to be known, and the registers have to be there. -/
theorem fst_load (m : Machine α) (program : String) (registers : List (String × String)) :
    (m.load program registers).value.1 =
      if (m.entry? program).isSome then m.network.checkRegisters registers else .error (.unknownProgram program) := by
  unfold load
  cases hentry : m.entry? program with
  | none => rfl
  | some entry =>
    dsimp only
    obtain ⟨hnames, hregisters⟩ := m.network_rewind entry
    have hfst := (m.rewind entry).fst_holdRegisters registers
    rw [Network.checkRegisters_congr hnames hregisters] at hfst
    rw [Option.isSome_some, if_pos rfl, ← hfst]
    rcases (m.rewind entry).holdRegisters registers with ⟨e | u, later⟩
    · rfl
    · rfl

theorem isSome_entry? (m : Machine α) (program : String) : (m.entry? program).isSome = true ↔
    program ∈ m.session.programs ∧ (m.network.layer ip).knows program = true := by
  unfold entry?
  by_cases h : program ∈ m.session.programs
  · rw [if_pos (List.contains_iff_mem.mpr h)]
    exact ⟨fun hk => ⟨h, hk⟩, fun hk => hk.2⟩
  · rw [if_neg fun hc => h (List.contains_iff_mem.mp hc)]
    exact ⟨fun hk => (Bool.false_ne_true hk).elim, fun hk => (h hk.1).elim⟩

theorem load_ok_iff (m : Machine α) (program : String) : (m.load program []).value.1 = .ok () ↔
    program ∈ m.session.programs ∧ (m.network.layer ip).knows program = true := by
  rw [← isSome_entry?, fst_load]
  cases (m.entry? program).isSome with
  | true => exact iff_of_true rfl rfl
  | false => exact iff_of_false (fun h => by cases h) Bool.false_ne_true

/-! ## Calls that add programs -/

/-- A call that adds a program under a name, as a text or as instructions whose labels name lines
of it: what it answers, and the machine that it leaves. -/
def Adds (m : Machine α) (name : String) (outcome : Except (Fault α) Nat) (later : Machine α) : Prop :=
  (∃ source, (m.assemble source name).value = (outcome, later)) ∨
    ∃ p : Program, p.Labelled ∧ (m.assembleProgram p name).value = (outcome, later)

/-- A call that was made on a machine. -/
structure Attempt (α : Type) where
  name : String
  machine : Machine α
  outcome : Except (Fault α) Nat

/-- The call gives the entry of its program a pattern: it succeeds, or it is the instruction
pointer that runs out of patterns, and not at the first token. -/
def Attempt.Enters (a : Attempt α) : Prop :=
  (∃ errors, a.outcome = .ok errors) ∨
    (∃ needed capacity, a.outcome = .error (.exhausted "ip" needed capacity)) ∧ 0 < (a.machine.network.layer ip).book.left

/-- The machines that any calls lead to, whether they succeed or fail. -/
inductive Attempts (m₀ : Machine α) : List (Attempt α) → Machine α → Prop
  | none : Attempts m₀ [] m₀
  | more {attempts : List (Attempt α)} {m later : Machine α} {name : String} {outcome : Except (Fault α) Nat}
      (h : Attempts m₀ attempts m) (hadds : m.Adds name outcome later) :
      Attempts m₀ (attempts ++ [⟨name, m, outcome⟩]) later

/-- What holds of a machine while programs are added to it. -/
structure Ready (c : Config α) (m : Machine α) : Prop where
  good : m.session.Good
  config : m.config = c
  size : ∀ l ∈ ip :: Session.operandLayers m.network.registers, m.network.size l = c.layerSize
  pointer : m.network.name ip = "ip"
  operands : ∀ l ∈ Session.operandLayers m.network.registers, m.network.name l ≠ "ip"
  valid : Sylvester.isPowerOfTwo c.layerSize = true

variable {c : Config α} {m m₀ later : Machine α} {name : String} {outcome : Except (Fault α) Nat}

theorem Ready.of_keeps (h : m.Ready c) (hgood : later.session.Good) (hconfig : later.config = m.config)
    (hkeeps : m.network.Keeps (fun _ _ => False) later.network) : later.Ready c := by
  have hname : ∀ l, later.network.name l = m.network.name l := hkeeps.name
  refine ⟨hgood, hconfig.trans h.config, fun l hl => ?_, (hname ip).trans h.pointer, fun l hl => ?_, h.valid⟩
  · rw [hkeeps.registers] at hl
    exact (hkeeps.size l).trans (h.size l hl)
  · rw [hkeeps.registers] at hl
    rw [hname]
    exact h.operands l hl

/-- A machine that was built is ready; it has no programs, and the instruction pointer knows nothing. -/
theorem BuiltFrom.ready {bare n : Network α} {s : Sequencer α} (h : m.BuiltFrom c bare n s) (hconfig : m.config = c) :
    m.Ready c ∧ m.session.programs = [] ∧ ∀ token, (m.network.layer ip).knows token = false := by
  have hbare := Network.builtFrom_of_build h.network
  have hkeeps := h.keeps_bare
  have hnumbered := hbare.numbered
  have hcontrols : ∀ l ∈ [ip, ci, op1, op2], l.position < controlNames.length ∧ l ≠ go ∧ l ≠ gh := by decide
  have hcontrol : ∀ l ∈ [ip, ci, op1, op2],
      bare.size l = c.layerSize ∧ bare.name l = controlNames.getD l.position "" := by
    intro l hl
    obtain ⟨hlt, hgo, hgh⟩ := hcontrols l hl
    refine ⟨hbare.size_data (Nat.lt_of_lt_of_le hlt hnumbered.control) hgo hgh, hbare.name_eq ?_⟩
    rw [List.getElem?_append_left hlt, List.getElem?_eq_getElem hlt, List.getD_eq_getElem _ _ hlt]
  -- the registers have other names than the control layers
  have hregister : ∀ r ∈ bare.registers, bare.size r = c.layerSize ∧ bare.name r ≠ "ip" := by
    intro r hr
    obtain ⟨hlow, hhigh⟩ := hnumbered.registers r hr
    refine ⟨hbare.size_data hhigh (hnumbered.ne_control hr).2 (hnumbered.ne_control hr).1, ?_⟩
    rw [hbare.size_layers] at hhigh
    have hindex : r.position - controlNames.length < c.registers.length := by omega
    have hget : (controlNames ++ c.registers)[r.position]? = some c.registers[r.position - controlNames.length] := by
      rw [List.getElem?_append_right hlow, List.getElem?_eq_getElem hindex]
    rw [hbare.name_eq hget]
    intro heq
    exact Config.not_control_of_registersFault? (Config.of_validate hbare.valid).2.1 _ (List.getElem_mem hindex)
      (by rw [heq]; decide)
  have hoperands : ∀ l ∈ Session.operandLayers bare.registers, bare.size l = c.layerSize ∧ bare.name l ≠ "ip" := by
    intro l hl
    simp only [Session.operandLayers, List.cons_append, List.mem_cons, List.mem_append, List.not_mem_nil, or_false] at hl
    rcases hl with rfl | hl | rfl | rfl
    · exact ⟨(hcontrol ci (by decide)).1, by rw [(hcontrol ci (by decide)).2]; decide⟩
    · exact hregister l hl
    · exact ⟨(hcontrol op1 (by decide)).1, by rw [(hcontrol op1 (by decide)).2]; decide⟩
    · exact ⟨(hcontrol op2 (by decide)).1, by rw [(hcontrol op2 (by decide)).2]; decide⟩
  have hname : ∀ l, m.network.name l = bare.name l := hkeeps.name
  have hsound : m.network.Sound := by
    unfold Machine.network
    rw [h.session]
    exact (h.governs.sound.encode co trueToken).encode co falseToken
  have hpairs : m.session.pairs = {} := by rw [h.session]; rfl
  have hgood : m.session.Good := ⟨hsound, h.fenced.numbered, by rw [hpairs]; exact PairMap.sized_empty _⟩
  refine ⟨⟨hgood, hconfig, fun l hl => ?_, ?_, fun l hl => ?_, (Config.of_validate hbare.valid).2.2⟩, ?_, fun token => ?_⟩
  · rw [hkeeps.registers] at hl
    rw [hkeeps.size]
    rcases List.mem_cons.mp hl with rfl | hl
    · exact (hcontrol ip (by decide)).1
    · exact (hoperands l hl).1
  · rw [hname, (hcontrol ip (by decide)).2]
    rfl
  · rw [hkeeps.registers] at hl
    rw [hname]
    exact (hoperands l hl).2
  · rw [h.session]
    rfl
  · rw [h.layer_ip]
    obtain ⟨name, hlayer⟩ := hbare.layer_eq (l := ip) (Nat.lt_of_lt_of_le (by decide) hnumbered.control)
    rw [hlayer]
    rfl

/-! ## One call -/

/-- What a call that adds a program comes to. -/
inductive Comes (c : Config α) (m : Machine α) (name : String) : Except (Fault α) Nat → Machine α → Prop
  /-- The call is refused. -/
  | refused {e : Fault α} (he : ∀ layer needed capacity, e ≠ .exhausted layer needed capacity) : Comes c m name (.error e) m
  /-- The program is added. -/
  | added {errors : Nat} {later : Machine α} (hname : Session.isProgramName name = true) (hconfig : later.config = m.config)
      (hgood : later.session.Good) (hknows : (later.network.layer ip).knows name = true)
      (hconfined : (m.session.enrolled name).Confined name later.session) : Comes c m name (.ok errors) later
  /-- A layer has not enough orthogonal patterns left. -/
  | failed {l : LayerId} {needed lines : Nat} {session : Session α} (hname : Session.isProgramName name = true)
      (horthogonal : c.orthogonal = true) (hhalfway : (m.session.enrolled name).Halfway name lines l session)
      (hconfined : (m.session.enrolled name).Confined name session) :
      Comes c m name (.error (.exhausted (m.network.name l) needed (m.network.size l))) { m with session }

theorem comes_of_assembleProgram (h : m.Ready c) {p : Program} (hp : p.Labelled)
    (hrun : (m.assembleProgram p name).value = (outcome, later)) : Comes c m name outcome later := by
  have hconfined (hname : Session.isProgramName name = true) :=
    Session.confined_learnProgram (s := m.session.enrolled name) h.good.numbered p hname m.config.orthogonal
  unfold assembleProgram at hrun
  rw [Noted.value_bind] at hrun
  rcases Session.assemble_cases h.good hp name (fun _ l hl => (h.size l hl).symm ▸ h.valid) false with
    ⟨cause, hfails⟩ | ⟨hname, learning, hdoes, a, t, hassemble, rfl, hgood, hknows⟩ |
      ⟨hname, ho, l, needed, session, hhalfway, hlearn, hfails⟩
  · rw [hfails] at hrun
    cases hrun
    exact .refused fun _ _ _ heq => by cases heq
  · rw [hassemble] at hrun
    cases hrun
    have hconfined := hconfined hname
    rw [hdoes] at hconfined
    exact .added hname rfl hgood hknows hconfined
  · rw [hfails] at hrun
    cases hrun
    have hconfined := hconfined hname
    rw [hlearn] at hconfined
    exact .failed hname (h.config ▸ ho) hhalfway hconfined

theorem comes_of_adds (h : m.Ready c) (hadds : m.Adds name outcome later) : Comes c m name outcome later := by
  rcases hadds with ⟨source, hrun⟩ | ⟨p, hp, hrun⟩
  · unfold assemble at hrun
    cases hparse : Program.parse m.network.registerNames source with
    | error e =>
      rw [hparse] at hrun
      cases hrun
      exact .refused fun _ _ _ heq => by cases heq
    | ok p =>
      rw [hparse] at hrun
      exact comes_of_assembleProgram h (Program.labelled_of_parse hparse) hrun
  · exact comes_of_assembleProgram h hp hrun

theorem Ready.of_comes (h : m.Ready c) (hcomes : Comes c m name outcome later) : later.Ready c := by
  cases hcomes with
  | refused => exact h
  | added _ hconfig hgood _ hconfined => exact h.of_keeps hgood hconfig hconfined.keeps
  | failed _ _ hhalfway hconfined => exact h.of_keeps hhalfway.good rfl hconfined.keeps

/-- The name of another program is known as before. -/
theorem Comes.knows_of_ne (hcomes : Comes c m name outcome later) {x : String} (hx : Session.isProgramName x = true)
    (hne : x ≠ name) : (later.network.layer ip).knows x = true ↔ (m.network.layer ip).knows x = true := by
  cases hcomes with
  | refused => exact Iff.rfl
  | added _ _ _ _ hconfined => exact hconfined.knows x hx hne
  | failed _ _ _ hconfined => exact hconfined.knows x hx hne

/-- The name of the program is known afterwards if it was, or if the call enters the program. -/
theorem Comes.knows (h : m.Ready c) (hcomes : Comes c m name outcome later) :
    (later.network.layer ip).knows name = true ↔
      (m.network.layer ip).knows name = true ∨ Attempt.Enters ⟨name, m, outcome⟩ := by
  cases hcomes with
  | refused he =>
    refine ⟨.inl, fun hk => hk.elim id ?_⟩
    rintro (⟨errors, hok⟩ | ⟨⟨needed, capacity, heq⟩, -⟩)
    · cases hok
    · exact (he _ _ _ (Except.error.inj heq)).elim
  | added _ _ _ hknows _ => exact iff_of_true hknows (.inr (.inl ⟨_, rfl⟩))
  | @failed l needed lines session _ _ hhalfway _ =>
    have hkept : (m.network.layer ip).knows name = true → (session.network.layer ip).knows name = true :=
      hhalfway.grows.knows trivial
    refine ⟨fun hk => ?_, fun hk => hk.elim hkept ?_⟩
    · rcases hhalfway.layer with ⟨rfl, hexhausts⟩ | ⟨-, hsame⟩
      · by_cases hleft : (m.network.layer ip).book.left = 0
        · exact .inl (hexhausts.spent hleft name hk)
        · refine .inr (.inr ⟨⟨needed, m.network.size ip, ?_⟩, Nat.pos_of_ne_zero hleft⟩)
          rw [h.pointer]
      · refine .inl ?_
        change (session.network.layer ip).knows name = true at hk
        rw [hsame] at hk
        exact hk
    · rintro (⟨errors, hok⟩ | ⟨⟨needed', capacity, heq⟩, hleft⟩)
      · cases hok
      · have hname : m.network.name l = "ip" := (Fault.exhausted.inj (Except.error.inj heq)).1
        rcases hhalfway.layer with ⟨rfl, hexhausts⟩ | ⟨hmem, -⟩
        · exact hexhausts.first hleft name rfl
        · exact (h.operands l hmem hname).elim

/-- The programs are as before, or one more. -/
theorem Comes.programs (hcomes : Comes c m name outcome later) :
    later = m ∨ (Session.isProgramName name = true ∧ later.session.programs = (m.session.enrolled name).programs) := by
  cases hcomes with
  | refused => exact .inl rfl
  | added hname _ _ _ hconfined => exact .inr ⟨hname, hconfined.programs⟩
  | failed hname _ _ hconfined => exact .inr ⟨hname, hconfined.programs⟩

/-- Only a call under a valid name enters a program, and without orthogonal patterns it has to succeed. -/
theorem Comes.of_enters (hcomes : Comes c m name outcome later) (henters : Attempt.Enters ⟨name, m, outcome⟩) :
    Session.isProgramName name = true ∧ (c.orthogonal = true ∨ ∃ errors, outcome = .ok errors) := by
  cases hcomes with
  | refused he =>
    rcases henters with ⟨errors, hok⟩ | ⟨⟨needed, capacity, heq⟩, -⟩
    · cases hok
    · exact (he _ _ _ (Except.error.inj heq)).elim
  | added hname => exact ⟨hname, .inr ⟨_, rfl⟩⟩
  | failed hname horthogonal => exact ⟨hname, .inl horthogonal⟩

/-! ## All calls -/

/-- What is known of a machine after calls that added programs: the instruction pointer knows the
names of the programs that were entered, and of no others. -/
structure Ledger (c : Config α) (attempts : List (Attempt α)) (m : Machine α) : Prop where
  ready : m.Ready c
  names : ∀ x ∈ m.session.programs, Session.isProgramName x = true
  enrolled : ∀ x, Session.isProgramName x = true → (m.network.layer ip).knows x = true → x ∈ m.session.programs
  knows : ∀ x, Session.isProgramName x = true →
    ((m.network.layer ip).knows x = true ↔ ∃ a ∈ attempts, a.name = x ∧ a.Enters)
  enters : ∀ a ∈ attempts, a.Enters →
    Session.isProgramName a.name = true ∧ (c.orthogonal = true ∨ ∃ errors, a.outcome = .ok errors)

theorem ledger_of_build (hbuild : (build c).value = .ok m₀) : Ledger c [] m₀ := by
  obtain ⟨bare, n, s, hbuilt⟩ := builtFrom_of_build hbuild
  obtain ⟨hready, hprograms, hknows⟩ := hbuilt.ready (config_of_build hbuild)
  refine ⟨hready, fun x hx => ?_, fun x _ hx => ?_, fun x _ => ?_, fun a ha => (List.not_mem_nil ha).elim⟩
  · rw [hprograms] at hx
    exact (List.not_mem_nil hx).elim
  · rw [hknows] at hx
    exact (Bool.false_ne_true hx).elim
  · rw [hknows]
    exact iff_of_false Bool.false_ne_true fun ⟨a, ha, _⟩ => List.not_mem_nil ha

theorem Ledger.more {attempts : List (Attempt α)} (h : Ledger c attempts m) (hcomes : Comes c m name outcome later) :
    Ledger c (attempts ++ [⟨name, m, outcome⟩]) later := by
  have hprograms : ∀ x, x ∈ m.session.programs → x ∈ later.session.programs := by
    intro x hx
    rcases hcomes.programs with rfl | ⟨-, hlater⟩
    · exact hx
    · rw [hlater]
      exact Session.mem_enrolled.mpr (.inl hx)
  refine ⟨h.ready.of_comes hcomes, fun x hx => ?_, fun x hx hk => ?_, fun x hx => ?_, fun a ha henters => ?_⟩
  · rcases hcomes.programs with rfl | ⟨hname, hlater⟩
    · exact h.names x hx
    · rw [hlater] at hx
      rcases Session.mem_enrolled.mp hx with hx | rfl
      · exact h.names x hx
      · exact hname
  · by_cases hne : x = name
    · subst hne
      rcases hcomes.programs with rfl | ⟨-, hlater⟩
      · exact h.enrolled x hx hk
      · rw [hlater]
        exact Session.mem_enrolled.mpr (.inr rfl)
    · exact hprograms x (h.enrolled x hx ((hcomes.knows_of_ne hx hne).mp hk))
  · have hbefore := h.knows x hx
    by_cases hne : x = name
    · subst hne
      rw [hcomes.knows h.ready, hbefore]
      constructor
      · rintro (⟨a, ha, hname, henters⟩ | henters)
        · exact ⟨a, List.mem_append_left _ ha, hname, henters⟩
        · exact ⟨_, List.mem_append_right _ List.mem_cons_self, rfl, henters⟩
      · rintro ⟨a, ha, hname, henters⟩
        rcases List.mem_append.mp ha with ha | ha
        · exact .inl ⟨a, ha, hname, henters⟩
        · rw [List.mem_singleton.mp ha] at henters
          exact .inr henters
    · rw [hcomes.knows_of_ne hx hne, hbefore]
      constructor
      · rintro ⟨a, ha, hname⟩
        exact ⟨a, List.mem_append_left _ ha, hname⟩
      · rintro ⟨a, ha, hname, henters⟩
        rcases List.mem_append.mp ha with ha | ha
        · exact ⟨a, ha, hname, henters⟩
        · rw [List.mem_singleton.mp ha] at hname
          exact (hne hname.symm).elim
  · rcases List.mem_append.mp ha with ha | ha
    · exact h.enters a ha henters
    · rw [List.mem_singleton.mp ha] at henters ⊢
      exact hcomes.of_enters henters

theorem ledger_of_attempts (hbuild : (build c).value = .ok m₀) {attempts : List (Attempt α)}
    (h : Attempts m₀ attempts m) : Ledger c attempts m := by
  induction h with
  | none => exact ledger_of_build hbuild
  | more _ hadds ih => exact ih.more (comes_of_adds ih.ready hadds)

theorem Ledger.load_ok_iff {attempts : List (Attempt α)} (h : Ledger c attempts m) (x : String) :
    (m.load x []).value.1 = .ok () ↔ ∃ a ∈ attempts, a.name = x ∧ a.Enters := by
  rw [Machine.load_ok_iff]
  constructor
  · rintro ⟨hx, hk⟩
    exact (h.knows x (h.names x hx)).mp hk
  · rintro ⟨a, ha, rfl, henters⟩
    have hname := (h.enters a ha henters).1
    have hk := (h.knows a.name hname).mpr ⟨a, ha, rfl, henters⟩
    exact ⟨h.enrolled a.name hname hk, hk⟩

/-- A call that fails leaves the entries of the programs that it does not enter. -/
theorem Ledger.entry?_eq {attempts : List (Attempt α)} (h : Ledger c attempts m) {e : Fault α}
    (hcomes : Comes c m name (.error e) later) {x : String} (hx : x = name → ¬ Attempt.Enters ⟨name, m, .error e⟩) :
    later.entry? x = m.entry? x := by
  have hlater := h.more hcomes
  have hgrows : m.network.Grows later.network := by
    cases hcomes with
    | refused => exact .refl _
    | failed _ _ hhalfway _ => exact hhalfway.grows
  cases hentry : m.entry? x with
  | some p =>
    -- what loaded before is enrolled and keeps its pattern
    obtain ⟨hmem, hk⟩ := (m.isSome_entry? x).mp (by rw [hentry]; rfl)
    have hpattern : (m.network.layer ip).pattern? x = some p := by
      unfold entry? at hentry
      rw [if_pos (List.contains_iff_mem.mpr hmem)] at hentry
      exact hentry
    have hname := h.names x hmem
    unfold entry?
    rw [if_pos (List.contains_iff_mem.mpr (hlater.enrolled x hname (hgrows.knows trivial hk)))]
    exact hgrows.pattern _ _ p trivial hpattern
  | none =>
    rw [← Option.not_isSome_iff_eq_none, isSome_entry?]
    rintro ⟨hmem, hk⟩
    have hname := hlater.names x hmem
    have hbefore : (m.network.layer ip).knows x = true := by
      by_cases hne : x = name
      · subst hne
        exact ((hcomes.knows h.ready).mp hk).resolve_right (hx rfl)
      · exact (hcomes.knows_of_ne hname hne).mp hk
    have hsome := (m.isSome_entry? x).mpr ⟨h.enrolled x hname hbefore, hbefore⟩
    rw [hentry] at hsome
    cases hsome

/-- After any calls, a program loads if one of them entered it; that is, when no orthogonal patterns
are used, if one of them succeeded. A call that fails leaves the weights, and what loading any
program comes to that it has not entered; and unless it fails for want of orthogonal patterns it
leaves the machine as it was. -/
theorem loads_after_attempts (hbuild : (build c).value = .ok m₀) {attempts : List (Attempt α)}
    (h : Attempts m₀ attempts m) :
    (∀ x, (m.load x []).value.1 = .ok () ↔ ∃ a ∈ attempts, a.name = x ∧ a.Enters) ∧
    (c.orthogonal = false → ∀ x, (m.load x []).value.1 = .ok () ↔
      ∃ a ∈ attempts, a.name = x ∧ ∃ errors, a.outcome = .ok errors) ∧
    ∀ name e later, m.Adds name (.error e) later →
      later.weights = m.weights ∧
      (∀ x, (x = name → ¬ Attempt.Enters ⟨name, m, .error e⟩) → later.entry? x = m.entry? x ∧
        ∀ registers, (later.load x registers).value.1 = (m.load x registers).value.1) ∧
      (later = m ∨ c.orthogonal = true ∧ (∃ layer needed, e = .exhausted layer needed c.layerSize) ∧
        later = { m with session := later.session } ∧ later.session.programs = (m.session.enrolled name).programs) := by
  have hledger := ledger_of_attempts hbuild h
  refine ⟨hledger.load_ok_iff, fun horthogonal x => ?_, fun name e later hadds => ?_⟩
  · rw [hledger.load_ok_iff]
    constructor
    · rintro ⟨a, ha, hname, henters⟩
      rcases (hledger.enters a ha henters).2 with htrue | hok
      · rw [horthogonal] at htrue
        cases htrue
      · exact ⟨a, ha, hname, hok⟩
    · rintro ⟨a, ha, hname, hok⟩
      exact ⟨a, ha, hname, .inl hok⟩
  · have hcomes := comes_of_adds hledger.ready hadds
    have hnames : later.network.layers.map (·.name) = m.network.layers.map (·.name) ∧
        later.network.registers = m.network.registers := by
      cases hcomes with
      | refused => exact ⟨rfl, rfl⟩
      | failed _ _ _ hconfined => exact ⟨hconfined.names, hconfined.keeps.registers⟩
    refine ⟨?_, fun x hx => ?_, ?_⟩
    · cases hcomes with
      | refused => rfl
      | failed => rfl
    · have hentry := hledger.entry?_eq hcomes hx
      refine ⟨hentry, fun registers => ?_⟩
      rw [fst_load, fst_load, hentry, Network.checkRegisters_congr hnames.1 hnames.2]
    · cases hcomes with
      | refused => exact .inl rfl
      | @failed l needed lines session _ horthogonal hhalfway hconfined =>
        have hl : l ∈ ip :: Session.operandLayers m.network.registers := by
          rcases hhalfway.layer with ⟨rfl, -⟩ | ⟨hl, -⟩
          · exact List.mem_cons_self
          · exact List.mem_cons_of_mem _ hl
        exact .inr ⟨horthogonal, ⟨_, _, by rw [hledger.ready.size l hl]⟩, rfl, hconfined.programs⟩

/-! ## A program of too many lines -/

/-- The session of the small machine. -/
def smallSession : Session Fixed :=
  .new ((recordInstructions smallSlots.namedRegisters).run.run (Sequencer.new smallSlots)).2.network.plasticity.2

theorem session_of_build {m : Machine Fixed} (h : (build smallConfig).value = .ok m) : m.session = smallSession := by
  obtain ⟨bare, n, s, hbuilt⟩ := builtFrom_of_build h
  have hbare : bare = smallNetwork := Except.ok.inj (hbuilt.network.symm.trans build_smallConfig)
  have hn : n = smallSlots := by rw [hbuilt.slots, hbare]; rfl
  have hrecords := hbuilt.records
  rw [hbuilt.session, smallSession]
  rw [hn] at hrecords
  rw [hrecords]

/-- Eight lines, which with their entry are more tokens than a small layer has patterns. -/
def eightLines : Program := ⟨(List.range 8).map fun l => ⟨.nop, nullToken, nullToken, l + 1⟩, []⟩

def eightLinesText : String := "nop\nnop\nnop\nnop\nnop\nnop\nnop\nnop"

theorem parse_eightLines : Program.parse ["r0"] eightLinesText = .ok eightLines := by decide +kernel

/-- The tokens in its fields, without sorting the operands. -/
def eightFields : Field → List String
  | .opcode => eightLines.fieldTokens .opcode
  | .first => [nullToken]
  | .second => [nullToken]

theorem fieldTokens_eightLines : eightLines.fieldTokens = eightFields := by
  have hsorted : Text.sortedSet (List.replicate 8 nullToken) = [nullToken] := by
    rw [Text.sortedSet, List.mergeSort_of_pairwise (by decide)]
    decide
  funext f
  cases f with
  | opcode => rfl
  | first => exact hsorted
  | second => exact hsorted

/-- The tokens of a program are given patterns on one layer after the other. -/
def giveTokens (registers : List LayerId) (literals : List String) (fields : Field → List String) (pointers : List String) :
    Assembling Fixed (Columns Fixed) := do
  (ci :: registers).forM fun layer => do
    let _ ← Session.encode layer true literals
  [(Field.first, op1), (.second, op2)].forM fun (f, layer) => do
    let _ ← Session.encode layer true (fields f)
  Session.encode ip true pointers

theorem fails_of_giveTokens {program : Program} {name : String} {s later : Session Fixed} {e : Fault Fixed}
    (h : Session.Fails (giveTokens s.network.registers (program.literals s.network.registerNames) program.fieldTokens
      (Session.pointerTokens name program.size)) s e later) : Session.Fails (Session.learnProgram program name true) s e later := by
  have hget : Session.Does get s s s := rfl
  rcases Session.of_fails_bind h with h | ⟨_, s₁, hdoes₁, h⟩
  · exact Session.fails_of_bind hget h.bind
  rcases Session.of_fails_bind h with h | ⟨_, s₂, hdoes₂, h⟩
  · exact Session.fails_of_bind hget (Session.fails_of_bind hdoes₁ h.bind)
  · exact Session.fails_of_bind hget (Session.fails_of_bind hdoes₁ (Session.fails_of_bind hdoes₂ h.bind))

theorem fails_of_learnProgram (program : Program) {name : String} (hname : Session.isProgramName name = true)
    (hempty : program.isEmpty = false) {s later : Session α} {e : Fault α} {orthogonal : Bool} (verbose : Bool)
    (h : Session.Fails (Session.learnProgram (program.withScope name) name orthogonal) (s.enrolled name) e later) :
    Session.Fails (Session.assemble program name orthogonal verbose) s e later := by
  unfold Session.assemble
  rw [if_pos hname, hempty, if_neg Bool.false_ne_true]
  exact Session.fails_of_bind (Session.does_enrol_enrolled s name) h.bind

/-- Whether the program of eight lines fails on the instruction pointer, which has patterns left. -/
def overfills (s : Session Fixed) : Bool :=
  match ((giveTokens s.network.registers [] eightFields (Session.pointerTokens "p" 8)).run.run
    (s.enrolled "p")).value.1 with
  | .error (.exhausted layer _ _) =>
    layer == "ip" && s.network.registerNames == ["r0"] && decide (0 < (s.network.layer ip).book.left)
  | _ => false

/-- A program of one line. -/
def oneLine : Program := ⟨[⟨.nop, nullToken, nullToken, 1⟩], []⟩

theorem parse_oneLine : Program.parse ["r0"] "nop" = .ok oneLine := by decide +kernel

def addsThenOverfills (s : Session Fixed) : Bool :=
  match ((Session.assemble oneLine "a" true false).run.run s).value with
  | (.ok _, t) => s.network.registerNames == ["r0"] && overfills t
  | (.error _, _) => false

/-- No weights have to be written for it. -/
theorem addsThenOverfills_eq (s : Session Fixed) : addsThenOverfills s =
    (s.learned? oneLine "a" true).any fun t => s.network.registerNames == ["r0"] && overfills t := by
  unfold addsThenOverfills
  rcases s.assemble_learned? (by decide : Session.isProgramName "a" = true) (rfl : oneLine.isEmpty = false) true false with
    ⟨hnone, e, t, hadds⟩ | ⟨a, t, hsome, hadds⟩
  · rw [hnone, show _ = _ from hadds]
    rfl
  · rw [hsome, show _ = _ from hadds]
    rfl

theorem overfills_smallSession : (overfills smallSession && addsThenOverfills smallSession) = true := by
  rw [addsThenOverfills_eq]
  decide +kernel

/-- The program of eight lines fails, and is entered. -/
theorem enters_of_overfills {m : Machine Fixed} (hconfig : m.config = smallConfig) (h : overfills m.session = true) :
    ∃ needed capacity later, (m.assemble eightLinesText "p").value = (.error (.exhausted "ip" needed capacity), later) ∧
      Attempt.Enters ⟨"p", m, .error (.exhausted "ip" needed capacity)⟩ := by
  have horthogonal : m.config.orthogonal = true := by rw [hconfig]; rfl
  unfold overfills at h
  split at h
  swap
  · cases h
  next layer needed capacity hfst =>
  simp only [Bool.and_eq_true, beq_iff_eq, decide_eq_true_eq] at h
  obtain ⟨⟨rfl, hnames⟩, hleft⟩ := h
  generalize hlater : ((giveTokens m.session.network.registers [] eightFields (Session.pointerTokens "p" 8)).run.run
    (m.session.enrolled "p")).value.2 = later
  have hliterals : eightLines.literals m.session.network.registerNames = [] := by rw [hnames]; decide +kernel
  have hgive : Session.Fails (giveTokens (m.session.enrolled "p").network.registers
      (eightLines.literals (m.session.enrolled "p").network.registerNames) eightLines.fieldTokens
      (Session.pointerTokens "p" eightLines.size)) (m.session.enrolled "p") (.exhausted "ip" needed capacity) later := by
    rw [show (m.session.enrolled "p").network.registerNames = m.session.network.registerNames from rfl, hliterals,
      fieldTokens_eightLines]
    exact Prod.ext hfst hlater
  have hscope : eightLines.withScope "p" = eightLines := by decide
  have hassemble := fails_of_learnProgram eightLines (by decide : Session.isProgramName "p" = true) rfl false
    (hscope.symm ▸ fails_of_giveTokens hgive)
  refine ⟨needed, capacity, { m with session := later }, ?_, .inr ⟨⟨needed, capacity, rfl⟩, hleft⟩⟩
  unfold assemble
  rw [show m.network.registerNames = ["r0"] from hnames, parse_eightLines]
  dsimp only
  unfold assembleProgram
  rw [Noted.value_bind, horthogonal, hassemble]
  rfl

theorem exists_adds {m : Machine Fixed} (hconfig : m.config = smallConfig) (h : addsThenOverfills m.session = true) :
    ∃ errors later, (m.assemble "nop" "a").value = (.ok errors, later) ∧ later.config = smallConfig ∧
      overfills later.session = true := by
  have horthogonal : m.config.orthogonal = true := by rw [hconfig]; rfl
  unfold addsThenOverfills at h
  rcases hrun : ((Session.assemble oneLine "a" true false).run.run m.session).value with ⟨e | a, t⟩
  · rw [hrun] at h
    cases h
  rw [hrun] at h
  simp only [Bool.and_eq_true, beq_iff_eq] at h
  obtain ⟨hnames, h⟩ := h
  refine ⟨a.errors, { m with session := t, weights := m.weights.extend a.weights }, ?_, hconfig, h⟩
  unfold assemble
  rw [show m.network.registerNames = ["r0"] from hnames, parse_oneLine]
  dsimp only
  unfold assembleProgram
  rw [Noted.value_bind, horthogonal, hrun]
  rfl

/-- A program that was added loads, so does one that was entered but not added, and no other. -/
theorem two_programs_load : ∃ m₀ : Machine Fixed, (build smallConfig).value = .ok m₀ ∧
    ∃ errors m, (m₀.assemble "nop" "a").value = (.ok errors, m) ∧
      ∃ e later, (m.assemble eightLinesText "p").value = (.error e, later) ∧
        (later.load "a" []).value.1 = .ok () ∧ (later.load "p" []).value.1 = .ok () ∧ (later.load "b" []).value.1 ≠ .ok () := by
  obtain ⟨m₀, hbuild⟩ := exists_small
  have hsession := overfills_smallSession
  rw [← session_of_build hbuild, Bool.and_eq_true] at hsession
  obtain ⟨errors, m, hadds, hconfig, hoverfills⟩ := exists_adds (config_of_build hbuild) hsession.2
  obtain ⟨needed, capacity, later, hfails, henters⟩ := enters_of_overfills hconfig hoverfills
  have hattempts := (Attempts.none.more (.inl ⟨_, hadds⟩)).more (.inl ⟨_, hfails⟩)
  obtain ⟨hloads, -, -⟩ := loads_after_attempts hbuild hattempts
  refine ⟨m₀, hbuild, errors, m, hadds, _, later, hfails, (hloads "a").mpr ?_, (hloads "p").mpr ?_, fun h => ?_⟩
  · exact ⟨⟨"a", m₀, .ok errors⟩, by simp, rfl, .inl ⟨errors, rfl⟩⟩
  · exact ⟨⟨"p", m, .error (.exhausted "ip" needed capacity)⟩, by simp, rfl, henters⟩
  · obtain ⟨a, ha, hname, -⟩ := (hloads "b").mp h
    rw [List.nil_append, List.mem_append, List.mem_singleton, List.mem_singleton] at ha
    rcases ha with rfl | rfl
    · exact absurd hname (by decide : "a" ≠ "b")
    · exact absurd hname (by decide : "p" ≠ "b")

/-- A program that could not be added to the small machine is listed by it, and loads. -/
theorem failed_program_loads : ∃ m₀ : Machine Fixed, (build smallConfig).value = .ok m₀ ∧ m₀.session.programs = [] ∧
    (m₀.load "p" []).value.1 = .error (.unknownProgram "p") ∧
    ∃ needed capacity later, (m₀.assemble eightLinesText "p").value = (.error (.exhausted "ip" needed capacity), later) ∧
      later.session.programs = ["p"] ∧ (later.load "p" []).value.1 = .ok () := by
  obtain ⟨m₀, hbuild⟩ := exists_small
  have hsession := overfills_smallSession
  rw [← session_of_build hbuild, Bool.and_eq_true] at hsession
  have hprograms : m₀.session.programs = [] := by rw [session_of_build hbuild]; rfl
  obtain ⟨needed, capacity, later, hfails, henters⟩ := enters_of_overfills (config_of_build hbuild) hsession.1
  have hledger := ledger_of_build hbuild
  have hcomes := comes_of_adds hledger.ready (.inl ⟨_, hfails⟩)
  have hload := ((hledger.more hcomes).load_ok_iff "p").mpr ⟨_, by simp, rfl, henters⟩
  have hunknown : (m₀.load "p" []).value.1 = .error (.unknownProgram "p") := by
    have hentry : m₀.entry? "p" = none := by
      unfold entry?
      rw [hprograms]
      rfl
    rw [fst_load, hentry]
    rfl
  refine ⟨m₀, hbuild, hprograms, hunknown, needed, capacity, later, hfails, ?_, hload⟩
  rcases hcomes.programs with rfl | ⟨-, hlater⟩
  · rw [hunknown] at hload
    cases hload
  · rw [hlater, Session.enrolled, hprograms]
    rfl

end Machine

end Engram
