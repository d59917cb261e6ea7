/-
  Engram.Proofs.Machine.Operations — calls on a machine, and what each of them reaches.

  Programs are added and loaded; in between a machine is moved, by ticks, instructions and runs, or
  by setting an activity. Instructions and runs are nothing but ticks (`exists_ticked_step`,
  `exists_ticked_run`). A tick writes pathways that are plastic and whose learn gate is open, and no
  others (`getElem?_learned`). Loading overwrites every activity, then lets layers hold tokens, and
  at last takes every plastic pathway back to its baseline; when it fails it has not come to the
  weights (`load_of_error`, `load_of_ok`).
-/

import Engram.Machine.Run
import Engram.Proofs.Machine.Later

namespace Engram

open LayerId

/-- What moves a machine without adding or loading a program. -/
inductive Motion (α : Type) where
  | tick
  | step (maxTicks : Nat)
  | run (maxSteps : Nat)
  | setActivity (layer : String) (p : Pattern α)

/-- A call on a machine. -/
inductive Operation (α : Type) where
  | assemble (source name : String)
  | load (program : String) (registers : List (String × String))
  | move (motion : Motion α)

/-- What a call answers. -/
inductive Answer (α : Type) where
  | assembled (r : Except (Fault α) Nat)
  | done (r : Except (Fault α) Unit)
  | stepped (outcome : StepOutcome)
  | ran (outcome : RunOutcome)

variable {α : Type} [Scalar α]

namespace Machine

/-- Moves a machine. What is refused leaves it as it is. -/
def move (m : Machine α) : Motion α → Answer α × Machine α
  | .tick => (.done (.ok ()), m.tick.value)
  | .step maxTicks => (m.step maxTicks).value.map .stepped id
  | .run maxSteps => (m.run maxSteps).value.map .ran id
  | .setActivity layer p =>
    match m.setActivity layer p with
    | .ok later => (.done (.ok ()), later)
    | .error e => (.done (.error e), m)

/-- Makes a call. -/
def perform (m : Machine α) : Operation α → Answer α × Machine α
  | .assemble source name => (m.assemble source name).value.map .assembled id
  | .load program registers => (m.load program registers).value.map .done id
  | .move motion => m.move motion

/-- Makes calls one after the other, whether they succeed or fail. -/
def performAll (m : Machine α) : List (Operation α) → List (Answer α) × Machine α
  | [] => ([], m)
  | o :: rest => ((m.perform o).1 :: ((m.perform o).2.performAll rest).1, ((m.perform o).2.performAll rest).2)

/-- Moves a machine several times. -/
def moveAll (m : Machine α) (motions : List (Motion α)) : Machine α := motions.foldl (fun m o => (m.move o).2) m

/-- The machine after so many ticks. -/
def ticked (m : Machine α) : Nat → Machine α
  | 0 => m
  | k + 1 => m.tick.value.ticked k

/-! ## Instructions and runs are ticks -/

variable {m later : Machine α} {p : Pathway}

theorem ticked_add (m : Machine α) (j k : Nat) : m.ticked (j + k) = (m.ticked j).ticked k := by
  induction j generalizing m with
  | zero => rw [Nat.zero_add]; rfl
  | succ j ih => rw [Nat.succ_add]; exact ih m.tick.value

theorem ticked_succ (m : Machine α) (k : Nat) : m.ticked (k + 1) = (m.ticked k).tick.value := m.ticked_add k 1

theorem exists_ticked_stepFrom (m : Machine α) (done budget : Nat) :
    ∃ k ≤ budget, (m.stepFrom done budget).value.2 = m.ticked k := by
  induction budget generalizing m done with
  | zero => exact ⟨0, Nat.le_refl 0, rfl⟩
  | succ budget ih =>
    unfold stepFrom
    rw [Noted.value_bind]
    split
    · exact ⟨1, by omega, rfl⟩
    · split
      · exact ⟨1, by omega, rfl⟩
      · obtain ⟨k, hk, heq⟩ := ih m.tick.value (done + 1)
        exact ⟨k + 1, by omega, heq⟩

theorem exists_ticked_step (m : Machine α) (maxTicks : Nat) : ∃ k ≤ maxTicks, (m.step maxTicks).value.2 = m.ticked k :=
  m.exists_ticked_stepFrom 0 maxTicks

theorem exists_ticked_runFrom (m : Machine α) (done budget : Nat) : ∃ k, (m.runFrom done budget).value.2 = m.ticked k := by
  induction budget generalizing m done with
  | zero => exact ⟨0, rfl⟩
  | succ budget ih =>
    obtain ⟨k, -, hstep⟩ := m.exists_ticked_step m.config.maxTicks
    unfold runFrom
    rw [Noted.value_bind]
    rcases hrun : (m.step m.config.maxTicks).value with ⟨outcome, m'⟩
    rw [hrun] at hstep
    cases outcome with
    | exited ticks => exact ⟨k, hstep⟩
    | stalled ticks => exact ⟨k, hstep⟩
    | completed ticks =>
      obtain ⟨j, hj⟩ := ih m' (done + 1)
      refine ⟨k + j, hj.trans ?_⟩
      rw [ticked_add, ← hstep]

theorem exists_ticked_run (m : Machine α) (maxSteps : Nat) : ∃ k, (m.run maxSteps).value.2 = m.ticked k := by
  unfold run
  split
  · exact ⟨0, rfl⟩
  · exact m.exists_ticked_runFrom 0 maxSteps

/-- What a tick keeps, any number of ticks keeps. -/
theorem ticked_induction {P : Machine α → Prop} (htick : ∀ m, P m → P m.tick.value) (h : P m) (k : Nat) : P (m.ticked k) := by
  induction k generalizing m with
  | zero => exact h
  | succ k ih => exact ih (htick m h)

theorem session_ticked (m : Machine α) (k : Nat) : (m.ticked k).session = m.session :=
  ticked_induction (P := fun later => later.session = m.session) (fun _ h => h) rfl k

/-- Setting the activity of a layer that is there asks for a pattern of its size. -/
theorem setActivity_of_id {layer : String} {l : LayerId} (h : m.network.id layer = .ok l) (p : Pattern α) : m.setActivity layer p =
    if p.size = m.network.size l then .ok (m.setActive l p) else .error (.shapeMismatch [m.network.size l] [p.size]) := by
  unfold setActivity
  rw [h]
  rfl

theorem setActivity_of_error {layer : String} {e : Fault α} (h : m.network.id layer = .error e) (p : Pattern α) :
    m.setActivity layer p = .error e := by
  unfold setActivity
  rw [h]
  rfl

/-- Setting an activity succeeds for a layer that is there and a pattern of its size. -/
theorem setActivity_cases (m : Machine α) (layer : String) (p : Pattern α) :
    (∃ l, p.size = m.network.size l ∧ m.setActivity layer p = .ok (m.setActive l p)) ∨
      ∃ e, m.setActivity layer p = .error e := by
  cases hid : m.network.id layer with
  | error e => exact .inr ⟨e, setActivity_of_error hid p⟩
  | ok l =>
    by_cases hsize : p.size = m.network.size l
    · exact .inl ⟨l, hsize, by rw [setActivity_of_id hid, if_pos hsize]⟩
    · exact .inr ⟨_, by rw [setActivity_of_id hid, if_neg hsize]⟩

/-- What ticks and setting activities keep, every motion keeps. -/
theorem move_induction {P : Machine α → Prop} (htick : ∀ m, P m → P m.tick.value)
    (hset : ∀ m l p, P m → p.size = m.network.size l → P (m.setActive l p)) (h : P m) (o : Motion α) : P (m.move o).2 := by
  cases o with
  | tick => exact htick m h
  | step maxTicks =>
    obtain ⟨k, -, heq⟩ := m.exists_ticked_step maxTicks
    show P (m.step maxTicks).value.2
    rw [heq]
    exact ticked_induction htick h k
  | run maxSteps =>
    obtain ⟨k, heq⟩ := m.exists_ticked_run maxSteps
    show P (m.run maxSteps).value.2
    rw [heq]
    exact ticked_induction htick h k
  | setActivity layer p =>
    unfold move
    dsimp only
    rcases m.setActivity_cases layer p with ⟨l, hsize, heq⟩ | ⟨e, heq⟩
    · rw [heq]
      exact hset m l p h hsize
    · rw [heq]
      exact h

theorem moveAll_induction {P : Machine α → Prop} (hmove : ∀ m o, P m → P (m.move o).2) (h : P m) (motions : List (Motion α)) :
    P (m.moveAll motions) := by
  induction motions generalizing m with
  | nil => exact h
  | cons o rest ih => exact ih (hmove m o h)

/-- What every call keeps, all calls keep. -/
theorem performAll_induction {P : Machine α → Prop} (hperform : ∀ m o, P m → P (m.perform o).2) (h : P m)
    (operations : List (Operation α)) : P (m.performAll operations).2 := by
  induction operations generalizing m with
  | nil => exact h
  | cons o rest ih => exact ih (hperform m o h)

/-! ## Learning -/

/-- What writing each plastic pathway with an open learn gate keeps, the learning of a tick keeps. -/
theorem learned_induction {P : Weights α → Prop} (m : Machine α) (open' : List Gate)
    (hwrite : ∀ w q, q ∈ m.network.plastic → Gate.learn q.target q.source ∈ open' → P w → P (m.learnPathway w q).value)
    (h : P m.weights) : P (m.learned open').value := by
  unfold learned
  rw [Noted.value_foldlM]
  have hpathways : ∀ q ∈ m.network.plastic.filter (fun q => open'.contains (.learn q.target q.source)),
      q ∈ m.network.plastic ∧ Gate.learn q.target q.source ∈ open' := by
    intro q hq
    rw [List.mem_filter] at hq
    exact ⟨hq.1, List.contains_iff_mem.mp hq.2⟩
  generalize m.network.plastic.filter _ = l at hpathways ⊢
  generalize m.weights = w at h ⊢
  induction l generalizing w with
  | nil => exact h
  | cons q rest ih =>
    obtain ⟨hplastic, hopen⟩ := hpathways q List.mem_cons_self
    exact ih (fun x hx => hpathways x (List.mem_cons_of_mem _ hx)) _ (hwrite w q hplastic hopen h)

/-- Writing a pathway is an insertion at the pathway, if it has a rule. -/
theorem learnPathway_cases (m : Machine α) (w : Weights α) (q : Pathway) : (m.learnPathway w q).value = w ∨
    ∃ r c, m.plasticity[q]? = some r ∧ w[q]? = some c ∧ (m.learnPathway w q).value = w.insert q
      (r.write m.network.rule c (m.active q.source) (m.active q.target) (m.network.activator q.source)
        (m.network.activator q.target)).connection := by
  unfold learnPathway
  split
  next r c hr hc =>
    right
    refine ⟨r, c, hr, hc, ?_⟩
    rw [Noted.value_bind]
    rfl
  next => exact .inl rfl

theorem getElem?_learnPathway_of_ne (m : Machine α) (w : Weights α) {q : Pathway} (h : q ≠ p) :
    (m.learnPathway w q).value[p]? = w[p]? := by
  rcases m.learnPathway_cases w q with heq | ⟨r, c, -, -, heq⟩
  · rw [heq]
  · rw [heq, Std.TreeMap.getElem?_insert, if_neg fun hc => h (Std.LawfulEqCmp.eq_of_compare hc)]

/-- A tick writes plastic pathways with an open learn gate only. -/
theorem getElem?_learned (m : Machine α) {open' : List Gate}
    (h : ¬ (p ∈ m.network.plastic ∧ Gate.learn p.target p.source ∈ open')) : (m.learned open').value[p]? = m.weights[p]? := by
  refine m.learned_induction (P := fun w => w[p]? = m.weights[p]?) open' (fun w q hplastic hopen hw => ?_) rfl
  have hne : q ≠ p := fun heq => h (heq ▸ ⟨hplastic, hopen⟩)
  rw [m.getElem?_learnPathway_of_ne w hne, hw]

/-- Nor does it write a pathway without a rule. -/
theorem getElem?_learned_of_none (m : Machine α) (open' : List Gate) (h : m.plasticity[p]? = none) :
    (m.learned open').value[p]? = m.weights[p]? := by
  refine m.learned_induction (P := fun w => w[p]? = m.weights[p]?) open' (fun w q _ _ hw => ?_) rfl
  by_cases heq : q = p
  · rcases m.learnPathway_cases w q with hsame | ⟨r, c, hr, -, -⟩
    · rw [hsame, hw]
    · rw [heq, h] at hr
      cases hr
  · rw [m.getElem?_learnPathway_of_ne w heq, hw]

/-! ## Loading -/

/-- The machine with another network and other activities. -/
def withNetwork (m : Machine α) (network : Network α) (activity : Array (Pattern α)) : Machine α :=
  { m with session := { m.session with network }, activity }

/-- A machine with other activities, in which more tokens have patterns. -/
structure Rests (m later : Machine α) : Prop where
  rest : later = m.withNetwork later.network later.activity
  network : m.network.Grows later.network

theorem Rests.trans {other : Machine α} (h : Rests m later) (h' : Rests later other) : Rests m other :=
  ⟨h'.rest.trans (congrArg (·.withNetwork other.network other.activity) h.rest), h.network.trans h'.network⟩

theorem Rests.weights (h : Rests m later) : later.weights = m.weights := by rw [h.rest]; rfl

theorem Rests.plasticity (h : Rests m later) : later.plasticity = m.plasticity := by rw [h.rest]; rfl

theorem Rests.ticks (h : Rests m later) : later.ticks = m.ticks := by rw [h.rest]; rfl

theorem rests_activity (m : Machine α) (activity : Array (Pattern α)) : Rests m { m with activity } := ⟨rfl, .refl _⟩

theorem rests_hold (m : Machine α) (l : LayerId) (token : String) : Rests m (m.hold l token) :=
  ⟨rfl, m.network.grows_encode l token⟩

theorem rests_holdAll (m : Machine α) (layers : List LayerId) (token : String) :
    Rests m (layers.foldl (fun m l => m.hold l token) m) := by
  induction layers generalizing m with
  | nil => exact m.rests_activity m.activity
  | cons l rest ih => exact (m.rests_hold l token).trans (ih _)

/-- A machine is rewound over the activities that it rests at, whatever it did before. -/
theorem exists_rewind (m : Machine α) (entry : Pattern α) : ∃ activity : Array (Pattern α), ∀ weights ticks, ∀ before : Array (Pattern α),
    { m with weights, activity := before, ticks }.rewind entry =
      Pointer.layers.foldl (fun m l => m.hold l (Pointer.slotToken 0)) ({ m with weights, activity, ticks }.hold co falseToken) :=
  ⟨((((blank m.network).setIfInBounds gh.position m.automaton.start.hidden).setIfInBounds go.position
    m.automaton.start.gates).setIfInBounds ip.position entry), fun _ _ _ => rfl⟩

theorem rests_rewind (m : Machine α) (entry : Pattern α) : Rests m (m.rewind entry) := by
  obtain ⟨activity, heq⟩ := m.exists_rewind entry
  rw [show m.rewind entry = _ from heq m.weights m.ticks m.activity]
  exact ((m.rests_activity activity).trans (rests_hold _ co falseToken)).trans (rests_holdAll _ _ _)

theorem rests_holdRegisters (m : Machine α) (registers : List (String × String)) : Rests m (m.holdRegisters registers).2 := by
  have hself : Rests m m := m.rests_activity m.activity
  induction registers generalizing m with
  | nil => exact hself
  | cons r rest ih =>
    unfold holdRegisters
    split
    · split
      · exact (m.rests_hold _ r.2).trans (ih _ ((m.hold _ r.2).rests_activity (m.hold _ r.2).activity))
      · exact hself
    · exact hself

theorem holdAll_congr (m : Machine α) (weights : Weights α) (ticks : Nat) (layers : List LayerId) (token : String) :
    layers.foldl (fun m l => m.hold l token) { m with weights, ticks } =
      { layers.foldl (fun m l => m.hold l token) m with weights, ticks } := by
  induction layers generalizing m with
  | nil => rfl
  | cons l rest ih => exact ih (m.hold l token)

/-- Machines that differ in weights, activities and ticks are rewound to the same activities. -/
theorem rewind_congr (m : Machine α) (weights : Weights α) (activity : Array (Pattern α)) (ticks : Nat) (entry : Pattern α) :
    { m with weights, activity, ticks }.rewind entry = { m.rewind entry with weights, ticks } := by
  obtain ⟨before, heq⟩ := m.exists_rewind entry
  rw [heq, show m.rewind entry = _ from heq m.weights m.ticks m.activity, ← holdAll_congr]
  rfl

theorem holdRegisters_congr (m : Machine α) (weights : Weights α) (ticks : Nat) (registers : List (String × String)) :
    { m with weights, ticks }.holdRegisters registers =
      ((m.holdRegisters registers).1, { (m.holdRegisters registers).2 with weights, ticks }) := by
  induction registers generalizing m with
  | nil => rfl
  | cons r rest ih =>
    have hnetwork : ({ m with weights, ticks } : Machine α).network = m.network := rfl
    unfold holdRegisters
    rw [hnetwork]
    cases m.network.id? r.1 with
    | none => rfl
    | some l =>
      dsimp only
      split
      · exact ih (m.hold l r.2)
      · rfl

/-- Loading that fails may have let layers hold tokens, and has done nothing else. -/
theorem load_of_error {program : String} {registers : List (String × String)} {e : Fault α}
    (h : (m.load program registers).value.1 = .error e) : Rests m (m.load program registers).value.2 := by
  unfold load at h ⊢
  cases hentry : m.entry? program with
  | none => exact m.rests_activity m.activity
  | some entry =>
    have hrests := (m.rests_rewind entry).trans ((m.rewind entry).rests_holdRegisters registers)
    rw [hentry] at h
    dsimp only at h ⊢
    rcases hrun : (m.rewind entry).holdRegisters registers with ⟨e | u, held⟩
    · rw [hrun] at hrests
      exact hrests
    · rw [hrun] at h
      cases h

/-- Loading that succeeds lets layers hold tokens and takes the plastic pathways back. -/
theorem load_of_ok {program : String} {registers : List (String × String)} (h : (m.load program registers).value.1 = .ok ()) :
    ∃ entry held, m.entry? program = some entry ∧ (m.rewind entry).holdRegisters registers = (.ok (), held) ∧ Rests m held ∧
      (m.load program registers).value.2 =
        { held with weights := held.network.resetPlastic held.plasticity held.weights, ticks := 0 } := by
  unfold load at h ⊢
  cases hentry : m.entry? program with
  | none =>
    rw [hentry] at h
    cases h
  | some entry =>
    have hrests := (m.rests_rewind entry).trans ((m.rewind entry).rests_holdRegisters registers)
    rw [hentry] at h
    dsimp only at h ⊢
    rcases hrun : (m.rewind entry).holdRegisters registers with ⟨e | u, held⟩
    · rw [hrun] at h
      cases h
    · rw [hrun] at hrests
      exact ⟨entry, held, rfl, hrun, hrests, rfl⟩

end Machine

end Engram
