/-
  Engram.Proofs.Machine.Forgetting — loading a program forgets what ran before.

  Moving a machine touches activities, ticks, and connections of pathways that have a rule
  (`moved_move`), failing motions included. Loading overwrites all of these. So a program that loads
  after any motions leaves the machine that it leaves without them (`load_forgets`). Two such
  machines may keep the same connections in trees of another shape; no call can tell them apart
  (`Same.perform`).
-/

import Engram.Proofs.Machine.Loading
import Engram.Proofs.Machine.Operations

namespace Engram

open LayerId

variable {α : Type} [Scalar α]

namespace Machine

/-- The machines are the same: each pathway has the same connection in both, and the rest is equal. -/
structure Same (a b : Machine α) : Prop where
  rest : b = { a with weights := b.weights }
  weights : ∀ p : Pathway, b.weights[p]? = a.weights[p]?

variable {m later a b : Machine α}

/-! ## Machines that no call tells apart -/

omit [Scalar α] in
theorem Same.refl (m : Machine α) : Same m m := ⟨rfl, fun _ => rfl⟩

omit [Scalar α] in
theorem Same.exists_weights (h : Same a b) : ∃ w : Weights α, (∀ p : Pathway, w[p]? = a.weights[p]?) ∧ b = { a with weights := w } :=
  ⟨b.weights, h.weights, h.rest⟩

theorem Same.assemble (h : Same a b) (source name : String) :
    (b.assemble source name).value.1 = (a.assemble source name).value.1 ∧
      Same (a.assemble source name).value.2 (b.assemble source name).value.2 := by
  obtain ⟨w, hw, rfl⟩ := h.exists_weights
  have hprogram : ∀ p : Program, ({ a with weights := w }.assembleProgram p name).value.1 = (a.assembleProgram p name).value.1 ∧
      Same (a.assembleProgram p name).value.2 ({ a with weights := w }.assembleProgram p name).value.2 := by
    intro p
    unfold assembleProgram
    rw [Noted.value_bind, Noted.value_bind]
    rcases hrun : ((Session.assemble p name a.config.orthogonal false).run.run a.session).value with ⟨e | r, session⟩
    · exact ⟨rfl, rfl, hw⟩
    · refine ⟨rfl, rfl, fun q => ?_⟩
      show (w.extend r.weights)[q]? = (a.weights.extend r.weights)[q]?
      cases hr : r.weights[q]? with
      | none => rw [Weights.getElem?_extend_of_none w hr, Weights.getElem?_extend_of_none a.weights hr, hw]
      | some c => rw [Weights.getElem?_extend_of_some w hr, Weights.getElem?_extend_of_some a.weights hr]
  have hnetwork : ({ a with weights := w } : Machine α).network = a.network := rfl
  unfold Machine.assemble
  rw [hnetwork]
  cases Program.parse a.network.registerNames source with
  | error e => exact ⟨rfl, rfl, hw⟩
  | ok p => exact hprogram p

/-- Both have the plastic pathways at their baselines, and the connections that they had elsewhere. -/
theorem resetPlastic_congr (n : Network α) (rules : PlasticityMap α) {w w' : Weights α}
    (h : ∀ p : Pathway, rules[p]? = none → w'[p]? = w[p]?) (p : Pathway) :
    (n.resetPlastic rules w')[p]? = (n.resetPlastic rules w)[p]? := by
  cases hp : rules[p]? with
  | none => rw [Network.getElem?_resetPlastic w' hp, Network.getElem?_resetPlastic w hp, h p hp]
  | some r => rw [Network.getElem?_resetPlastic_of_some w' hp, Network.getElem?_resetPlastic_of_some w hp]

/-- What loading answers does not depend on weights, activities or ticks. -/
theorem fst_load_congr (m : Machine α) (weights : Weights α) (activity : Array (Pattern α)) (ticks : Nat) (program : String)
    (registers : List (String × String)) :
    ({ m with weights, activity, ticks }.load program registers).value.1 = (m.load program registers).value.1 := by
  rw [fst_load, fst_load]
  rfl

/-- When loading succeeds, what it leaves depends on the weights of pathways without a rule alone. -/
theorem same_load {program : String} {registers : List (String × String)} (h : (m.load program registers).value.1 = .ok ())
    {weights : Weights α} (hweights : ∀ p : Pathway, m.plasticity[p]? = none → weights[p]? = m.weights[p]?)
    (activity : Array (Pattern α)) (ticks : Nat) :
    Same (m.load program registers).value.2 ({ m with weights, activity, ticks }.load program registers).value.2 := by
  have h' := (m.fst_load_congr weights activity ticks program registers).trans h
  obtain ⟨entry, held, hentry, hheld, hrests, hload⟩ := load_of_ok h
  obtain ⟨entry', held', hentry', hheld', -, hload'⟩ := load_of_ok h'
  obtain rfl : entry = entry' := Option.some.inj (hentry.symm.trans hentry')
  rw [rewind_congr, holdRegisters_congr, hheld] at hheld'
  obtain rfl : { held with weights, ticks } = held' := (Prod.mk.inj hheld').2
  rw [hload, hload', hrests.plasticity, hrests.weights]
  exact ⟨rfl, resetPlastic_congr held.network m.plasticity hweights⟩

theorem Same.load (h : Same a b) (program : String) (registers : List (String × String)) :
    (b.load program registers).value.1 = (a.load program registers).value.1 ∧
      Same (a.load program registers).value.2 (b.load program registers).value.2 := by
  obtain ⟨w, hw, rfl⟩ := h.exists_weights
  have hfst := a.fst_load_congr w a.activity a.ticks program registers
  refine ⟨hfst, ?_⟩
  cases hanswer : (a.load program registers).value.1 with
  | ok u => exact same_load hanswer (fun p _ => hw p) a.activity a.ticks
  | error e =>
    have hrewind : ∀ entry, ({ a with weights := w }.rewind entry).holdRegisters registers =
        (((a.rewind entry).holdRegisters registers).1, { ((a.rewind entry).holdRegisters registers).2 with weights := w }) := by
      intro entry
      have hheld := holdRegisters_congr (a.rewind entry) w a.ticks registers
      have hrests := rests_holdRegisters (a.rewind entry) registers
      have hticks : ((a.rewind entry).holdRegisters registers).2.ticks = a.ticks :=
        hrests.ticks.trans (a.rests_rewind entry).ticks
      rw [← rewind_congr a w a.activity a.ticks entry] at hheld
      rw [hheld, ← hticks]
    have hrests := load_of_error hanswer
    unfold Machine.load at hanswer hrests ⊢
    have hsame : entry? { a with weights := w } program = a.entry? program := rfl
    rw [hsame]
    cases hentry : a.entry? program with
    | none => exact ⟨rfl, hw⟩
    | some entry =>
      rw [hentry] at hanswer hrests
      dsimp only at hanswer hrests ⊢
      rw [hrewind]
      rcases hrun : (a.rewind entry).holdRegisters registers with ⟨e' | u, held⟩
      · rw [hrun] at hrests
        refine ⟨rfl, fun p => ?_⟩
        show w[p]? = held.weights[p]?
        have hheld : Rests a held := hrests
        rw [hw, hheld.weights]
      · rw [hrun] at hanswer
        cases hanswer

theorem input_congr {w : Weights α} (hw : ∀ p : Pathway, w[p]? = m.weights[p]?) (open' : List Gate) (l : LayerId) :
    { m with weights := w }.input open' l = m.input open' l := by
  unfold input
  simp only [hw]
  rfl

theorem learnPathway_congr {w w' : Weights α} (hw : ∀ p : Pathway, w'[p]? = w[p]?) (v : Weights α) (q p : Pathway) :
    ({ m with weights := v }.learnPathway w' q).value[p]? = (m.learnPathway w q).value[p]? := by
  unfold learnPathway
  rw [hw]
  dsimp only
  cases m.plasticity[q]? with
  | none => exact hw p
  | some r =>
    cases w[q]? with
    | none => exact hw p
    | some c =>
      dsimp only
      rw [Noted.value_bind, Noted.value_bind]
      show (w'.insert q _)[p]? = (w.insert q _)[p]?
      rw [Std.TreeMap.getElem?_insert, Std.TreeMap.getElem?_insert, hw]
      rfl

theorem learned_congr {v : Weights α} (hv : ∀ p : Pathway, v[p]? = m.weights[p]?) (open' : List Gate) (p : Pathway) :
    ({ m with weights := v }.learned open').value[p]? = (m.learned open').value[p]? := by
  unfold learned
  rw [Noted.value_foldlM, Noted.value_foldlM]
  show (List.foldl _ v (m.network.plastic.filter _))[p]? = (List.foldl _ m.weights _)[p]?
  generalize m.network.plastic.filter _ = l
  suffices hfold : ∀ w w' : Weights α, (∀ p : Pathway, w'[p]? = w[p]?) →
      (l.foldl (fun w q => ({ m with weights := v }.learnPathway w q).value) w')[p]? =
        (l.foldl (fun w q => (m.learnPathway w q).value) w)[p]? from hfold m.weights v hv
  induction l with
  | nil => exact fun w w' hw => hw p
  | cons q rest ih => exact fun w w' hw => ih _ _ (learnPathway_congr hw v q)

theorem Same.tick (h : Same a b) : Same a.tick.value b.tick.value := by
  obtain ⟨w, hw, rfl⟩ := h.exists_weights
  have hnext : ({ a with weights := w } : Machine α).next a.openGates = a.next a.openGates := by
    funext l
    unfold next
    rw [input_congr hw]
    rfl
  refine ⟨?_, learned_congr hw a.openGates⟩
  show (⟨a.config, a.session, _, a.plasticity, (a.network.layerIds.map ({ a with weights := w }.next a.openGates)).toArray,
    a.automaton, a.buildErrors, a.ticks + 1⟩ : Machine α) = _
  rw [hnext]
  rfl

theorem Same.holding (h : Same a b) (l : LayerId) : b.holding l = a.holding l := by
  rw [h.rest]
  rfl

theorem Same.stepFrom (h : Same a b) (done budget : Nat) :
    (b.stepFrom done budget).value.1 = (a.stepFrom done budget).value.1 ∧
      Same (a.stepFrom done budget).value.2 (b.stepFrom done budget).value.2 := by
  induction budget generalizing a b done with
  | zero => exact ⟨rfl, h⟩
  | succ budget ih =>
    have htick := h.tick
    have hexit : b.tick.value.atExit = a.tick.value.atExit := by rw [atExit, atExit, htick.holding]
    have hstart : b.tick.value.atStart = a.tick.value.atStart := by rw [atStart, atStart, htick.holding]
    unfold Machine.stepFrom
    rw [Noted.value_bind, Noted.value_bind, hexit, hstart]
    by_cases he : a.tick.value.atExit = true
    · rw [if_pos he, if_pos he]
      exact ⟨rfl, htick⟩
    · rw [if_neg he, if_neg he]
      by_cases hs : a.tick.value.atStart = true
      · rw [if_pos hs, if_pos hs]
        exact ⟨rfl, htick⟩
      · rw [if_neg hs, if_neg hs]
        exact ih htick (done + 1)

theorem Same.runFrom (h : Same a b) (done budget : Nat) :
    (b.runFrom done budget).value.1 = (a.runFrom done budget).value.1 ∧
      Same (a.runFrom done budget).value.2 (b.runFrom done budget).value.2 := by
  induction budget generalizing a b done with
  | zero => exact ⟨rfl, h⟩
  | succ budget ih =>
    have hconfig : b.config = a.config := by rw [h.rest]
    obtain ⟨houtcome, hstep⟩ := h.stepFrom 0 a.config.maxTicks
    unfold Machine.runFrom Machine.step
    rw [Noted.value_bind, Noted.value_bind, hconfig]
    rcases ha : (a.stepFrom 0 a.config.maxTicks).value with ⟨outcome, a'⟩
    rcases hb : (b.stepFrom 0 a.config.maxTicks).value with ⟨outcome', b'⟩
    rw [ha, hb] at houtcome hstep
    obtain rfl : outcome' = outcome := houtcome
    cases outcome' with
    | exited ticks => exact ⟨rfl, hstep⟩
    | stalled ticks => exact ⟨rfl, hstep⟩
    | completed ticks => exact ih hstep (done + 1)

theorem Same.run (h : Same a b) (maxSteps : Nat) :
    (b.run maxSteps).value.1 = (a.run maxSteps).value.1 ∧ Same (a.run maxSteps).value.2 (b.run maxSteps).value.2 := by
  have hexit : b.atExit = a.atExit := by rw [atExit, atExit, h.holding]
  unfold Machine.run
  rw [hexit]
  by_cases he : a.atExit = true
  · rw [if_pos he, if_pos he]
    exact ⟨rfl, h⟩
  · rw [if_neg he, if_neg he]
    exact h.runFrom 0 maxSteps

theorem Same.setActivity (h : Same a b) (layer : String) (p : Pattern α) :
    (b.move (.setActivity layer p)).1 = (a.move (.setActivity layer p)).1 ∧
      Same (a.move (.setActivity layer p)).2 (b.move (.setActivity layer p)).2 := by
  obtain ⟨w, hw, rfl⟩ := h.exists_weights
  have hset : ({ a with weights := w } : Machine α).setActivity layer p =
      (a.setActivity layer p).map fun later => { later with weights := w } := by
    unfold Machine.setActivity
    show (do let l ← a.network.id layer; if p.size = a.network.size l then _ else _ : Except (Fault α) (Machine α)) = _
    cases a.network.id layer with
    | error e => rfl
    | ok l =>
      show (if p.size = a.network.size l then _ else _) = Except.map _ (if p.size = a.network.size l then _ else _)
      split
      · rfl
      · rfl
  have hweights : ∀ later, a.setActivity layer p = .ok later → later.weights = a.weights := by
    intro later hlater
    rcases a.setActivity_cases layer p with ⟨l, -, heq⟩ | ⟨e, heq⟩
    · cases hlater.symm.trans heq
      rfl
    · cases hlater.symm.trans heq
  unfold move
  dsimp only
  rw [hset]
  cases hlater : a.setActivity layer p with
  | error e => exact ⟨rfl, rfl, hw⟩
  | ok later => exact ⟨rfl, rfl, fun q => by rw [hweights later hlater]; exact hw q⟩

/-- A call answers the same on both machines, and leaves machines that are the same. -/
theorem Same.perform (h : Same a b) (o : Operation α) :
    (b.perform o).1 = (a.perform o).1 ∧ Same (a.perform o).2 (b.perform o).2 := by
  cases o with
  | assemble source name => exact (h.assemble source name).imp_left (congrArg Answer.assembled)
  | load program registers => exact (h.load program registers).imp_left (congrArg Answer.done)
  | move motion =>
    cases motion with
    | tick => exact ⟨rfl, h.tick⟩
    | step maxTicks => exact (h.stepFrom 0 maxTicks).imp_left (congrArg Answer.stepped)
    | run maxSteps => exact (h.run maxSteps).imp_left (congrArg Answer.ran)
    | setActivity layer p => exact h.setActivity layer p

theorem Same.performAll (h : Same a b) (operations : List (Operation α)) :
    (b.performAll operations).1 = (a.performAll operations).1 ∧ Same (a.performAll operations).2 (b.performAll operations).2 := by
  induction operations generalizing a b with
  | nil => exact ⟨rfl, h⟩
  | cons o rest ih =>
    obtain ⟨hanswer, hsame⟩ := h.perform o
    obtain ⟨hanswers, hlater⟩ := ih hsame
    refine ⟨?_, hlater⟩
    unfold Machine.performAll
    rw [hanswer, hanswers]

/-! ## What motions leave behind -/

/-- A machine after motions: the activities, the ticks and the connections that have a rule may be
others. -/
structure Moved (m later : Machine α) : Prop where
  rest : later = { m with weights := later.weights, activity := later.activity, ticks := later.ticks }
  weights : ∀ p : Pathway, m.plasticity[p]? = none → later.weights[p]? = m.weights[p]?

omit [Scalar α] in
theorem Moved.refl (m : Machine α) : Moved m m := ⟨rfl, fun _ _ => rfl⟩

theorem Moved.tick (h : Moved m later) : Moved m later.tick.value := by
  have hplasticity : later.plasticity = m.plasticity := by rw [h.rest]
  have htick : Moved later later.tick.value := ⟨rfl, fun p hp => later.getElem?_learned_of_none later.openGates hp⟩
  refine ⟨?_, fun p hp => (htick.weights p (hplasticity ▸ hp)).trans (h.weights p hp)⟩
  rw [htick.rest, h.rest]

theorem moved_move (h : Moved m later) (o : Motion α) : Moved m (later.move o).2 := by
  refine move_induction (P := Moved m) (fun _ h => h.tick) (fun later l p h _ => ⟨?_, h.weights⟩) h o
  rw [setActive, h.rest]

/-- Loading a program forgets every motion before. If the program loads, it also loads after any
ticks, instructions, runs and set activities, whether these succeed or fail. It then leaves the
same machine: activities, connections, code books, session and ticks. Whatever is called
afterwards answers as if nothing had run before. -/
theorem load_forgets (m : Machine α) (motions : List (Motion α)) {program : String} {registers : List (String × String)}
    (h : (m.load program registers).value.1 = .ok ()) :
    ((m.moveAll motions).load program registers).value.1 = .ok () ∧
    Same (m.load program registers).value.2 ((m.moveAll motions).load program registers).value.2 ∧
    ∀ operations : List (Operation α),
      (((m.moveAll motions).load program registers).value.2.performAll operations).1 =
          ((m.load program registers).value.2.performAll operations).1 ∧
      Same ((m.load program registers).value.2.performAll operations).2
        (((m.moveAll motions).load program registers).value.2.performAll operations).2 := by
  have hmoved : Moved m (m.moveAll motions) := moveAll_induction (P := Moved m) (fun _ o h => moved_move h o) (.refl m) motions
  rw [hmoved.rest]
  have hsame := same_load h hmoved.weights (m.moveAll motions).activity (m.moveAll motions).ticks
  exact ⟨(fst_load_congr _ _ _ _ _ _).trans h, hsame, hsame.performAll⟩

/-- The small machine loads a program of one line after it was moved as it does before. -/
theorem small_load_forgets : ∃ m₀ : Machine Fixed, (build smallConfig).value = .ok m₀ ∧
    ∃ errors m, (m₀.assemble "nop" "a").value = (.ok errors, m) ∧ (m.load "a" []).value.1 = .ok () ∧
      Same (m.load "a" []).value.2
        ((m.moveAll [.setActivity "ip" #[], .tick, .step 3, .run 2]).load "a" []).value.2 := by
  obtain ⟨m₀, hbuild⟩ := exists_small
  have hsession := overfills_smallSession
  rw [← session_of_build hbuild, Bool.and_eq_true] at hsession
  obtain ⟨errors, m, hadds, -, -⟩ := exists_adds (config_of_build hbuild) hsession.2
  have hledger := ledger_of_attempts hbuild (Attempts.none.more (.inl ⟨_, hadds⟩))
  have hload := (hledger.load_ok_iff "a").mpr ⟨⟨"a", m₀, .ok errors⟩, by simp, rfl, .inl ⟨errors, rfl⟩⟩
  exact ⟨m₀, hbuild, errors, m, hadds, hload, (load_forgets m _ hload).2.1⟩

end Machine

end Engram
