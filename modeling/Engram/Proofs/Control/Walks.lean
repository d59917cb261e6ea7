/-
  Engram.Proofs.Control.Walks — walks over recorded transits.

  A state `Takes` a step of the table when the transit is recorded, the state after it opens what
  the table says, and nothing else is recorded for the state than what the table allows. A `Walk`
  takes one step after the other.

  Recording a plan adds transits from its state and from states that are new, so no walk over
  earlier states is disturbed (`Walk.of_extends`). What it leaves is `Drawn`: every path of the
  plan is a walk, and every transit that was added lies on one. A state with several branches
  grows them one after the other (`Grown`).
-/

import Engram.Proofs.Control.Sequencing
import Engram.Proofs.Control.Table

namespace Engram

open LayerId

namespace Sequencer

variable {α : Type} [Scalar α]

/-- A step of the table from a state. -/
structure Takes (s : Sequencer α) (state : ControlState α) (step : ControlStep) (next : ControlState α) : Prop where
  leads : s.Leads state step.condition next
  only : ∀ t ∈ s.transits, t.key.hidden = s.hiddenBits state → ∃ c ∈ step.alternatives, t.key = s.key state c
  opens : s.network.Opens next.gates step.gates

/-- Steps one after the other, with the states that they lead to. -/
def Walk (s : Sequencer α) : ControlState α → List ControlStep → List (ControlState α) → Prop
  | _, [], [] => True
  | state, step :: steps, next :: states => s.Takes state step next ∧ s.Walk next steps states
  | _, _, _ => False

/-- The transit is one that the walk goes through. -/
def Passes (s : Sequencer α) (t : Transit α) : ControlState α → List ControlStep → List (ControlState α) → Prop
  | state, step :: steps, next :: states =>
    (t.key = s.key state step.condition ∧ t.target = next) ∨ s.Passes t next steps states
  | _, _, _ => False

variable {start spare fin state next mid : ControlState α} {s t u : Sequencer α}

/-! ## Later walks -/

theorem Takes.of_extends {step : ControlStep} (h : s.Takes state step next) (he : Extends start s t)
    (hframe : ∀ x ∈ t.transits, x ∈ s.transits ∨ x.key.hidden ≠ s.hiddenBits state) : t.Takes state step next := by
  refine ⟨he.leads h.leads, fun x hx hsource => ?_, ?_⟩
  · rw [hiddenBits_eq he.network] at hsource
    rcases hframe x hx with hold | hother
    · obtain ⟨c, hc, hkey⟩ := h.only x hold hsource
      exact ⟨c, hc, by rw [key_eq he.network]; exact hkey⟩
    · exact absurd hsource hother
  · exact h.opens.keeps he.network

theorem Walk.of_extends {steps : List ControlStep} {states : List (ControlState α)} (h : s.Walk state steps states)
    (he : Extends start s t)
    (hframe : ∀ x ∈ t.transits, x ∈ s.transits ∨ ∀ st ∈ (state :: states).dropLast, x.key.hidden ≠ s.hiddenBits st) :
    t.Walk state steps states := by
  induction states generalizing state steps with
  | nil =>
    cases steps with
    | nil => trivial
    | cons step steps => exact h.elim
  | cons next states ih =>
    cases steps with
    | nil => exact h.elim
    | cons step steps =>
      rw [List.dropLast_cons_cons] at hframe
      refine ⟨h.1.of_extends he fun x hx => (hframe x hx).imp_right fun hne => hne state (by simp), ?_⟩
      exact ih h.2 fun x hx => (hframe x hx).imp_right fun hne st hst => hne st (List.mem_cons_of_mem _ hst)

theorem Passes.of_extends {x : Transit α} {steps : List ControlStep} {states : List (ControlState α)}
    (h : s.Passes x state steps states) (he : Extends start s t) : t.Passes x state steps states := by
  induction steps generalizing state states with
  | nil => cases states <;> exact h.elim
  | cons step steps ih =>
    cases states with
    | nil => exact h.elim
    | cons next states =>
      rcases h with h | h
      · exact .inl ⟨by rw [key_eq he.network]; exact h.1, h.2⟩
      · exact .inr (ih h)

theorem Walk.append {steps more : List ControlStep} {states later : List (ControlState α)}
    (h : s.Walk state steps (states ++ [mid])) (h' : s.Walk mid more later) :
    s.Walk state (steps ++ more) (states ++ mid :: later) := by
  induction states generalizing state steps with
  | nil =>
    cases steps with
    | nil => exact h.elim
    | cons step steps =>
      cases steps with
      | nil => exact ⟨h.1, h'⟩
      | cons step steps => exact h.2.elim
  | cons next states ih =>
    cases steps with
    | nil => exact h.elim
    | cons step steps => exact ⟨h.1, ih h.2⟩

theorem Passes.append_left {x : Transit α} {steps : List ControlStep} {states : List (ControlState α)}
    (h : s.Passes x state steps states) (more : List ControlStep) (later : List (ControlState α)) :
    s.Passes x state (steps ++ more) (states ++ later) := by
  induction steps generalizing state states with
  | nil => cases states <;> exact h.elim
  | cons step steps ih =>
    cases states with
    | nil => exact h.elim
    | cons next states => exact h.imp_right ih

theorem Passes.append_right {x : Transit α} {steps more : List ControlStep} {states later : List (ControlState α)}
    (hw : s.Walk state steps (states ++ [mid])) (h : s.Passes x mid more later) :
    s.Passes x state (steps ++ more) (states ++ mid :: later) := by
  induction states generalizing state steps with
  | nil =>
    cases steps with
    | nil => exact hw.elim
    | cons step steps =>
      cases steps with
      | nil => exact .inr h
      | cons step steps => exact hw.2.elim
  | cons next states ih =>
    cases steps with
    | nil => exact hw.elim
    | cons step steps => exact .inr (ih hw.2)

/-! ## What recording leaves -/

/-- A state that was created on the way, other than a state that is to be left alone. -/
structure New (start spare : ControlState α) (s later : Sequencer α) (state : ControlState α) : Prop where
  seen : later.hiddenBits state ∈ later.seen start
  fresh : later.hiddenBits state ∉ s.seen start
  ne : later.hiddenBits state ≠ later.hiddenBits spare

theorem New.of_extends (h : New start spare s t state) (he : Extends start t u) : New start spare s u state := by
  refine ⟨?_, ?_, ?_⟩
  · rw [hiddenBits_eq he.network]
    exact he.seen_subset h.seen
  · rw [hiddenBits_eq he.network]
    exact h.fresh
  · rw [hiddenBits_eq he.network, hiddenBits_eq he.network]
    exact h.ne

theorem New.of_earlier (h : New start spare t u state) (he : Extends start s t) : New start spare s u state :=
  ⟨h.seen, fun hmem => h.fresh (he.seen_subset hmem), h.ne⟩

/-- What was added leaves the given state or a new one. -/
def Framed (start spare state : ControlState α) (s later : Sequencer α) : Prop :=
  ∀ x ∈ later.transits, x ∈ s.transits ∨ x.key.hidden = later.hiddenBits state ∨
    (x.key.hidden ∉ s.seen start ∧ x.key.hidden ≠ later.hiddenBits spare)

/-- Recording the walks from `state` and nothing else. The paths are given with the states in which
they end. -/
structure Drawn (start spare state : ControlState α) (paths : List ControlStep → ControlState α → Prop)
    (s later : Sequencer α) : Prop where
  frame : Framed start spare state s later
  walks : ∀ steps fin, paths steps fin → ∃ states, later.Walk state steps (states ++ [fin]) ∧
    ∀ st ∈ states, New start spare s later st
  covers : ∀ x ∈ later.transits, x ∈ s.transits ∨ ∃ steps fin, paths steps fin ∧ ∃ states,
    later.Walk state steps (states ++ [fin]) ∧ (∀ st ∈ states, New start spare s later st) ∧
    later.Passes x state steps (states ++ [fin])

/-- A recorded way from a state: what it is keyed on, what the next state opens, what follows and
where it ends. -/
structure Branch (start spare state : ControlState α) (s later : Sequencer α) (condition : Option Condition)
    (gates : List Gate) (rest : List ControlStep) (fin next : ControlState α) (more states : List (ControlState α)) :
    Prop where
  leads : later.Leads state condition next
  opens : later.network.Opens next.gates gates
  walk : later.Walk next rest more
  ends : next :: more = states ++ [fin]
  new : ∀ st ∈ states, New start spare s later st

/-- Recording some of the ways from a state. -/
structure Grown (start spare state : ControlState α)
    (ways : Option Condition → List Gate → List ControlStep → ControlState α → Prop) (s later : Sequencer α) : Prop where
  frame : Framed start spare state s later
  only : ∀ x ∈ later.transits, x.key.hidden = later.hiddenBits state →
    ∃ c gates rest fin, ways c gates rest fin ∧ x.key = later.key state c
  walks : ∀ c gates rest fin, ways c gates rest fin → ∃ next more states,
    Branch start spare state s later c gates rest fin next more states
  covers : ∀ x ∈ later.transits, x ∈ s.transits ∨ ∃ c gates rest fin, ways c gates rest fin ∧ ∃ next more states,
    Branch start spare state s later c gates rest fin next more states ∧
      ((x.key = later.key state c ∧ x.target = next) ∨ later.Passes x next rest more)

/-- No transit leaves the state. -/
def Unused (s : Sequencer α) (state : ControlState α) : Prop :=
  ∀ x ∈ s.transits, x.key.hidden ≠ s.hiddenBits state

variable {condition : Option Condition} {gates : List Gate} {rest : List ControlStep}
  {more states : List (ControlState α)}
  {ways : Option Condition → List Gate → List ControlStep → ControlState α → Prop}

theorem Branch.of_extends (h : Branch start spare state s t condition gates rest fin next more states)
    (he : Extends start t u)
    (hframe : ∀ x ∈ u.transits, x ∈ t.transits ∨ ∀ st ∈ states, x.key.hidden ≠ t.hiddenBits st) :
    Branch start spare state s u condition gates rest fin next more states := by
  refine ⟨he.leads h.leads, h.opens.keeps he.network, h.walk.of_extends he ?_, h.ends, fun st hst =>
    (h.new st hst).of_extends he⟩
  rw [h.ends, List.dropLast_concat]
  exact hframe

theorem Grown.nil (h : s.Unused state) : Grown start spare state (fun _ _ _ _ => False) s s :=
  ⟨fun _ hx => .inl hx, fun x hx hsource => absurd hsource (h x hx), fun _ _ _ _ h => h.elim, fun _ hx => .inl hx⟩

theorem Grown.congr {ways' : Option Condition → List Gate → List ControlStep → ControlState α → Prop}
    (h : Grown start spare state ways s t) (hw : ∀ c g r fin, ways c g r fin ↔ ways' c g r fin) :
    Grown start spare state ways' s t := by
  have : ways = ways' := funext fun c => funext fun g => funext fun r => funext fun fin => propext (hw c g r fin)
  exact this ▸ h

/-- Nothing is lost where nothing is added. -/
theorem Grown.of_extends (h : Grown start spare state ways s t) (he : Extends start t u)
    (hsame : u.transits = t.transits) : Grown start spare state ways s u := by
  have hbits : ∀ st, u.hiddenBits st = t.hiddenBits st := hiddenBits_eq he.network
  have hkey : ∀ st c, u.key st c = t.key st c := key_eq he.network
  have hold : ∀ {c g r e next more states}, Branch start spare state s t c g r e next more states →
      Branch start spare state s u c g r e next more states :=
    fun hb => hb.of_extends he fun x hx => .inl (hsame ▸ hx)
  refine ⟨fun x hx => ?_, fun x hx hsource => ?_, fun c g r e hw => ?_, fun x hx => ?_⟩
  · rw [hbits, hbits]
    exact h.frame x (hsame ▸ hx)
  · rw [hbits] at hsource
    obtain ⟨c, g, r, e, hw, heq⟩ := h.only x (hsame ▸ hx) hsource
    exact ⟨c, g, r, e, hw, by rw [hkey]; exact heq⟩
  · obtain ⟨next, more, states, hb⟩ := h.walks c g r e hw
    exact ⟨next, more, states, hold hb⟩
  · refine (h.covers x (hsame ▸ hx)).imp_right ?_
    rintro ⟨c, g, r, e, hw, next, more, states, hb, hon⟩
    refine ⟨c, g, r, e, hw, next, more, states, hold hb, ?_⟩
    rw [hkey]
    exact hon.imp_right fun hp => hp.of_extends he

/-- A way that ends at once. -/
theorem Grown.back (h : Grown start spare state ways s t) (hstate : s.hiddenBits state ∈ s.seen start)
    (hst : Extends start s t) (ha : Adds t u state condition fin) (he : Extends start t u)
    (ho : u.network.Opens fin.gates gates) :
    Grown start spare state (fun c g r e => ways c g r e ∨ (c = condition ∧ g = gates ∧ r = [] ∧ e = fin)) s u := by
  obtain ⟨input, hinput, htransits⟩ := ha.transits
  have hbits : ∀ st, u.hiddenBits st = t.hiddenBits st := hiddenBits_eq he.network
  have hkey : ∀ st c, u.key st c = t.key st c := key_eq he.network
  have hcases : ∀ x ∈ u.transits, x ∈ t.transits ∨ (x.key = u.key state condition ∧ x.target = fin) := by
    intro x hx
    rw [htransits, List.mem_append, List.mem_singleton] at hx
    rcases hx with hx | rfl
    · exact .inl hx
    · exact .inr ⟨(hkey _ _).symm, rfl⟩
  have hold : ∀ {c g r e next more states}, Branch start spare state s t c g r e next more states →
      Branch start spare state s u c g r e next more states := by
    intro c g r e next more states hb
    refine hb.of_extends he fun x hx => (hcases x hx).imp_right fun hx st hmem heq => ?_
    rw [hx.1] at heq
    refine (hb.new st hmem).fresh ?_
    rw [← heq]
    show u.hiddenBits state ∈ _
    rw [hbits, hiddenBits_eq hst.network]
    exact hstate
  have hbranch : Branch start spare state s u condition gates [] fin fin [] [] :=
    ⟨ha.leads, ho, trivial, rfl, fun st hst => by cases hst⟩
  refine ⟨fun x hx => ?_, fun x hx hsource => ?_, fun c g r e hw => ?_, fun x hx => ?_⟩
  · rcases hcases x hx with hx | hx
    · rw [hbits, hbits]
      exact h.frame x hx
    · exact .inr (.inl (by rw [hx.1]; rfl))
  · rcases hcases x hx with hx | hx
    · rw [hbits] at hsource
      obtain ⟨c, g, r, e, hw, heq⟩ := h.only x hx hsource
      exact ⟨c, g, r, e, .inl hw, by rw [hkey]; exact heq⟩
    · exact ⟨condition, gates, [], fin, .inr ⟨rfl, rfl, rfl, rfl⟩, hx.1⟩
  · rcases hw with hw | ⟨rfl, rfl, rfl, rfl⟩
    · obtain ⟨next, more, states, hb⟩ := h.walks c g r e hw
      exact ⟨next, more, states, hold hb⟩
    · exact ⟨_, [], [], hbranch⟩
  · rcases hcases x hx with hx | hx
    · refine (h.covers x hx).imp_right ?_
      rintro ⟨c, g, r, e, hw, next, more, states, hb, hon⟩
      refine ⟨c, g, r, e, .inl hw, next, more, states, hold hb, ?_⟩
      rw [hkey]
      exact hon.imp_right fun hp => hp.of_extends he
    · exact .inr ⟨condition, gates, [], fin, .inr ⟨rfl, rfl, rfl, rfl⟩, fin, [], [], hbranch, .inl hx⟩

/-- A way over a new state. -/
theorem Grown.new {paths : List ControlStep → ControlState α → Prop} (h : Grown start spare state ways s t)
    (hstate : s.hiddenBits state ∈ s.seen start) (hst : Extends start s t) (ht : t.Traced start)
    (hc : Creates t u gates state condition next) {v : Sequencer α} (he : Extends start u v)
    (hd : Drawn start spare next paths u v) (hpaths : ∃ steps fin, paths steps fin) (hu : u.Apart start)
    (hne : t.hiddenBits next ≠ t.hiddenBits spare) :
    Grown start spare state (fun c g r e => ways c g r e ∨ (c = condition ∧ g = gates ∧ paths r e)) s v := by
  obtain ⟨input, hinput, htransits⟩ := hc.transits
  have htu : Extends start t u := hc.extends
  have htv := htu.trans he
  have hbits : ∀ st, v.hiddenBits st = t.hiddenBits st := hiddenBits_eq htv.network
  have hkey : ∀ st c, v.key st c = t.key st c := key_eq htv.network
  have hnext : t.hiddenBits next ∉ t.seen start := hc.not_seen ht hu
  have hstate' : v.hiddenBits state ∈ s.seen start := by
    rw [hbits, hiddenBits_eq hst.network]
    exact hstate
  have hseen : s.seen start ⊆ t.seen start := hst.seen_subset
  -- where what was added comes from
  have hcases : ∀ x ∈ v.transits, x ∈ t.transits ∨ (x.key = v.key state condition ∧ x.target = next) ∨
      (x.key.hidden ∉ t.seen start ∧ x.key.hidden ≠ v.hiddenBits spare) := by
    intro x hx
    rcases hd.frame x hx with hx | hx | hx
    · rw [htransits, List.mem_append, List.mem_singleton] at hx
      rcases hx with hx | rfl
      · exact .inl hx
      · exact .inr (.inl ⟨(hkey _ _).symm, rfl⟩)
    · refine .inr (.inr ?_)
      rw [hx, hbits, hbits]
      exact ⟨hnext, hne⟩
    · exact .inr (.inr ⟨fun hmem => hx.1 (htu.seen_subset hmem), hx.2⟩)
  have hold : ∀ {c g r e next more states}, Branch start spare state s t c g r e next more states →
      Branch start spare state s v c g r e next more states := by
    intro c g r e next more states hb
    refine hb.of_extends htv fun x hx => (hcases x hx).imp_right ?_
    rintro (hx | hx) st hst heq
    · refine (hb.new st hst).fresh ?_
      rw [← heq, hx.1]
      exact hstate'
    · refine hx.1 ?_
      rw [heq]
      exact (hb.new st hst).seen
  have hbranch : ∀ {steps fin states}, v.Walk next steps (states ++ [fin]) → (∀ st ∈ states, New start spare u v st) →
      Branch start spare state s v condition gates steps fin next (states ++ [fin]) (next :: states) := by
    intro steps fin states hwalk hnew
    refine ⟨he.leads hc.leads, (hc.gates_open ht).keeps htv.network, hwalk, rfl, fun st hst' => ?_⟩
    rcases List.mem_cons.mp hst' with rfl | hst'
    · refine ⟨he.seen_subset ?_, ?_, ?_⟩
      · rw [hbits, hc.seen]
        exact Finset.mem_insert_self _ _
      · rw [hbits]
        exact fun hmem => hnext (hseen hmem)
      · rw [hbits, hbits]
        exact hne
    · exact (hnew st hst').of_earlier (hst.trans htu)
  refine ⟨fun x hx => ?_, fun x hx hsource => ?_, fun c g r e hw => ?_, fun x hx => ?_⟩
  · rcases hcases x hx with hx | hx | hx
    · rw [hbits, hbits]
      exact h.frame x hx
    · exact .inr (.inl (by rw [hx.1]; rfl))
    · exact .inr (.inr ⟨fun hmem => hx.1 (hseen hmem), hx.2⟩)
  · rcases hcases x hx with hx | hx | hx
    · rw [hbits] at hsource
      obtain ⟨c, g, r, e, hw, heq⟩ := h.only x hx hsource
      exact ⟨c, g, r, e, .inl hw, by rw [hkey]; exact heq⟩
    · obtain ⟨steps, fin, hsteps⟩ := hpaths
      exact ⟨condition, gates, steps, fin, .inr ⟨rfl, rfl, hsteps⟩, hx.1⟩
    · exact absurd (hseen hstate') (hsource ▸ hx.1)
  · rcases hw with hw | ⟨rfl, rfl, hpath⟩
    · obtain ⟨next, more, states, hb⟩ := h.walks c g r e hw
      exact ⟨next, more, states, hold hb⟩
    · obtain ⟨states, hwalk, hnew⟩ := hd.walks r e hpath
      exact ⟨next, states ++ [e], next :: states, hbranch hwalk hnew⟩
  · rcases hd.covers x hx with hx' | ⟨steps, fin, hsteps, states, hwalk, hnew, hpass⟩
    · rw [htransits, List.mem_append, List.mem_singleton] at hx'
      rcases hx' with hx' | rfl
      · refine (h.covers x hx').imp_right ?_
        rintro ⟨c, g, r, e, hw, next, more, states, hb, hon⟩
        refine ⟨c, g, r, e, .inl hw, next, more, states, hold hb, ?_⟩
        rw [hkey]
        exact hon.imp_right fun hp => hp.of_extends htv
      · obtain ⟨steps, fin, hsteps⟩ := hpaths
        obtain ⟨states, hwalk, hnew⟩ := hd.walks steps fin hsteps
        exact .inr ⟨condition, gates, steps, fin, .inr ⟨rfl, rfl, hsteps⟩, next, _, _, hbranch hwalk hnew,
          .inl ⟨(hkey _ _).symm, rfl⟩⟩
    · exact .inr ⟨condition, gates, steps, fin, .inr ⟨rfl, rfl, hsteps⟩, next, _, _, hbranch hwalk hnew, .inr hpass⟩

/-- All ways from a state, as walks from it. -/
theorem Grown.drawn (h : Grown start spare state ways s t) (alternatives : List (Option Condition))
    (halt : ∀ c g r e, ways c g r e → c ∈ alternatives) :
    Drawn start spare state (fun steps e => ∃ c g r, ways c g r e ∧ steps = ⟨c, alternatives, g⟩ :: r) s t := by
  have hwalk : ∀ {c g r e next more states}, Branch start spare state s t c g r e next more states →
      t.Walk state (⟨c, alternatives, g⟩ :: r) (states ++ [e]) := by
    intro c g r e next more states hb
    rw [← hb.ends]
    refine ⟨⟨hb.leads, fun x hx hsource => ?_, hb.opens⟩, hb.walk⟩
    obtain ⟨c', g', r', e', hw, hkey⟩ := h.only x hx hsource
    exact ⟨c', halt c' g' r' e' hw, hkey⟩
  refine ⟨h.frame, ?_, fun x hx => (h.covers x hx).imp_right ?_⟩
  · rintro steps e ⟨c, g, r, hw, rfl⟩
    obtain ⟨next, more, states, hb⟩ := h.walks c g r e hw
    exact ⟨states, hwalk hb, hb.new⟩
  · rintro ⟨c, g, r, e, hw, next, more, states, hb, hon⟩
    refine ⟨_, e, ⟨c, g, r, hw, rfl⟩, states, hwalk hb, hb.new, ?_⟩
    rw [← hb.ends]
    exact hon

theorem Drawn.congr {paths paths' : List ControlStep → ControlState α → Prop} (h : Drawn start spare state paths s t)
    (hp : ∀ steps fin, paths steps fin ↔ paths' steps fin) : Drawn start spare state paths' s t := by
  have : paths = paths' := funext fun steps => funext fun fin => propext (hp steps fin)
  exact this ▸ h

/-- Walks to a new state and on from there. -/
theorem Drawn.andThen {paths : List ControlStep → Prop} {paths' : List ControlStep → ControlState α → Prop}
    (h : Drawn start mid state (fun steps e => paths steps ∧ e = mid) s t) (h' : Drawn start spare mid paths' t u) (hst : Extends start s t) (htu : Extends start t u)
    (hstate : s.hiddenBits state ∈ s.seen start) (hmid : New start spare s t mid) (hspare : s.hiddenBits spare ∈ s.seen start)
    (hpaths : ∃ steps, paths steps) (hpaths' : ∃ steps fin, paths' steps fin) :
    Drawn start spare state (fun steps e => ∃ p q, paths p ∧ paths' q e ∧ steps = p ++ q) s u := by
  have hbits : ∀ st, u.hiddenBits st = t.hiddenBits st := hiddenBits_eq htu.network
  have hbits' : ∀ st, t.hiddenBits st = s.hiddenBits st := hiddenBits_eq hst.network
  -- no walk so far comes from where transits are added now
  have hfirst : ∀ {steps states}, t.Walk state steps (states ++ [mid]) → (∀ st ∈ states, New start mid s t st) →
      u.Walk state steps (states ++ [mid]) ∧ ∀ st ∈ states, New start spare s u st := by
    intro steps states hwalk hnew
    refine ⟨hwalk.of_extends htu fun x hx => (h'.frame x hx).imp_right ?_, fun st hmem => ?_⟩
    · rw [show state :: (states ++ [mid]) = (state :: states) ++ [mid] from rfl, List.dropLast_concat]
      rintro hx st hmem heq
      have hseen : t.hiddenBits st ∈ t.seen start ∧ t.hiddenBits st ≠ t.hiddenBits mid := by
        rcases List.mem_cons.mp hmem with rfl | hmem
        · refine ⟨hst.seen_subset (by rw [hbits']; exact hstate), fun heq => hmid.fresh ?_⟩
          rw [← heq, hbits']
          exact hstate
        · exact ⟨(hnew st hmem).seen, (hnew st hmem).ne⟩
      rcases hx with hx | hx
      · rw [hbits] at hx
        exact hseen.2 (heq.symm.trans hx)
      · exact hx.1 (heq ▸ hseen.1)
    · have hst' := hnew st hmem
      refine ⟨by rw [hbits]; exact htu.seen_subset hst'.seen, by rw [hbits]; exact hst'.fresh, ?_⟩
      rw [hbits, hbits]
      intro heq
      refine hst'.fresh ?_
      rw [heq, hbits']
      exact hspare
  have hjoin : ∀ {states states' : List (ControlState α)}, (∀ st ∈ states, New start spare s u st) →
      (∀ st ∈ states', New start spare t u st) → ∀ st ∈ states ++ mid :: states', New start spare s u st := by
    intro states states' h₁ h₂ st hmem
    rcases List.mem_append.mp hmem with hmem | hmem
    · exact h₁ st hmem
    · rcases List.mem_cons.mp hmem with rfl | hmem
      · exact hmid.of_extends htu
      · exact (h₂ st hmem).of_earlier hst
  refine ⟨fun x hx => ?_, ?_, fun x hx => ?_⟩
  · rcases h'.frame x hx with hx | hx | hx
    · rcases h.frame x hx with hx | hx | hx
      · exact .inl hx
      · exact .inr (.inl (by rw [hbits]; exact hx))
      · refine .inr (.inr ⟨hx.1, fun heq => hx.1 ?_⟩)
        rw [heq, hbits, hbits']
        exact hspare
    · refine .inr (.inr ?_)
      rw [hx, hbits, hbits]
      exact ⟨hmid.fresh, hmid.ne⟩
    · exact .inr (.inr ⟨fun hmem => hx.1 (hst.seen_subset hmem), hx.2⟩)
  · rintro steps fin ⟨p, q, hp, hq, rfl⟩
    obtain ⟨states, hwalk, hnew⟩ := h.walks p mid ⟨hp, rfl⟩
    obtain ⟨states', hwalk', hnew'⟩ := h'.walks q fin hq
    obtain ⟨hwalk, hnew⟩ := hfirst hwalk hnew
    refine ⟨states ++ mid :: states', ?_, hjoin hnew hnew'⟩
    rw [List.append_assoc, List.cons_append]
    exact hwalk.append hwalk'
  · rcases h'.covers x hx with hx | ⟨q, fin, hq, states', hwalk', hnew', hpass⟩
    · rcases h.covers x hx with hx | ⟨p, e, ⟨hp, he⟩, states, hwalk, hnew, hpass⟩
      · exact .inl hx
      · rw [he] at hwalk hpass
        obtain ⟨q, fin, hq⟩ := hpaths'
        obtain ⟨states', hwalk', hnew'⟩ := h'.walks q fin hq
        obtain ⟨hwalk, hnew⟩ := hfirst hwalk hnew
        refine .inr ⟨p ++ q, fin, ⟨p, q, hp, hq, rfl⟩, states ++ mid :: states', ?_, hjoin hnew hnew', ?_⟩
        · rw [List.append_assoc, List.cons_append]
          exact hwalk.append hwalk'
        · rw [List.append_assoc, List.cons_append, List.append_cons]
          exact (hpass.of_extends htu).append_left _ _
    · obtain ⟨p, hp⟩ := hpaths
      obtain ⟨states, hwalk, hnew⟩ := h.walks p mid ⟨hp, rfl⟩
      obtain ⟨hwalk, hnew⟩ := hfirst hwalk hnew
      refine .inr ⟨p ++ q, fin, ⟨p, q, hp, hq, rfl⟩, states ++ mid :: states', ?_, hjoin hnew hnew', ?_⟩
      · rw [List.append_assoc, List.cons_append]
        exact hwalk.append hwalk'
      · rw [List.append_assoc, List.cons_append]
        exact hpass.append_right hwalk

end Sequencer

end Engram
