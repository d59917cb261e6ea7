/-
  Engram.Proofs.Control.Refusals — what a call that is refused leaves behind.

  A dispatch is refused by its checks, before it changes anything. A transit is refused by its checks
  too, by what is recorded already, or because a gate of its new state is not there. The gates are
  looked up last, after the transit has claimed the layer of its condition, and the claim is not taken
  back: the layer counts as selected on by a state from which nothing is recorded
  (`refusals_of_calls`). From then on no state can dispatch on it, and no other state can select on it
  (`Strands.closes`).
-/

import Engram.Proofs.Control.Determinism
import Engram.Proofs.Control.Legal

namespace Engram

open LayerId

variable {α : Type} [Scalar α]

/-! ## Gates that are not there -/

namespace Network

/-- The first of the gates that the network does not have. -/
structure Misses (n : Network α) (gates : List Gate) (g : Gate) : Prop where
  absent : g ∉ n.gates.gates
  first : ∃ before after, gates = before ++ g :: after ∧ before ⊆ n.gates.gates

variable {n : Network α} {gates : List Gate} {g : Gate}

omit [Scalar α] in
theorem Misses.cons (h : n.Misses gates g) {g' : Gate} (hg' : g' ∈ n.gates.gates) : n.Misses (g' :: gates) g := by
  obtain ⟨before, after, hgates, hbefore⟩ := h.first
  exact ⟨h.absent, g' :: before, after, congrArg (g' :: ·) hgates, List.cons_subset.mpr ⟨hg', hbefore⟩⟩

omit [Scalar α] in
theorem Misses.of_cons {g' : Gate} (h : n.Misses (g' :: gates) g) (hg' : g' ∈ n.gates.gates) : n.Misses gates g := by
  obtain ⟨before, after, hgates, hbefore⟩ := h.first
  cases before with
  | nil =>
    obtain ⟨rfl, -⟩ := List.cons.inj hgates
    exact absurd hg' h.absent
  | cons x before =>
    obtain ⟨-, hrest⟩ := List.cons.inj hgates
    exact ⟨h.absent, before, after, hrest, (List.cons_subset.mp hbefore).2⟩

/-- Looking gates up fails at the first one that is not there. -/
theorem mapM_unit_error_iff {e : Fault α} :
    gates.mapM n.unit = .error e ↔ ∃ g, n.Misses gates g ∧ e = .unknownGate (n.gateName g) := by
  induction gates with
  | nil =>
    refine iff_of_false (fun h => nomatch h) ?_
    intro ⟨g, hg, _⟩
    obtain ⟨before, after, hgates, -⟩ := hg.first
    cases before <;> cases hgates
  | cons g' rest ih =>
    rw [List.mapM_cons]
    by_cases hg' : g' ∈ n.gates.gates
    · obtain ⟨u, hu⟩ := GateMap.unit?_of_mem hg'
      have hrest : (do let v ← n.unit g'; let vs ← rest.mapM n.unit; pure (v :: vs)) = .error e ↔
          rest.mapM n.unit = .error e := by
        rw [unit_ok_iff.mpr hu]
        cases rest.mapM n.unit <;> simp [bind, Except.bind, pure, Except.pure]
      rw [hrest, ih]
      constructor
      · intro ⟨g, hg, he⟩
        exact ⟨g, hg.cons hg', he⟩
      · intro ⟨g, hg, he⟩
        exact ⟨g, hg.of_cons hg', he⟩
    · have hnone : n.gates.unit? g' = none := by
        cases hu : n.gates.unit? g' with
        | none => rfl
        | some u => exact absurd (GateMap.mem_of_unit? hu) hg'
      have hunit : n.unit g' = .error (.unknownGate (n.gateName g')) := by
        unfold unit
        rw [hnone]
      rw [hunit]
      constructor
      · intro h
        exact ⟨g', ⟨hg', [], rest, rfl, List.nil_subset _⟩, (Except.error.inj h).symm⟩
      · intro ⟨g, hg, he⟩
        obtain ⟨before, after, hgates, hbefore⟩ := hg.first
        cases before with
        | nil =>
          obtain ⟨rfl, -⟩ := List.cons.inj hgates
          rw [he]
          rfl
        | cons x before =>
          obtain ⟨rfl, -⟩ := List.cons.inj hgates
          exact absurd (hbefore List.mem_cons_self) hg'

end Network

namespace Sequencer

/-- A gate pattern cannot be made exactly if one of its gates is not there. -/
theorem makeGates_error_iff {n : Network α} (hdefault : defaultGates ⊆ n.gates.gates) {gates : List Gate} {e : Fault α} :
    makeGates n gates = .error e ↔ ∃ g, n.Misses gates g ∧ e = .unknownGate (n.gateName g) := by
  have hmake : makeGates n gates = .error e ↔ (defaultGates ++ gates).mapM n.unit = .error e := by
    unfold makeGates
    cases (defaultGates ++ gates).mapM n.unit <;> simp [bind, Except.bind, pure, Except.pure]
  have hmisses : ∀ {ds : List Gate} {g : Gate}, ds ⊆ n.gates.gates → (n.Misses (ds ++ gates) g ↔ n.Misses gates g) := by
    intro ds g hds
    induction ds with
    | nil => rfl
    | cons d ds ih =>
      obtain ⟨hd, hrest⟩ := List.cons_subset.mp hds
      rw [← ih hrest]
      exact ⟨fun h => h.of_cons hd, fun h => h.cons hd⟩
  rw [hmake, Network.mapM_unit_error_iff]
  exact exists_congr fun g => and_congr_left fun _ => hmisses hdefault

/-! ## What a refused call leaves -/

/-- A transit that is refused after it has claimed the layer of its condition: nobody has claimed the
layer before, and one of the gates of the new state is not there. -/
structure Strands (s : Sequencer α) (gates : List Gate) (old : ControlState α) (condition : Option Condition)
    (target : Option (ControlState α)) (e : Fault α) (later : Sequencer α) : Prop where
  checked : s.checkCondition old condition = .ok ()
  fresh : target = none
  missing : ∃ g, s.network.Misses gates g ∧ e = .unknownGate (s.network.gateName g)
  claimed : ∃ c, condition = some c ∧ s.keying.lookup c.layer = none ∧
    later = { s with keying := s.keying ++ [(c.layer, .select (s.hiddenBits old))] }

section

variable {n : Network α} {s later : Sequencer α} {old : ControlState α} {layer : LayerId} {keying : Keying} {e : Fault α}
  {condition : Option Condition} {target : Option (ControlState α)} {gates : List Gate}

theorem fails_claim_keeps (h : Fails (claim old layer keying) s e later) : later = s := by
  have hmatch := of_fails_get_bind h
  cases hlookup : s.keying.lookup layer with
  | none =>
    rw [hlookup] at hmatch
    exact absurd hmatch (sure_set _).not_fails
  | some earlier =>
    rw [hlookup] at hmatch
    dsimp only at hmatch
    split at hmatch
    · exact (of_fails_throw hmatch).2
    · exact absurd hmatch (sure_pure _).not_fails

theorem does_claim_cases {v : Unit} (h : Does (claim old layer keying) s v later) :
    (s.keying.lookup layer = some keying ∧ later = s) ∨
      (s.keying.lookup layer = none ∧ later = { s with keying := s.keying ++ [(layer, keying)] }) := by
  obtain ⟨s₁, s₂, hget, hmatch⟩ := does_bind h
  obtain ⟨rfl, rfl⟩ := does_get hget
  cases hlookup : s₂.keying.lookup layer with
  | none =>
    rw [hlookup] at hmatch
    exact .inr ⟨rfl, does_set hmatch⟩
  | some earlier =>
    rw [hlookup] at hmatch
    dsimp only at hmatch
    by_cases heq : earlier = keying
    · rw [if_neg fun hne => hne heq] at hmatch
      exact .inl ⟨congrArg some heq, (does_pure hmatch).2⟩
    · rw [if_pos heq] at hmatch
      exact absurd hmatch not_does_throw

theorem refused_dispatch (hdefault : defaultGates ⊆ s.network.gates.gates) {token : String}
    (h : Fails (dispatch old layer token) s e later) : later = s := by
  obtain ⟨p, hp⟩ := makeGates_of_subset hdefault (List.nil_subset s.network.gates.gates)
  rcases fails_of_dispatch hp h with ⟨-, hlater⟩ | hclaim
  · exact hlater
  · exact fails_claim_keeps hclaim

/-- No transit is recorded under a condition whose layer nobody has claimed. -/
theorem unrecorded_of_unclaimed (hs : Admitting n s) {c : Condition} (hlookup : s.keying.lookup c.layer = none) :
    ∀ t ∈ s.transits, t.key.condition ≠ some c := by
  intro t ht hcondition
  obtain ⟨source, hsource⟩ := hs.transits t ht
  rcases hsource.keying hcondition with hkeying | hkeying
  · rw [hlookup] at hkeying
    cases hkeying
  · rw [hlookup] at hkeying
    cases hkeying

/-- A transit that changes something before it is refused. -/
theorem strands_of_refused (hs : Admitting n s) (hdefault : defaultGates ⊆ s.network.gates.gates)
    (h : Fails (transit gates old condition target) s e later) (hne : later ≠ s) :
    Strands s gates old condition target e later := by
  rcases of_fails_lift_bind (of_fails_get_bind h) with ⟨-, hlater⟩ | ⟨v, hcheck, hbody⟩
  · exact absurd hlater hne
  cases condition with
  | none => exact absurd (fails_of_complete hbody).1 hne
  | some c =>
    rcases of_fails_bind (of_fails_get_bind hbody) with hclaim | ⟨v, t, hclaimed, hcomplete⟩
    · exact absurd (fails_claim_keeps hclaim) hne
    obtain ⟨hlater, hreason⟩ := fails_of_complete hcomplete
    rcases does_claim_cases hclaimed with ⟨-, ht⟩ | ⟨hlookup, ht⟩
    · exact absurd (hlater.trans ht) hne
    subst ht
    rcases hreason with ⟨-, x, hx, hkey⟩ | ⟨hfresh, herror⟩
    · exact absurd (congrArg TransitKey.condition hkey) (unrecorded_of_unclaimed hs hlookup x hx)
    · exact ⟨hcheck, hfresh, (makeGates_error_iff hdefault).mp herror, c, rfl, hlookup, hlater⟩

theorem fails_complete_missing (hunrecorded : s.find? (s.key old condition) = none)
    (hmake : makeGates s.network gates = .error e) : Fails (complete gates old condition none) s e s := by
  unfold Fails complete
  rw [run_get_bind, hunrecorded]
  dsimp only
  rw [hmake]
  rfl

theorem Strands.fails (h : Strands s gates old condition target e later) (hs : Admitting n s)
    (hdefault : defaultGates ⊆ s.network.gates.gates) : Fails (transit gates old condition target) s e later := by
  obtain ⟨hcheck, rfl, hmissing, c, rfl, hlookup, rfl⟩ := h
  have hclaim : Does (claim old c.layer (.select (s.hiddenBits old))) s ()
      { s with keying := s.keying ++ [(c.layer, .select (s.hiddenBits old))] } := by
    unfold Does claim
    rw [run_get_bind, hlookup]
    rfl
  have hunrecorded : s.find? (s.key old (some c)) = none := by
    cases hfind : s.find? (s.key old (some c)) with
    | none => rfl
    | some earlier =>
      obtain ⟨x, hx, hkey, -⟩ := (finds_of_find? hfind).recorded
      exact absurd (congrArg TransitKey.condition hkey) (unrecorded_of_unclaimed hs hlookup x hx)
  have hmake : makeGates s.network gates = .error e := (makeGates_error_iff hdefault).mpr hmissing
  unfold Fails transit
  rw [run_get_bind, run_checked hcheck]
  show (claim old c.layer (.select (s.hiddenBits old)) >>= fun _ => complete gates old (some c) none).run.run s = _
  rw [run_bind_of_does hclaim]
  exact fails_complete_missing hunrecorded hmake

/-- What the claim that was not taken back does to later calls: nobody can dispatch on the layer, and
only states with the hidden bits of the one that was refused can select on it. -/
theorem Strands.closes (h : Strands s gates old condition target e later) : ∃ c, condition = some c ∧
    ∀ state token, later.checkCondition state (some ⟨c.layer, token⟩) = .ok () →
      Fails (dispatch state c.layer token) later
        (.sharedCondition later.context (later.stateName state) (later.network.name c.layer)) later ∧
      (later.hiddenBits state ≠ later.hiddenBits old → ∀ gates target,
        Fails (transit gates state (some ⟨c.layer, token⟩) target) later
          (.sharedCondition later.context (later.stateName state) (later.network.name c.layer)) later) := by
  obtain ⟨-, -, -, c, hc, hlookup, hlater⟩ := h
  have hkeying : later.keying.lookup c.layer = some (.select (later.hiddenBits old)) := by
    rw [hlater]
    exact lookup_append_self hlookup _
  have hselects : Keying.select (later.hiddenBits old) ≠ .dispatch := fun h => nomatch h
  refine ⟨c, hc, fun state token hcheck => ⟨fails_dispatch_selected hcheck hkeying hselects, ?_⟩⟩
  intro hne gates target
  have hother : Keying.select (later.hiddenBits old) ≠ .select (later.hiddenBits state) :=
    fun heq => hne (Keying.select.inj heq).symm
  unfold Fails transit
  rw [run_get_bind, run_checked hcheck]
  exact (fails_claim_other state hkeying hother).bind

end

/-! ## Whatever was called -/

/-- What calls that are refused do to the sequencer: a dispatch nothing, and a transit nothing unless it
is refused after it has claimed the layer of its condition. -/
structure Refuses (s : Sequencer α) : Prop where
  dispatch : ∀ old layer token e later, Fails (dispatch old layer token) s e later → later = s
  transit : ∀ gates old condition target e later,
    (Fails (transit gates old condition target) s e later ∧ later ≠ s) ↔ Strands s gates old condition target e later

/-- A call that is refused leaves the sequencer as it was, with one exception. Whatever calls a
sequencer was given, a dispatch that is refused changes nothing, and a transit that is refused changes
something exactly if it passes the checks, asks for a new state with a gate that is not there, and is
the first to use the layer of its condition. Then the layer counts as selected on. -/
theorem refusals_of_calls {c : Config α} {built n : Network α} (hbuild : (Network.build c).value = .ok built)
    (hroom : c.registers.length ≤ 65522) (hbooks : built.Keeps (fun _ _ => False) n) (hsound : n.Sound)
    {given : List (ControlState α)} (hgiven : ∀ state ∈ given, Sized n state) (cs : List Call) :
    Refuses ((⟨.new n, given⟩ : Recording α).calls cs).sequencer := by
  have hbuilt := Network.builtFrom_of_build hbuild
  have hs := (Recording.admitted_of_build hbuild hbooks hsound hgiven cs).sequencer
  generalize ((⟨.new n, given⟩ : Recording α).calls cs).sequencer = s at hs
  have hdefault : defaultGates ⊆ s.network.gates.gates := by
    rw [hs.keeps.gates, hbooks.gates, hbuilt.gates]
    exact mem_default (hbuilt.counted hroom)
  refine ⟨fun old layer token e later h => refused_dispatch hdefault h, fun gates old condition target e later => ?_⟩
  constructor
  · intro ⟨h, hne⟩
    exact strands_of_refused hs hdefault h hne
  · intro h
    refine ⟨h.fails hs hdefault, fun heq => ?_⟩
    obtain ⟨c, -, -, hlater⟩ := h.claimed
    have hlength := congrArg (fun s : Sequencer α => s.keying.length) (heq.symm.trans hlater)
    simp at hlength

/-- A state that reads an operand. -/
def readsOperand : List Call := [
  .initial "start",
  .transit (Microcode.read op1) 0 none none]

/-- A transit from it to a state with a gate that no network has. -/
def missingGate : Call := .transit [.learn ip ip] 1 (some ⟨op1, "x"⟩) none

/-- The small network with a state that reads an operand. -/
def smallReader : Recording Fixed := (⟨.new smallNetwork, []⟩ : Recording Fixed).calls readsOperand

/-- On the small network the transit is refused, and changes something. -/
theorem small_refusal : Refuses smallReader.sequencer ∧ ∃ old ∈ smallReader.states, ∃ later,
    Fails (transit [.learn ip ip] old (some ⟨op1, "x"⟩) none) smallReader.sequencer (.unknownGate "(ip<-ip:l)") later ∧
      later ≠ smallReader.sequencer := by
  have hsound := (Network.builtFrom_of_build build_smallConfig).sound
  have hnone : ∀ state ∈ ([] : List (ControlState Fixed)), Sized smallNetwork state := fun _ h => (List.not_mem_nil h).elim
  have hrefuses : Refuses smallReader.sequencer :=
    refusals_of_calls build_smallConfig (by decide) (.refl _) hsound hnone readsOperand
  have hreads : ∃ old ∈ smallReader.states,
      (smallReader.sequencer.checkCondition old (some ⟨op1, "x"⟩)).toOption = some () ∧
      smallReader.sequencer.keying.lookup op1 = none ∧
      Gate.learn ip ip ∉ smallReader.sequencer.network.gates.gates ∧
      smallReader.sequencer.network.gateName (.learn ip ip) = "(ip<-ip:l)" := by
    decide +kernel
  obtain ⟨old, hold, hcheck, hlookup, habsent, hname⟩ := hreads
  have hmisses : smallReader.sequencer.network.Misses [.learn ip ip] (.learn ip ip) :=
    ⟨habsent, [], [], rfl, List.nil_subset _⟩
  have hchecked : smallReader.sequencer.checkCondition old (some ⟨op1, "x"⟩) = .ok () := by
    cases h : smallReader.sequencer.checkCondition old (some ⟨op1, "x"⟩) with
    | ok v => rfl
    | error e =>
      rw [h] at hcheck
      cases hcheck
  refine ⟨hrefuses, old, hold, _, (hrefuses.transit _ _ _ _ _ _).mpr
    ⟨hchecked, rfl, ⟨_, hmisses, ?_⟩, ⟨op1, "x"⟩, rfl, hlookup, rfl⟩⟩
  rw [hname]

/-- Over the real numbers too, the refused transit is not without effect: the state could dispatch on
the layer before, and cannot any more. -/
theorem refused_transit_closes_layer :
    (Network.build (smallConfig.image : Config ℝ)).value = .ok (smallNetwork.image Fixed.real) ∧
    ((⟨.new (smallNetwork.image Fixed.real), []⟩ : Recording ℝ).calls readsOperand).states.length = 2 ∧
    ((⟨.new (smallNetwork.image Fixed.real), []⟩ : Recording ℝ).calls (readsOperand ++ [missingGate])).states.length = 2 ∧
    ((⟨.new (smallNetwork.image Fixed.real), []⟩ : Recording ℝ).calls
      (readsOperand ++ [.dispatch 1 op1 "x"])).states.length = 3 ∧
    ((⟨.new (smallNetwork.image Fixed.real), []⟩ : Recording ℝ).calls
      (readsOperand ++ [missingGate, .dispatch 1 op1 "x"])).states.length = 2 := by
  have hlength : ∀ cs, ((⟨.new (smallNetwork.image Fixed.real), []⟩ : Recording ℝ).calls cs).states.length =
      ((⟨.new smallNetwork, []⟩ : Recording Fixed).calls cs).states.length := by
    intro cs
    rw [calls_real]
    exact List.length_map _
  rw [hlength, hlength, hlength, hlength]
  exact ⟨build_realConfig, by decide +kernel⟩

end Sequencer

end Engram
