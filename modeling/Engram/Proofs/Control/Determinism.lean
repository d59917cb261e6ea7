/-
  Engram.Proofs.Control.Determinism — one input, one target.

  Transits are told apart by their keys: the bits of the source state, gates included, and the
  condition. What is trained is the input, which holds the hidden vector of the source state and the
  pattern of the token. Two transits with one input have one key, unless their source states differ
  in the gates only or two tokens of a layer have one pattern (`AdmitsFrom.key_eq`). From one key on,
  the sequencer takes no second target (`taken`).

  A new state takes its hidden pattern from the code book, under a new name. If the name was given to
  a state before, that state's pattern is what it gets; then two states differ in the gates only, and
  one input is trained to two targets (`taken_name_retrains`).
-/

import Engram.Proofs.Control.Failing
import Engram.Proofs.Control.Realizing

namespace Engram

open LayerId

variable {α : Type} [Scalar α]

/-- Tokens of one layer that have one pattern are one token. -/
def Network.TellsApart (n : Network α) (condition condition' : Option Condition) : Prop :=
  ∀ c ∈ condition, ∀ d ∈ condition', c.layer = d.layer → n.tokenPattern c = n.tokenPattern d → c = d

namespace Sequencer

/-! ## What an input says about the source state and the condition -/

section

variable {n : Network α} {hidden hidden' input : Pattern α} {condition condition' : Option Condition}

theorem Joint.exists_input_eq (h : Joint n hidden condition input) : ∃ rest, input = hidden ++ rest := by
  cases condition with
  | none => exact ⟨_, h⟩
  | some c =>
    obtain ⟨-, p, -, hinput⟩ := h
    rw [hinput]
    exact exists_layered_eq conditions hidden

theorem Joint.hidden_eq (h : Joint n hidden condition input) (h' : Joint n hidden' condition' input)
    (hsize : hidden.size = hidden'.size) : hidden = hidden' := by
  obtain ⟨rest, hrest⟩ := h.exists_input_eq
  obtain ⟨rest', hrest'⟩ := h'.exists_input_eq
  exact (Array.append_inj (hrest.symm.trans hrest') hsize).1

/-- The block of the condition layer gives the pattern of the token away. -/
theorem Joint.tokenPattern_eq (hn : n.Sound) {c d : Condition} (h : Joint n hidden (some c) input)
    (h' : Joint n hidden (some d) input) (hlayer : c.layer = d.layer) : n.tokenPattern c = n.tokenPattern d := by
  obtain ⟨hmem, p, hp, hinput⟩ := h
  obtain ⟨-, q, hq, hinput'⟩ := h'
  rw [← hlayer] at hq hinput'
  have hpsize : p.size = n.size c.layer := (hn c.layer).sized _ _ hp
  have hqsize : q.size = n.size c.layer := (hn c.layer).sized _ _ hq
  have hblock : p = q := by
    refine Pattern.ext_entry (hpsize.trans hqsize.symm) fun i hi => ?_
    rw [hpsize] at hi
    have hentry := entry_layered_block hpsize hmem hidden hi
    have hentry' := entry_layered_block hqsize hmem hidden hi
    rw [if_pos rfl] at hentry hentry'
    rw [← hentry, ← hentry']
    exact congrArg (Pattern.entry · _) (hinput.symm.trans hinput')
  rw [Network.tokenPattern, Network.tokenPattern, ← hlayer, hp, hq, hblock]

theorem Joint.condition_eq (hn : n.Sound) (h : Joint n hidden condition input) (h' : Joint n hidden condition' input)
    (hlayer : condition.map (·.layer) = condition'.map (·.layer)) (hapart : n.TellsApart condition condition') :
    condition = condition' := by
  cases condition with
  | none =>
    cases condition' with
    | none => rfl
    | some d => cases hlayer
  | some c =>
    cases condition' with
    | none => cases hlayer
    | some d =>
      have hlayer' : c.layer = d.layer := Option.some.inj hlayer
      exact congrArg some (hapart c rfl d rfl hlayer' (h.tokenPattern_eq hn h' hlayer'))

end

variable {n : Network α} {s later : Sequencer α} {t u : Transit α} {old : ControlState α} {condition : Option Condition}

/-- A state that a transit with the same input would leave, with the gates of the source state, has
the key of the transit. -/
theorem AdmitsFrom.key_eq {source : ControlState α} (h : AdmitsFrom n s t source) (hs : Admitting n s)
    (hgo : n.size go = n.gates.size) (hsized : Sized n old) (hkeyed : Keyed n old condition) {now : Network α}
    (hnow : s.network.Keeps (fun l _ => l ≠ gh) now) (hsound : now.Sound) (hjoint : Joint now old.hidden condition t.input)
    (hgates : s.gateBits old = t.key.gates) (hapart : now.TellsApart t.key.condition condition) :
    s.key old condition = t.key := by
  have hsource := h.joint.of_keeps hnow
  have hhidden : old.hidden = source.hidden := hjoint.hidden_eq hsource (hsized.hidden.trans h.sized.hidden.symm)
  have hbits : (n.layer go).bits old.gates = (n.layer go).bits source.gates := by
    rw [h.key] at hgates
    have hact : ∀ state : ControlState α, s.gateBits state = (n.layer go).bits state.gates := fun state =>
      congrArg (·.bits state.gates) (hs.keeps.activator go)
    exact (hact old).symm.trans (hgates.trans (hact source))
  have hlayer := Keyed.map_layer_eq h.keyed hkeyed h.sized hsized hgo hbits.symm
  rw [hhidden] at hjoint
  have hcondition := hsource.condition_eq hsound hjoint hlayer hapart
  calc s.key old condition = ⟨s.hiddenBits old, s.gateBits old, condition⟩ := rfl
    _ = ⟨s.hiddenBits source, t.key.gates, t.key.condition⟩ := by rw [hgates, hcondition, hiddenBits, hiddenBits, hhidden]
    _ = t.key := by rw [h.key]; rfl

/-! ## What is answered about a key that is recorded -/

/-- No state dispatches on the layer of the condition. -/
def Selects (s : Sequencer α) (condition : Option Condition) : Prop :=
  ∀ c ∈ condition, s.keying.lookup c.layer ≠ some .dispatch

/-- What the sequencer answers about a state and a condition that a transit was recorded for: it
takes no second target, and nothing changes. -/
structure Taken (s : Sequencer α) (t : Transit α) (old : ControlState α) (condition : Option Condition) : Prop where
  same : s.Selects condition → ∀ gates target, s.sameState t.target target = true →
    (transit gates old condition (some target)).run.run s = (.ok t.target, s)
  other : s.Selects condition → ∀ gates target, (∀ x ∈ target, s.sameState t.target x = false) →
    (transit gates old condition target).run.run s =
      (.error (.transitConflict s.context (s.stateName old) (s.conditionName condition)), s)
  settled : condition = none → ∀ ticks, (settle old (ticks + 1)).run.run s =
    (.error (.transitConflict s.context (s.stateName old) (s.conditionName condition)), s)
  dispatched : ∀ c ∈ condition, s.keying.lookup c.layer = some .dispatch →
    (dispatch old c.layer c.token).run.run s = (.ok t.target, s)
  mixed : ∀ c ∈ condition,
    (s.keying.lookup c.layer = some .dispatch → ∀ gates target, (transit gates old condition target).run.run s =
      (.error (.sharedCondition s.context (s.stateName old) (s.network.name c.layer)), s)) ∧
    (s.keying.lookup c.layer ≠ some .dispatch → (dispatch old c.layer c.token).run.run s =
      (.error (.sharedCondition s.context (s.stateName old) (s.network.name c.layer)), s))

section

variable {γ : Type} {layer : LayerId} {keying earlier : Keying} {f : Sequencer α → Sequencing α γ}

omit [Scalar α] in
theorem run_get_bind (f : Sequencer α → Sequencing α γ) (s : Sequencer α) : (get >>= f).run.run s = (f s).run.run s := rfl

omit [Scalar α] in
theorem run_bind_of_does {β : Type} {x : Sequencing α β} {b : β} (h : Does x s b later) (rest : β → Sequencing α γ) :
    (x >>= rest).run.run s = (rest b).run.run later := by
  have hbind : (x >>= rest).run.run s = (ExceptT.bindCont rest (x.run.run s).1).run (x.run.run s).2 := rfl
  rw [hbind, show x.run.run s = (.ok b, later) from h]
  rfl

/-- What follows a check that passes. -/
theorem run_checked {v : Unit} (hcheck : s.checkCondition old condition = .ok v) (rest : Unit → Sequencing α γ) :
    (liftM (s.checkCondition old condition) >>= rest : Sequencing α γ).run.run s = (rest v).run.run s := by
  rw [hcheck]
  rfl

theorem does_claim_again (old : ControlState α) (h : s.keying.lookup layer = some keying) :
    Does (claim old layer keying) s () s := by
  unfold Does claim
  rw [run_get_bind, h]
  dsimp only
  rw [if_neg fun hne => hne rfl]
  rfl

theorem fails_claim_other (old : ControlState α) (h : s.keying.lookup layer = some earlier) (hne : earlier ≠ keying) :
    Fails (claim old layer keying) s (.sharedCondition s.context (s.stateName old) (s.network.name layer)) s := by
  unfold Fails claim
  rw [run_get_bind, h]
  dsimp only
  rw [if_pos hne]
  rfl

theorem does_complete_same (hfound : s.find? (s.key old condition) = some t) (gates : List Gate) {target : ControlState α}
    (hsame : s.sameState t.target target = true) : Does (complete gates old condition (some target)) s t.target s := by
  unfold Does complete
  rw [run_get_bind, hfound]
  dsimp only
  rw [if_pos hsame]
  rfl

theorem fails_complete_other (hfound : s.find? (s.key old condition) = some t) (gates : List Gate)
    {target : Option (ControlState α)} (hother : ∀ x ∈ target, s.sameState t.target x = false) :
    Fails (complete gates old condition target) s
      (.transitConflict s.context (s.stateName old) (s.conditionName condition)) s := by
  unfold Fails complete
  rw [run_get_bind, hfound]
  cases target with
  | none => rfl
  | some x =>
    dsimp only
    rw [hother x rfl]
    rfl

theorem run_transit (hcheck : s.checkCondition old condition = .ok ())
    (hreader : ∀ c ∈ condition, s.keying.lookup c.layer = some (.select (s.hiddenBits old))) (gates : List Gate)
    (target : Option (ControlState α)) :
    (transit gates old condition target).run.run s = (complete gates old condition target).run.run s := by
  unfold transit
  rw [run_get_bind, run_checked hcheck]
  cases condition with
  | none => rfl
  | some c =>
    show (claim old c.layer (.select (s.hiddenBits old)) >>= fun _ => complete gates old (some c) target).run.run s = _
    rw [run_bind_of_does (does_claim_again old (hreader c rfl))]

theorem fails_transit_dispatched {c : Condition} (hcheck : s.checkCondition old (some c) = .ok ())
    (hkeying : s.keying.lookup c.layer = some .dispatch) (gates : List Gate) (target : Option (ControlState α)) :
    Fails (transit gates old (some c) target) s
      (.sharedCondition s.context (s.stateName old) (s.network.name c.layer)) s := by
  unfold Fails transit
  rw [run_get_bind, run_checked hcheck]
  show (claim old c.layer (.select (s.hiddenBits old)) >>= fun _ => complete gates old (some c) target).run.run s = _
  have hne : Keying.dispatch ≠ .select (s.hiddenBits old) := fun h => nomatch h
  exact (fails_claim_other old hkeying hne).bind

theorem run_dispatch {token : String} (hcheck : s.checkCondition old (some ⟨layer, token⟩) = .ok ())
    (hkeying : s.keying.lookup layer = some .dispatch) (hfound : s.find? (s.key old (some ⟨layer, token⟩)) = some t) :
    Does (dispatch old layer token) s t.target s := by
  unfold Does dispatch
  dsimp only
  rw [run_get_bind, run_checked hcheck, run_bind_of_does (does_claim_again old hkeying), run_get_bind, hfound]
  rfl

theorem fails_dispatch_selected {token : String} (hcheck : s.checkCondition old (some ⟨layer, token⟩) = .ok ())
    (hkeying : s.keying.lookup layer = some earlier) (hne : earlier ≠ .dispatch) :
    Fails (dispatch old layer token) s (.sharedCondition s.context (s.stateName old) (s.network.name layer)) s := by
  unfold Fails dispatch
  dsimp only
  rw [run_get_bind, run_checked hcheck]
  exact (fails_claim_other old hkeying hne).bind

end

theorem find?_of_mem (hs : Admitting n s) (ht : t ∈ s.transits) : s.find? t.key = some t := by
  obtain ⟨u, hfind⟩ : ∃ u, s.find? t.key = some u :=
    Option.isSome_iff_exists.mp (List.find?_isSome.mpr ⟨t, ht, decide_eq_true rfl⟩)
  have hu := List.mem_of_find?_eq_some hfind
  have hfound := List.find?_some hfind
  have hkey : u.key = t.key := of_decide_eq_true hfound
  have heq : u = t := List.inj_on_of_nodup_map hs.keys hu ht hkey
  exact hfind.trans (congrArg some heq)

/-- How the layer of a recorded condition is used. -/
theorem AdmitsFrom.keying {source : ControlState α} (h : AdmitsFrom n s t source) {c : Condition}
    (hc : t.key.condition = some c) : s.keying.lookup c.layer = some .dispatch ∨
      s.keying.lookup c.layer = some (.select t.key.hidden) := by
  have hadmits := h.admits
  rw [hc] at hadmits
  cases hadmits with
  | dispatch keying => exact .inl keying
  | select reader =>
    rw [h.key]
    exact .inr reader

/-- The sequencer takes no second target for a key. -/
theorem taken {source : ControlState α} (h : AdmitsFrom n s t source) (hs : Admitting n s) (ht : t ∈ s.transits)
    (hkey : s.key old condition = t.key) (hcheck : s.checkCondition old condition = .ok ()) : Taken s t old condition := by
  have hfound : s.find? (s.key old condition) = some t := by
    rw [hkey]
    exact find?_of_mem hs ht
  have hhidden : s.hiddenBits old = t.key.hidden := congrArg TransitKey.hidden hkey
  have hcondition : t.key.condition = condition := (congrArg TransitKey.condition hkey).symm
  have hreader : s.Selects condition → ∀ c ∈ condition, s.keying.lookup c.layer = some (.select (s.hiddenBits old)) := by
    intro hselects c hc
    rw [hhidden]
    exact (h.keying (hcondition.trans hc)).resolve_left (hselects c hc)
  have hother : s.Selects condition → ∀ gates target, (∀ x ∈ target, s.sameState t.target x = false) →
      Fails (transit gates old condition target) s
        (.transitConflict s.context (s.stateName old) (s.conditionName condition)) s := by
    intro hselects gates target htarget
    unfold Fails
    rw [run_transit hcheck (hreader hselects)]
    exact fails_complete_other hfound gates htarget
  refine ⟨fun hselects gates target hsame => ?_, hother, fun hnone ticks => ?_, fun c hc hkeying => ?_,
    fun c hc => ⟨fun hkeying gates target => ?_, fun hkeying => ?_⟩⟩
  · rw [run_transit hcheck (hreader hselects)]
    exact does_complete_same hfound gates hsame
  · subst hnone
    exact (hother (fun c hc => (Option.not_mem_none c hc).elim) [] none
      (fun x hx => (Option.not_mem_none x hx).elim)).bind
  · obtain rfl : condition = some c := hc
    exact run_dispatch hcheck hkeying hfound
  · obtain rfl : condition = some c := hc
    exact fails_transit_dispatched hcheck hkeying gates target
  · obtain rfl : condition = some c := hc
    exact fails_dispatch_selected hcheck ((h.keying hcondition).resolve_left hkeying) fun h => nomatch h

/-! ## Whatever is called -/

/-- One input has one target. Whatever calls a sequencer was given, two transits with one input are
one transit, and a call that would train that input again is refused or returns the target that is
recorded, unless the source states differ in their gates or two tokens of a layer have one pattern. -/
theorem deterministic_of_calls {c : Config α} {built n : Network α} (hbuild : (Network.build c).value = .ok built)
    (hbooks : built.Keeps (fun _ _ => False) n) (hsound : n.Sound) {given : List (ControlState α)}
    (hgiven : ∀ state ∈ given, Sized n state) (cs : List Call) :
    (∀ t ∈ ((⟨.new n, given⟩ : Recording α).calls cs).sequencer.transits,
      ∀ u ∈ ((⟨.new n, given⟩ : Recording α).calls cs).sequencer.transits, t.input = u.input →
        t.key.hidden = u.key.hidden ∧ (t.key.gates = u.key.gates →
          ((⟨.new n, given⟩ : Recording α).calls cs).sequencer.network.TellsApart t.key.condition u.key.condition →
          t = u)) ∧
    ∀ t ∈ ((⟨.new n, given⟩ : Recording α).calls cs).sequencer.transits, ∀ old condition later, Sized n old →
      ((⟨.new n, given⟩ : Recording α).calls cs).sequencer.checkCondition old condition = .ok () →
      Does (jointInput old condition) ((⟨.new n, given⟩ : Recording α).calls cs).sequencer t.input later →
      ((⟨.new n, given⟩ : Recording α).calls cs).sequencer.gateBits old = t.key.gates →
      later.network.TellsApart t.key.condition condition →
      Taken ((⟨.new n, given⟩ : Recording α).calls cs).sequencer t old condition := by
  have hbuilt := Network.builtFrom_of_build hbuild
  have hgo : n.size go = n.gates.size := by rw [hbooks.size, hbooks.gates, hbuilt.size_go]
  have hs := (Recording.admitted_of_build hbuild hbooks hsound hgiven cs).sequencer
  generalize ((⟨.new n, given⟩ : Recording α).calls cs).sequencer = s at hs
  refine ⟨fun t ht u hu hinput => ?_, fun t ht old condition later hsized hcheck hdoes hgates hapart => ?_⟩
  · obtain ⟨source, hsource⟩ := hs.transits t ht
    obtain ⟨source', hsource'⟩ := hs.transits u hu
    have hjoint := hsource'.joint
    rw [← hinput] at hjoint
    have hhidden : source.hidden = source'.hidden :=
      hsource.joint.hidden_eq hjoint (hsource.sized.hidden.trans hsource'.sized.hidden.symm)
    refine ⟨?_, fun hgates hapart => ?_⟩
    · rw [hsource.key, hsource'.key]
      exact congrArg ((s.network.layer gh).bits ·) hhidden
    · have hgates' : s.gateBits source' = t.key.gates := by
        rw [hgates, hsource'.key]
        rfl
      have hkey := hsource.key_eq hs hgo hsource'.sized hsource'.keyed (.refl _) hs.sound hjoint hgates' hapart
      exact List.inj_on_of_nodup_map hs.keys ht hu (hkey.symm.trans hsource'.key.symm)
  · obtain ⟨source, hsource⟩ := hs.transits t ht
    have hkeyed := keyed_of_checkCondition hs.keeps hcheck
    obtain ⟨hkeeps, hjoint, -, -⟩ := does_jointInput hs.numbered hkeyed.layer hdoes
    obtain ⟨input, later', hdoes', -, -, hsound', -⟩ := exists_does_jointInput s old condition
    have heq : later' = later := congrArg Prod.snd (hdoes'.symm.trans hdoes)
    have hlater : later.network.Sound := heq ▸ hsound' hs.sound
    exact taken hsource hs ht (hsource.key_eq hs hgo hsized hkeyed hkeeps hlater hjoint hgates hapart) hcheck

/-- A state, and a transit from it to a new one. -/
def oneTransit : List Call := [
  .initial "start",
  .transit [] 0 none none]

/-- The small network takes no second target for it. -/
theorem second_target_refused :
    ∃ t ∈ ((⟨.new smallNetwork, []⟩ : Recording Fixed).calls oneTransit).sequencer.transits,
      ∃ old ∈ ((⟨.new smallNetwork, []⟩ : Recording Fixed).calls oneTransit).states,
        Taken ((⟨.new smallNetwork, []⟩ : Recording Fixed).calls oneTransit).sequencer t old none := by
  have hsound := (Network.builtFrom_of_build build_smallConfig).sound
  have hnone : ∀ state ∈ ([] : List (ControlState Fixed)), Sized smallNetwork state := fun _ h => (List.not_mem_nil h).elim
  obtain ⟨-, htaken⟩ := deterministic_of_calls build_smallConfig (.refl _) hsound hnone oneTransit
  have hadmitted := Recording.admitted_of_build build_smallConfig (.refl _) hsound hnone oneTransit
  have hrecorded : ∃ t ∈ ((⟨.new smallNetwork, []⟩ : Recording Fixed).calls oneTransit).sequencer.transits,
      ∃ old ∈ ((⟨.new smallNetwork, []⟩ : Recording Fixed).calls oneTransit).states,
        (((⟨.new smallNetwork, []⟩ : Recording Fixed).calls oneTransit).sequencer.checkCondition old none).toOption =
          some () ∧
        t.input = old.hidden ++ Pattern.zero
          (conditionSize ((⟨.new smallNetwork, []⟩ : Recording Fixed).calls oneTransit).sequencer.network) ∧
        ((⟨.new smallNetwork, []⟩ : Recording Fixed).calls oneTransit).sequencer.gateBits old = t.key.gates ∧
        t.key.condition = none := by
    decide +kernel
  obtain ⟨t, ht, old, hold, hcheck, hinput, hgates, hcondition⟩ := hrecorded
  refine ⟨t, ht, old, hold, htaken t ht old none ((⟨.new smallNetwork, []⟩ : Recording Fixed).calls oneTransit).sequencer
    (hadmitted.states old hold) ?_ ?_ hgates fun c hc => ?_⟩
  · cases h : ((⟨.new smallNetwork, []⟩ : Recording Fixed).calls oneTransit).sequencer.checkCondition old none with
    | ok v => rfl
    | error e =>
      rw [h] at hcheck
      cases hcheck
  · rw [hinput]
    rfl
  · rw [hcondition] at hc
    exact (Option.not_mem_none c hc).elim

/-- A state with the name that the next new state gets, a transit to that one, which opens one gate
more, and a transit on from there. -/
def takenName : List Call := [
  .initial "control.1",
  .transit [.copy ip ip] 0 none none,
  .transit [] 1 none none]

theorem takenName_recorded :
    ((⟨.new smallNetwork, []⟩ : Recording Fixed).calls takenName).states.length = 3 ∧
    ∃ t ∈ ((⟨.new smallNetwork, []⟩ : Recording Fixed).calls takenName).sequencer.transits,
      ∃ u ∈ ((⟨.new smallNetwork, []⟩ : Recording Fixed).calls takenName).sequencer.transits, t.input = u.input ∧
        ((⟨.new smallNetwork, []⟩ : Recording Fixed).calls takenName).sequencer.hiddenBits t.target ≠
          ((⟨.new smallNetwork, []⟩ : Recording Fixed).calls takenName).sequencer.hiddenBits u.target := by
  decide +kernel

/-- Over the real numbers too, every one of these calls succeeds, and two transits with one input lead
to states with different hidden bits. -/
theorem taken_name_retrains :
    (Network.build (smallConfig.image : Config ℝ)).value = .ok (smallNetwork.image Fixed.real) ∧
    ((⟨.new (smallNetwork.image Fixed.real), []⟩ : Recording ℝ).calls takenName).states.length = takenName.length ∧
    ∃ t ∈ ((⟨.new (smallNetwork.image Fixed.real), []⟩ : Recording ℝ).calls takenName).sequencer.transits,
      ∃ u ∈ ((⟨.new (smallNetwork.image Fixed.real), []⟩ : Recording ℝ).calls takenName).sequencer.transits,
        t.input = u.input ∧
        ((⟨.new (smallNetwork.image Fixed.real), []⟩ : Recording ℝ).calls takenName).sequencer.hiddenBits t.target ≠
          ((⟨.new (smallNetwork.image Fixed.real), []⟩ : Recording ℝ).calls takenName).sequencer.hiddenBits u.target := by
  have hbuilt := Network.builtFrom_of_build build_smallConfig
  have hadmitted := (Recording.admitted_of_build build_smallConfig (.refl _) hbuilt.sound
    (fun _ h => (List.not_mem_nil h).elim) takenName).sequencer
  obtain ⟨hstates, t, ht, u, hu, hinput, hbits⟩ := takenName_recorded
  rw [calls_real]
  generalize (⟨.new smallNetwork, []⟩ : Recording Fixed).calls takenName = r at *
  have himage : ∀ state : ControlState Fixed, (r.sequencer.image Fixed.real).hiddenBits (state.image Fixed.real) =
      r.sequencer.hiddenBits state := hiddenBits_image Fixed.embeds_real ((hbuilt.standard rfl).of_keeps hadmitted.keeps)
  refine ⟨build_realConfig, (List.length_map _).trans hstates, t.image Fixed.real, List.mem_map_of_mem ht,
    u.image Fixed.real, List.mem_map_of_mem hu, congrArg (Array.map Fixed.real) hinput, ?_⟩
  exact fun heq => hbits ((himage t.target).symm.trans (heq.trans (himage u.target)))

end Sequencer

end Engram
