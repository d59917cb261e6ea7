/-
  Engram.Proofs.Machine.Reading — what a transit trains is what the runtime reads.

  A transit is trained on the hidden pattern of its source state and on the block of its condition
  layer. At run time the hidden layer sums what comes through the gates that the source state
  opens. The sequencer refuses a transit unless these gates agree with its condition, and the
  default gates are open in every state, so the sums are over the blocks that were trained,
  whatever was called (`trained_is_read`).

  The gates into the gate layer are not looked at. They agree as well if whoever lists gates lists
  those of a condition layer in pairs, as the instruction set does; a list with one gate of the
  pair is accepted (`unread_gate_accepted`).
-/

import Engram.Proofs.Control.Realizing
import Engram.Proofs.Machine.Control

namespace Engram

open LayerId

variable {α : Type} [Scalar α]

namespace Sequencer

/-! ## Where gate patterns come from -/

/-- The pattern opens the default gates and those of a list that is allowed. -/
def Listed (n : Network α) (allowed : List Gate → Prop) (p : Pattern α) : Prop := ∃ gates, allowed gates ∧ n.Opens p gates

/-- The gate patterns of recorded transits come from lists that are allowed. -/
structure Wired (n : Network α) (allowed : List Gate → Prop) (s : Sequencer α) : Prop where
  keeps : n.Keeps (fun l _ => l ≠ gh) s.network
  targets : ∀ t ∈ s.transits, Listed n allowed t.target.gates
  sources : ∀ t ∈ s.transits, ∃ p, Listed n allowed p ∧ t.key.gates = (n.activator go).bits p

/-- The gates that a call lists. -/
def Call.gateList : Call → List Gate
  | .transit gates _ _ _ => gates
  | _ => []

section

variable {n : Network α} {allowed : List Gate → Prop} {old target : ControlState α} {condition : Option Condition}

theorem Wired.of_network {s : Sequencer α} (h : Wired n allowed s) {network : Network α}
    (hkeeps : s.network.Keeps (fun l _ => l ≠ gh) network) : Wired n allowed { s with network } :=
  ⟨h.keeps.trans hkeeps, h.targets, h.sources⟩

theorem stable_wired : Stable (Wired n allowed) := ⟨fun h hkeeps => h.of_network hkeeps, fun h _ _ _ _ _ => { h with }⟩

theorem wires_claim (old : ControlState α) (layer : LayerId) (keying : Keying) :
    Secures (Wired n allowed) (claim old layer keying) fun _ => True := by
  refine Secures.get.bind fun s h => ?_
  cases s.keying.lookup layer with
  | none => exact .set { h with }
  | some earlier =>
    dsimp only
    split
    · exact .throw _
    · exact .pure trivial

theorem wires_record (hold : Listed n allowed old.gates) (htarget : Listed n allowed target.gates) :
    Secures (Wired n allowed) (record old condition target) fun state => Listed n allowed state.gates := by
  refine (stable_wired.jointInput old condition).bind fun input _ => (Secures.modify fun s h => ?_).bind fun _ _ => .pure htarget
  refine ⟨h.keeps, fun t ht => ?_, fun t ht => ?_⟩
  · rcases List.mem_append.mp ht with ht | ht
    · exact h.targets t ht
    · rw [List.mem_singleton.mp ht]
      exact htarget
  · rcases List.mem_append.mp ht with ht | ht
    · exact h.sources t ht
    · rw [List.mem_singleton.mp ht]
      exact ⟨old.gates, hold, congrArg (·.bits old.gates) (h.keeps.activator go)⟩

variable (hgo : n.size go = n.gates.size)
include hgo

theorem listed_of_makeGates {s : Sequencer α} (h : Wired n allowed s) {gates : List Gate} (hgates : allowed gates)
    {p : Pattern α} (hp : makeGates s.network gates = .ok p) : Listed n allowed p := by
  rw [makeGates_keeps h.keeps] at hp
  exact ⟨gates, hgates, Network.opens_makeGates hgo hp⟩

theorem wires_complete {gates : List Gate} (hgates : allowed gates) (hold : Listed n allowed old.gates)
    {target : Option (ControlState α)} (htarget : ∀ t ∈ target, Listed n allowed t.gates) :
    Secures (Wired n allowed) (complete gates old condition target) fun state => Listed n allowed state.gates := by
  refine Secures.get.bind fun s hs => ?_
  rcases hfind : s.find? (s.key old condition) with _ | earlier
  · cases target with
    | some target => exact wires_record hold (htarget target rfl)
    | none =>
      exact Secures.bind (.lift fun p hp => listed_of_makeGates hgo hs hgates hp) fun p (hp : Listed n allowed p) =>
        stable_wired.freshHidden.bind fun hidden _ => wires_record hold hp
  · cases target with
    | some target =>
      dsimp only
      split
      · exact .pure (hs.targets earlier (List.mem_of_find?_eq_some hfind))
      · exact .throw _
    | none => exact .throw _

theorem wires_transit {gates : List Gate} (hgates : allowed gates) (hold : Listed n allowed old.gates)
    {target : Option (ControlState α)} (htarget : ∀ t ∈ target, Listed n allowed t.gates) :
    Secures (Wired n allowed) (transit gates old condition target) fun state => Listed n allowed state.gates := by
  have hcomplete : Secures (Wired n allowed) (complete gates old condition target) fun state => Listed n allowed state.gates :=
    wires_complete hgo hgates hold htarget
  refine Secures.get.bind fun s _ => (Secures.lift fun _ _ => trivial).bind fun _ _ => ?_
  cases condition with
  | none => exact hcomplete
  | some c => exact Secures.get.bind fun t _ => (wires_claim old c.layer _).bind fun _ _ => hcomplete

variable (hnil : allowed [])
include hnil

theorem wires_dispatch (hold : Listed n allowed old.gates) (layer : LayerId) (token : String) :
    Secures (Wired n allowed) (dispatch old layer token) fun state => Listed n allowed state.gates := by
  refine Secures.get.bind fun s _ => (Secures.lift fun _ _ => trivial).bind fun _ _ =>
    (wires_claim old layer _).bind fun _ _ => Secures.get.bind fun t ht => ?_
  rcases hfind : t.find? (t.key old (some ⟨layer, token⟩)) with _ | earlier
  · refine (stable_wired.offset layer).bind fun offset _ => (stable_wired.code _).bind fun code _ => Secures.get.bind fun u hu =>
      Secures.bind (.lift fun p hp => listed_of_makeGates hgo hu hnil hp) fun p (hp : Listed n allowed p) =>
        stable_wired.freshName.bind fun name _ => ?_
    exact (stable_wired.nameState _ name).bind fun _ _ => wires_record hold hp
  · exact .pure (ht.targets earlier (List.mem_of_find?_eq_some hfind))

theorem wires_initial (name : String) :
    Secures (Wired n allowed) (initial name) fun state => Listed n allowed state.gates :=
  Secures.get.bind fun _ hs => Secures.bind (.lift fun _ hp => listed_of_makeGates hgo hs hnil hp)
    fun p (hp : Listed n allowed p) => stable_wired.freshHidden.bind fun _ _ => (stable_wired.nameState _ name).bind fun _ _ => .pure hp

theorem wires_settle (hold : Listed n allowed old.gates) (ticks : Nat) :
    Secures (Wired n allowed) (settle old ticks) fun state => Listed n allowed state.gates := by
  induction ticks generalizing old with
  | zero => exact .pure hold
  | succ ticks ih =>
    exact (wires_transit hgo hnil hold fun t ht => (Option.not_mem_none t ht).elim).bind fun next hnext => ih hnext

theorem wires_perform {states : List (ControlState α)} (hstates : ∀ state ∈ states, Listed n allowed state.gates) (c : Call)
    (hc : allowed c.gateList) :
    Secures (Wired n allowed) (c.perform states) fun states => ∀ state ∈ states, Listed n allowed state.gates := by
  have hlisted : ∀ {i : Nat} {state : ControlState α}, states[i]? = some state → Listed n allowed state.gates := fun h =>
    hstates _ (List.mem_of_getElem? h)
  have hreturn : ∀ {x : Sequencing α (ControlState α)},
      (Secures (Wired n allowed) x fun state => Listed n allowed state.gates) →
      Secures (Wired n allowed) (do return states ++ [← x]) fun states => ∀ state ∈ states, Listed n allowed state.gates := by
    intro x hx
    refine hx.bind fun next hnext => .pure fun state hstate => ?_
    rcases List.mem_append.mp hstate with h | h
    · exact hstates state h
    · exact List.mem_singleton.mp h ▸ hnext
  cases c with
  | context name => exact (stable_wired.setContext name).bind fun _ _ => .pure hstates
  | initial name => exact hreturn (wires_initial hgo hnil name)
  | transit gates old condition target =>
    simp only [Call.perform]
    split
    next htarget =>
      exact hreturn (wires_transit hgo hc (hlisted ‹_›) fun t ht => (exists_of_mapM htarget ht).elim fun _ => hlisted)
    · exact .pure hstates
  | dispatch old layer token =>
    simp only [Call.perform]
    split
    next hold => exact hreturn (wires_dispatch hgo hnil (hlisted hold) layer token)
    · exact .pure hstates
  | settle old ticks =>
    simp only [Call.perform]
    split
    next hold => exact hreturn (wires_settle hgo hnil (hlisted hold) ticks)
    · exact .pure hstates
  | label state name =>
    simp only [Call.perform]
    split
    next hstate => exact (stable_wired.nameState _ name).bind fun _ _ => .pure hstates
    · exact .pure hstates

/-- Whatever is called, gate patterns come from lists that are allowed if those of the calls are. -/
theorem wired_calls {r : Recording α} (h : Wired n allowed r.sequencer)
    (hstates : ∀ state ∈ r.states, Listed n allowed state.gates) {cs : List Call} (hcs : ∀ c ∈ cs, allowed c.gateList) :
    Wired n allowed (r.calls cs).sequencer := by
  induction cs generalizing r with
  | nil => exact h
  | cons c cs ih =>
    obtain ⟨h₁, h₂⟩ := wires_perform hgo hnil hstates c (hcs c List.mem_cons_self) r.sequencer h
    have hrest : ∀ c ∈ cs, allowed c.gateList := fun c hc => hcs c (List.mem_cons_of_mem _ hc)
    show Wired n allowed ((r.call c).calls cs).sequencer
    unfold Recording.call
    rcases hrun : (c.perform r.states).run.run r.sequencer with ⟨e | states, s⟩
    · rw [hrun] at h₁
      exact ih h₁ hstates hrest
    · rw [hrun] at h₁ h₂
      exact ih h₁ (h₂ states rfl) hrest

end

end Sequencer

/-! ## What a layer reads -/

/-- What a layer that forgets its activity takes up from the given layers. -/
def Machine.summed (m : Machine α) (l : LayerId) (sources : List LayerId) : Pattern α :=
  sources.foldl (fun sum source =>
    match m.weights[(⟨l, source⟩ : Pathway)]? with
    | some c => sum.add (c.drive (m.active source))
    | none => sum) (Pattern.zero (m.network.size l))

namespace Sequencer

/-- In the source of a transit a control layer reads what the transit was trained on: the gates from
the condition layers are open as the transit is keyed, and a tick sums what comes from the hidden
layer and from the layer of the condition. -/
structure Reads (n : Network α) (l : LayerId) (old : ControlState α) (condition : Option Condition) : Prop where
  gates : ∀ source ∈ conditions, Gate.copy l source ∈ n.openGates old.gates ↔ ∃ c ∈ condition, c.layer = source
  sums : ∀ m : Machine α, n.Keeps (fun _ _ => False) m.network → m.active go = old.gates →
    m.input m.openGates l = m.summed l (gh :: (condition.map (·.layer)).toList)

section

variable {n : Network α} {l : LayerId} {old : ControlState α} {condition : Option Condition}

theorem openGates_of_bits {p q : Pattern α} (h : (n.activator go).bits p = (n.activator go).bits q) :
    n.openGates p = n.openGates q := congrArg n.gates.openGates h

theorem reads_of_gates (hn : n.Numbered) (hl : l = gh ∨ l = go) (hlayer : ∀ c ∈ condition, c.layer ∈ conditions)
    (hdefault : ∀ g ∈ defaultGates, g ∈ n.openGates old.gates)
    (hgates : ∀ source ∈ conditions, Gate.copy l source ∈ n.openGates old.gates ↔ ∃ c ∈ condition, c.layer = source) :
    Reads n l old condition := by
  refine ⟨hgates, fun m hm hactive => ?_⟩
  have hopen : m.openGates = n.openGates old.gates := by
    unfold Machine.openGates Network.openGates
    rw [hactive, hm.gates, hm.activator]
  have hself : Gate.decay l ∈ defaultGates ∧ Gate.copy l gh ∈ defaultGates := by
    rcases hl with rfl | rfl <;> decide
  rw [hopen, Machine.input_control (hm.numbered hn) hl (hdefault _ hself.1), List.filter_cons,
    if_pos (List.contains_iff_mem.mpr (hdefault _ hself.2)), Machine.filter_conditions hlayer]
  · rfl
  · intro source hsource
    rw [List.contains_iff_mem]
    exact hgates source hsource

/-- The gates into the hidden layer agree with the condition, for whoever looks at the bits. -/
theorem Keyed.mem_openGates (h : Keyed n old condition) (hsize : old.gates.size = n.gates.size) :
    ∀ source ∈ conditions, Gate.copy gh source ∈ n.openGates old.gates ↔ ∃ c ∈ condition, c.layer = source := by
  intro source hsource
  obtain ⟨u, hu, hopen⟩ := h.isOpen source hsource
  rw [Network.mem_openGates_of_unit hu hsize]
  exact hopen

variable (hgo : n.size go = n.gates.size) (hon : (n.activator go).isOn (n.activator go).on = true)
  (hoff : (n.activator go).isOn (n.activator go).off = false)
include hgo hon hoff

theorem mem_openGates_of_default {p : Pattern α} {allowed : List Gate → Prop} (hp : Listed n allowed p) :
    ∀ g ∈ defaultGates, g ∈ n.openGates p := by
  obtain ⟨gates, -, hopens⟩ := hp
  intro g hg
  exact (Network.mem_openGates_iff hgo hon hoff hopens).mpr (List.mem_append_left _ hg)

/-- The gates into the gate layer agree with those into the hidden layer if they are listed together. -/
theorem mem_openGates_balanced {p : Pattern α} (hp : Listed n Balanced p) : ∀ source ∈ conditions,
    Gate.copy go source ∈ n.openGates p ↔ Gate.copy gh source ∈ n.openGates p := by
  obtain ⟨gates, hbalanced, hopens⟩ := hp
  intro source hsource
  have hnot : ∀ source ∈ conditions, Gate.copy gh source ∉ defaultGates ∧ Gate.copy go source ∉ defaultGates := by decide
  rw [Network.mem_openGates_iff hgo hon hoff hopens, Network.mem_openGates_iff hgo hon hoff hopens, List.mem_append,
    List.mem_append, or_iff_right (hnot source hsource).1, or_iff_right (hnot source hsource).2]
  exact hbalanced source hsource

end

/-! ## Calls that are refused -/

section

variable {s : Sequencer α} {old : ControlState α} {condition : Option Condition}

omit [Scalar α] in
theorem refused {γ : Type} (check : Sequencer α → Except (Fault α) Unit) {rest : Unit → Sequencing α γ} {e : Fault α}
    (h : check s = .error e) : (get >>= fun s => liftM (check s) >>= rest : Sequencing α γ).run.run s = (.error e, s) := by
  show (liftM (check s) >>= rest : Sequencing α γ).run.run s = _
  rw [h]
  rfl

theorem transit_refused {e : Fault α} (h : s.checkCondition old condition = .error e) (gates : List Gate)
    (target : Option (ControlState α)) : (transit gates old condition target).run.run s = (.error e, s) :=
  refused (fun s => s.checkCondition old condition) h

theorem dispatch_refused {layer : LayerId} {token : String} {e : Fault α}
    (h : s.checkCondition old (some ⟨layer, token⟩) = .error e) : (dispatch old layer token).run.run s = (.error e, s) :=
  refused (fun s => s.checkCondition old (some ⟨layer, token⟩)) h

end

/-! ## Whatever is called -/

/-- The gates from the condition layers into the hidden layer are open as the condition says. -/
def Agrees (n : Network α) (old : ControlState α) (condition : Option Condition) : Prop :=
  (∀ c ∈ condition, c.layer ∈ conditions) ∧
    ∀ source ∈ conditions, Gate.copy gh source ∈ n.openGates old.gates ↔ ∃ c ∈ condition, c.layer = source

/-- A check that passes finds the gates as the condition says. -/
theorem exists_error_of_not_agrees {n : Network α} {s : Sequencer α} (hkeeps : n.Keeps (fun l _ => l ≠ gh) s.network)
    {old : ControlState α} (hsize : old.gates.size = n.gates.size) {condition : Option Condition}
    (h : ¬ Agrees n old condition) : ∃ e, s.checkCondition old condition = .error e := by
  cases hcheck : s.checkCondition old condition with
  | error e => exact ⟨e, rfl⟩
  | ok v =>
    have hkeyed := keyed_of_checkCondition hkeeps hcheck
    exact absurd ⟨hkeyed.layer, hkeyed.mem_openGates hsize⟩ h

/-- What a transit trains is what the runtime reads. Whatever calls a sequencer was given, the blocks
of a recorded input hold the token of the condition and zeros; the hidden layer reads, in every state
that the transit leads on from, the hidden layer and the layer of the condition; and calls about a
state whose gates do not agree with the condition are refused and change nothing. The gate layer
reads the same layers if all lists of gates have the gates from a condition layer in pairs. -/
theorem trained_is_read [ExactSums α] {c : Config α} {built n : Network α} (hbuild : (Network.build c).value = .ok built)
    (hbooks : built.Keeps (fun _ _ => False) n) (hsound : n.Sound) {given : List (ControlState α)}
    (hgiven : ∀ state ∈ given, state.hidden.size = n.size gh ∧ Listed n (fun _ => True) state.gates) (cs : List Call) :
    (∀ t ∈ ((⟨.new n, given⟩ : Recording α).calls cs).sequencer.transits,
      (∃ old, ((⟨.new n, given⟩ : Recording α).calls cs).sequencer.Leaves old t) ∧
      ∀ l ∈ conditions, ∀ i < n.size l, t.input.entry (blockStart n (n.size gh) conditions l + i) =
        t.key.condition.elim 0 fun c =>
          if l = c.layer then (((⟨.new n, given⟩ : Recording α).calls cs).sequencer.network.tokenPattern c).entry i else 0) ∧
    (∀ t old, ((⟨.new n, given⟩ : Recording α).calls cs).sequencer.Leaves old t →
      Reads n gh old t.key.condition ∧
      ((∀ state ∈ given, Listed n Balanced state.gates) → (∀ call ∈ cs, Balanced call.gateList) →
        Reads n go old t.key.condition)) ∧
    ∀ old ∈ ((⟨.new n, given⟩ : Recording α).calls cs).states, ∀ condition, ¬ Agrees n old condition →
      ∃ e, (∀ gates target, (transit gates old condition target).run.run
          ((⟨.new n, given⟩ : Recording α).calls cs).sequencer =
            (.error e, ((⟨.new n, given⟩ : Recording α).calls cs).sequencer)) ∧
        ∀ c ∈ condition, (dispatch old c.layer c.token).run.run ((⟨.new n, given⟩ : Recording α).calls cs).sequencer =
          (.error e, ((⟨.new n, given⟩ : Recording α).calls cs).sequencer) := by
  have hbuilt := Network.builtFrom_of_build hbuild
  have hgo : n.size go = n.gates.size := by rw [hbooks.size, hbooks.gates, hbuilt.size_go]
  have hactivator : n.activator go = c.activator := by
    rw [hbooks.activator]
    exact hbuilt.activator_eq (Nat.lt_of_lt_of_le (by decide) hbuilt.numbered.control)
  have hon : (n.activator go).isOn (n.activator go).on = true := hactivator ▸ ExactSums.on_isOn hbuilt.valid
  have hoff : (n.activator go).isOn (n.activator go).off = false := hactivator ▸ ExactSums.off_isOff hbuilt.valid
  have hnumbered := hbooks.numbered hbuilt.numbered
  have hsized : ∀ state ∈ given, Sized n state := fun state hstate => by
    obtain ⟨hhidden, gates, -, hopens⟩ := hgiven state hstate
    exact ⟨hhidden, hopens.size⟩
  have hadmitted := Recording.admitted_of_build hbuild hbooks hsound hsized cs
  have hwired : ∀ allowed : List Gate → Prop, allowed [] → (∀ state ∈ given, Listed n allowed state.gates) →
      (∀ call ∈ cs, allowed call.gateList) →
      Wired n allowed ((⟨.new n, given⟩ : Recording α).calls cs).sequencer := fun allowed hnil hstates hcs =>
    wired_calls hgo hnil ⟨.refl n, fun _ h => (List.not_mem_nil h).elim, fun _ h => (List.not_mem_nil h).elim⟩ hstates hcs
  have hany := hwired (fun _ => True) trivial (fun state hstate => (hgiven state hstate).2) fun _ _ => trivial
  generalize (⟨.new n, given⟩ : Recording α).calls cs = r at hadmitted hwired hany
  have hs := hadmitted.sequencer
  refine ⟨fun t ht => ?_, fun t old hleaves => ?_, fun old hold condition hdiffer => ?_⟩
  · obtain ⟨old, hold⟩ := hs.transits t ht
    exact ⟨⟨old, ht, hold.key, hold.joint⟩, fun l hl i hi => hold.entry_block hs hl hi⟩
  · -- all states that the transit leads on from have the gate bits of the one that it was recorded from
    obtain ⟨source, hsource⟩ := hs.transits t hleaves.recorded
    have hbits : ∀ state, t.key = r.sequencer.key state t.key.condition →
        (n.activator go).bits state.gates = t.key.gates := fun state hkey =>
      (congrArg (·.bits state.gates) (hs.keeps.activator go)).symm.trans (congrArg TransitKey.gates hkey).symm
    have hsame : n.openGates old.gates = n.openGates source.gates :=
      openGates_of_bits ((hbits old hleaves.key).trans (hbits source hsource.key).symm)
    have hgates := hsource.keyed.mem_openGates (hsource.sized.gates.trans hgo)
    rw [← hsame] at hgates
    obtain ⟨p, hp, hpbits⟩ := hany.sources t hleaves.recorded
    have hdefault := mem_openGates_of_default hgo hon hoff hp
    rw [openGates_of_bits (hpbits.symm.trans (hbits old hleaves.key).symm)] at hdefault
    refine ⟨reads_of_gates hnumbered (.inl rfl) hsource.keyed.layer hdefault hgates, fun hlists hcs => ?_⟩
    obtain ⟨q, hq, hqbits⟩ := (hwired Balanced balanced_nil hlists hcs).sources t hleaves.recorded
    have hpairs := mem_openGates_balanced hgo hon hoff hq
    rw [openGates_of_bits (hqbits.symm.trans (hbits old hleaves.key).symm)] at hpairs
    exact reads_of_gates hnumbered (.inr rfl) hsource.keyed.layer hdefault fun l hl => (hpairs l hl).trans (hgates l hl)
  · obtain ⟨e, he⟩ := exists_error_of_not_agrees hs.keeps ((hadmitted.states old hold).gates.trans hgo) hdiffer
    exact ⟨e, fun gates target => transit_refused he gates target, fun c hc => dispatch_refused (Option.mem_def.mp hc ▸ he)⟩

/-- A branch on the first operand, from a state that lists both gates of the layer. -/
def bothOpen : List Call := [
  .initial "start",
  .transit (Microcode.read op1) 0 none none,
  .dispatch 1 op1 "x"]

/-- Both control layers of the small network read what this branch was trained on. -/
theorem both_read : ∃ t old, ((⟨.new (smallNetwork.image Fixed.real), []⟩ : Recording ℝ).calls bothOpen).sequencer.Leaves
      old t ∧ t.key.condition = some ⟨op1, "x"⟩ ∧
    Reads (smallNetwork.image Fixed.real) gh old t.key.condition ∧
    Reads (smallNetwork.image Fixed.real) go old t.key.condition := by
  have hrecorded : ∃ t ∈ ((⟨.new smallNetwork, []⟩ : Recording Fixed).calls bothOpen).sequencer.transits,
      t.key.condition = some ⟨op1, "x"⟩ := by decide +kernel
  obtain ⟨hsources, hreads, -⟩ := trained_is_read build_realConfig (.refl _)
    (Network.builtFrom_of_build build_realConfig).sound (fun _ h => (List.not_mem_nil h).elim) bothOpen
  obtain ⟨t, ht, hcondition⟩ := hrecorded
  have himage : ∀ (r : Recording Fixed), ∀ t ∈ r.sequencer.transits, t.image Fixed.real ∈
      (r.image Fixed.real).sequencer.transits := fun _ _ => List.mem_map_of_mem
  obtain ⟨⟨old, hleaves⟩, -⟩ := hsources _ (calls_real bothOpen ▸ himage _ t ht)
  obtain ⟨hgh, hgo⟩ := hreads _ old hleaves
  refine ⟨_, old, hleaves, hcondition, hgh, hgo (fun _ h => (List.not_mem_nil h).elim) fun call hcall => ?_⟩
  simp only [bothOpen, List.mem_cons, List.not_mem_nil, or_false] at hcall
  rcases hcall with rfl | rfl | rfl
  · exact balanced_nil
  · exact balanced_read op1
  · exact balanced_nil

/-- A state that lets a condition layer into the hidden layer only, and a branch on that layer. -/
def halfOpen : List Call := [
  .initial "start",
  .transit [.copy gh op1] 0 none none,
  .dispatch 1 op1 "x"]

theorem halfOpen_recorded :
    ∃ t ∈ ((⟨.new smallNetwork, []⟩ : Recording Fixed).calls halfOpen).sequencer.transits,
      t.key.condition = some ⟨op1, "x"⟩ ∧
      ∃ old ∈ ((⟨.new smallNetwork, []⟩ : Recording Fixed).calls halfOpen).states,
        t.key = ((⟨.new smallNetwork, []⟩ : Recording Fixed).calls halfOpen).sequencer.key old t.key.condition ∧
        Gate.copy gh op1 ∈ smallNetwork.openGates old.gates ∧ Gate.copy go op1 ∉ smallNetwork.openGates old.gates := by
  decide +kernel

/-- Over the real numbers too, the branch is recorded from a state that does not let its condition
layer into the gate layer. -/
theorem unread_gate_accepted :
    (Network.build (smallConfig.image : Config ℝ)).value = .ok (smallNetwork.image Fixed.real) ∧
    ∃ t ∈ ((⟨.new (smallNetwork.image Fixed.real), []⟩ : Recording ℝ).calls halfOpen).sequencer.transits,
      t.key.condition = some ⟨op1, "x"⟩ ∧
      ∃ old ∈ ((⟨.new (smallNetwork.image Fixed.real), []⟩ : Recording ℝ).calls halfOpen).states,
        t.key = ((⟨.new (smallNetwork.image Fixed.real), []⟩ : Recording ℝ).calls halfOpen).sequencer.key old
          t.key.condition ∧
        Gate.copy gh op1 ∈ (smallNetwork.image Fixed.real).openGates old.gates ∧
        Gate.copy go op1 ∉ (smallNetwork.image Fixed.real).openGates old.gates := by
  have hbuilt := Network.builtFrom_of_build build_smallConfig
  have hopen : ∀ p : Pattern Fixed, (smallNetwork.image Fixed.real).openGates (p.map Fixed.real) = smallNetwork.openGates p :=
    fun p => congrArg smallNetwork.gates.openGates (Network.bits_image Fixed.embeds_real (hbuilt.standard rfl) go p)
  have hadmitted := (Recording.admitted_of_build build_smallConfig (.refl _) hbuilt.sound
    (fun _ h => (List.not_mem_nil h).elim) halfOpen).sequencer
  obtain ⟨t, ht, hcondition, old, hold, hkey, hgh, hgo⟩ := halfOpen_recorded
  rw [calls_real]
  generalize (⟨.new smallNetwork, []⟩ : Recording Fixed).calls halfOpen = r at *
  refine ⟨build_realConfig, t.image Fixed.real, List.mem_map_of_mem ht, hcondition, old.image Fixed.real,
    List.mem_map_of_mem hold, ?_, ?_, ?_⟩
  · exact hkey.trans (key_image Fixed.embeds_real ((hbuilt.standard rfl).of_keeps hadmitted.keeps) old _).symm
  · exact (hopen old.gates).symm ▸ hgh
  · exact (hopen old.gates).symm ▸ hgo

end Sequencer

end Engram
