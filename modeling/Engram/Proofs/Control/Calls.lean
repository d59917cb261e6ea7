/-
  Engram.Proofs.Control.Calls — what any sequence of calls on a sequencer records.

  A builder of automata calls the sequencer as it likes: with any states that earlier calls
  returned, in any order, and it may go on after a call that failed. Whatever it does, every
  recorded transit is one that the sequencer admits (`Admits`): a plain one, one on a layer that
  its source state alone selects on, or one on a dispatch layer, to the state that is composed for
  it. A layer is keyed in the way it was first claimed, and the signs of a layer or a condition
  are drawn once, so a transit that was admitted stays admitted (`Retains`).

  `Yields` is what one operation does: it keeps the invariant (`Admitting`), also when it fails,
  takes nothing back, and its result has some property in the sequencer it leaves.
-/

import Engram.Proofs.Control.Governing
import Engram.Proofs.Network.Built

namespace Engram

open LayerId

namespace Sequencer

/-! ## Calls -/

/-- A call on a sequencer. States are given by their position among those that earlier calls
returned. -/
inductive Call where
  | context (name : String)
  | initial (name : String)
  | transit (gates : List Gate) (old : Nat) (condition : Option Condition) (target : Option Nat)
  | dispatch (old : Nat) (layer : LayerId) (token : String)
  | settle (old ticks : Nat)
  | label (state : Nat) (name : String)

/-- A sequencer, and the states that calls on it returned. -/
structure Recording (α : Type) where
  sequencer : Sequencer α
  states : List (ControlState α)

variable {α β γ : Type} [Scalar α]

/-- The call, provided the states it is about are there. Returns the states there are then. -/
def Call.perform (states : List (ControlState α)) : Call → Sequencing α (List (ControlState α))
  | .context name => do
    setContext name
    return states
  | .initial name => return states ++ [← Sequencer.initial name]
  | .transit gates old condition target => do
    match states[old]?, target.mapM (states[·]?) with
    | some old, some target => return states ++ [← Sequencer.transit gates old condition target]
    | _, _ => return states
  | .dispatch old layer token => do
    match states[old]? with
    | some old => return states ++ [← Sequencer.dispatch old layer token]
    | none => return states
  | .settle old ticks => do
    match states[old]? with
    | some old => return states ++ [← Sequencer.settle old ticks]
    | none => return states
  | .label state name => do
    match states[state]? with
    | some state => nameState state name
    | none => pure ()
    return states

namespace Recording

/-- A call that fails returns no state, but what it did before it failed stays done. -/
def call (r : Recording α) (c : Call) : Recording α :=
  match (c.perform r.states).run.run r.sequencer with
  | (.ok states, s) => ⟨s, states⟩
  | (.error _, s) => ⟨s, r.states⟩

def calls (r : Recording α) (cs : List Call) : Recording α := cs.foldl call r

end Recording

/-! ## What stays -/

/-- A later state of a sequencer: what a layer is used for, and signs that were drawn, stay. -/
structure Retains (s later : Sequencer α) : Prop where
  network : s.network.Keeps (fun l _ => l ≠ gh) later.network
  keying : ∀ l k, s.keying.lookup l = some k → later.keying.lookup l = some k
  offsets : ∀ l signs, s.offsets.lookup l = some signs → later.offsets.lookup l = some signs
  codes : ∀ c signs, s.codes.lookup c = some signs → later.codes.lookup c = some signs

namespace Retains

variable {s t u : Sequencer α}

theorem refl (s : Sequencer α) : Retains s s := ⟨.refl _, fun _ _ h => h, fun _ _ h => h, fun _ _ h => h⟩

theorem trans (h : Retains s t) (h' : Retains t u) : Retains s u :=
  ⟨h.network.trans h'.network, fun l k hl => h'.keying l k (h.keying l k hl),
    fun l signs hl => h'.offsets l signs (h.offsets l signs hl), fun c signs hc => h'.codes c signs (h.codes c signs hc)⟩

end Retains

/-- A state with a unit for each unit of the control layers. -/
structure Sized (n : Network α) (state : ControlState α) : Prop where
  hidden : state.hidden.size = n.size gh
  gates : state.gates.size = n.size go

/-- Why a transit under a condition may be recorded. -/
inductive Admits (n : Network α) (s : Sequencer α) (old target : ControlState α) : Option Condition → Prop
  | plain : Admits n s old target none
  /-- No other state reads the layer. -/
  | select {c : Condition} (reader : s.keying.lookup c.layer = some (.select (s.hiddenBits old))) :
      Admits n s old target (some c)
  /-- The target is composed of a part for the state and one for the condition. -/
  | dispatch {c : Condition} {code offset : Bits} (keying : s.keying.lookup c.layer = some .dispatch)
      (hcode : s.codes.lookup c = some code) (hoffset : s.offsets.lookup c.layer = some offset)
      (hidden : target.hidden = compose (n.activator gh) old.hidden code offset)
      (gates : makeGates n [] = .ok target.gates) : Admits n s old target (some c)

/-- A recorded transit, from the state that it was recorded from. -/
structure AdmitsFrom (n : Network α) (s : Sequencer α) (t : Transit α) (old : ControlState α) : Prop where
  sized : Sized n old
  keyed : Keyed n old t.key.condition
  key : t.key = s.key old t.key.condition
  joint : Joint s.network old.hidden t.key.condition t.input
  admits : Admits n s old t.target t.key.condition

/-- What holds of a sequencer over the given network, whatever was called. -/
structure Admitting (n : Network α) (s : Sequencer α) : Prop where
  keeps : n.Keeps (fun l _ => l ≠ gh) s.network
  sound : s.network.Sound
  gates : s.network.size go = s.network.gates.size
  numbered : s.network.Numbered
  offsets : ∀ l signs, s.offsets.lookup l = some signs → signs.length = n.size gh
  codes : ∀ c signs, s.codes.lookup c = some signs → signs.length = n.size gh
  keys : (s.transits.map (·.key)).Nodup
  targets : ∀ t ∈ s.transits, Sized n t.target
  transits : ∀ t ∈ s.transits, ∃ old, AdmitsFrom n s t old

theorem admitting_new {n : Network α} (hsound : n.Sound) (hgates : n.size go = n.gates.size) (hn : n.Numbered) :
    Admitting n (Sequencer.new n) :=
  ⟨.refl n, hsound, hgates, hn, fun _ _ h => (Option.not_mem_none _ h).elim, fun _ _ h => (Option.not_mem_none _ h).elim,
    List.nodup_nil, fun _ h => (List.not_mem_nil h).elim, fun _ h => (List.not_mem_nil h).elim⟩

section

variable {n : Network α} {s later : Sequencer α} {old target : ControlState α} {condition : Option Condition}

theorem Admits.of_retains (h : Admits n s old target condition) (hg : Retains s later) :
    Admits n later old target condition := by
  cases h with
  | plain => exact .plain
  | select reader => exact .select (by rw [hiddenBits_eq hg.network]; exact hg.keying _ _ reader)
  | dispatch keying hcode hoffset hidden gates =>
    exact .dispatch (hg.keying _ _ keying) (hg.codes _ _ hcode) (hg.offsets _ _ hoffset) hidden gates

/-- What is composed for a state depends on its bits only. -/
theorem Admits.of_bits {source : ControlState α} {c : Condition} (h : Admits n s source target (some c)) (hs : Admitting n s)
    (hkeying : s.keying.lookup c.layer = some .dispatch) (hbits : s.hiddenBits source = s.hiddenBits old) :
    Admits n s old target (some c) := by
  cases h with
  | select reader =>
    rw [hkeying] at reader
    cases reader
  | dispatch keying hcode hoffset hidden gates =>
    refine .dispatch keying hcode hoffset ?_ gates
    have hactivator : (n.activator gh).bits source.hidden = (n.activator gh).bits old.hidden := by
      rw [← hs.keeps.activator]
      exact hbits
    rw [hidden, compose, compose, hactivator]

theorem AdmitsFrom.of_retains {t : Transit α} (h : AdmitsFrom n s t old) (hg : Retains s later) :
    AdmitsFrom n later t old :=
  ⟨h.sized, h.keyed, by rw [key_eq hg.network]; exact h.key, h.joint.of_keeps hg.network, h.admits.of_retains hg⟩

/-- Everything but the transits. -/
theorem Admitting.of_retains (h : Admitting n s) (hg : Retains s later) (htransits : later.transits = s.transits)
    (hsound : later.network.Sound) (hoffsets : ∀ l signs, later.offsets.lookup l = some signs → signs.length = n.size gh)
    (hcodes : ∀ c signs, later.codes.lookup c = some signs → signs.length = n.size gh) : Admitting n later := by
  refine ⟨h.keeps.trans hg.network, hsound, ?_, hg.network.numbered h.numbered, hoffsets, hcodes,
    htransits ▸ h.keys, htransits ▸ h.targets, fun t ht => ?_⟩
  · rw [hg.network.size, hg.network.gates]
    exact h.gates
  · obtain ⟨old, hold⟩ := h.transits t (htransits ▸ ht)
    exact ⟨old, hold.of_retains hg⟩

theorem sized_of_find? (h : Admitting n s) {k : TransitKey} {t : Transit α} (ht : s.find? k = some t) :
    Sized n t.target :=
  h.targets t (List.mem_of_find?_eq_some ht)

end

/-! ## What an operation does -/

/-- What the operation does to a sequencer with the invariant: it keeps the invariant and takes
nothing back, and its result has the property in the sequencer that it leaves. -/
def Yields (n : Network α) (s : Sequencer α) (x : Sequencing α β) (Q : β → Sequencer α → Prop) : Prop :=
  Admitting n s → Admitting n (x.run.run s).2 ∧ Retains s (x.run.run s).2 ∧
    ∀ b, (x.run.run s).1 = .ok b → Q b (x.run.run s).2

section

variable {n : Network α} {s : Sequencer α} {Q : β → Sequencer α → Prop}

namespace Yields

theorem pure {b : β} (h : Q b s) : Yields n s (pure b) Q :=
  fun hs => ⟨hs, .refl s, fun _ hc => by cases hc; exact h⟩

theorem throw (e : Fault α) : Yields n s (throw e) Q :=
  fun hs => ⟨hs, .refl s, fun _ hc => by cases hc⟩

theorem set {t : Sequencer α} (h : Admitting n s → Admitting n t) (hg : Retains s t) :
    Yields n s (set t) fun _ u => u = t :=
  fun hs => ⟨h hs, hg, fun _ _ => rfl⟩

theorem mono {Q' : β → Sequencer α → Prop} {x : Sequencing α β} (h : Yields n s x Q)
    (hq : ∀ b t, Retains s t → Q b t → Q' b t) : Yields n s x Q' := by
  intro hs
  obtain ⟨h₁, h₂, h₃⟩ := h hs
  exact ⟨h₁, h₂, fun b hb => hq b _ h₂ (h₃ b hb)⟩

theorem bind {R : γ → Sequencer α → Prop} {x : Sequencing α β} {f : β → Sequencing α γ} (hx : Yields n s x Q)
    (hf : ∀ b t, Retains s t → Q b t → Yields n t (f b) R) : Yields n s (x >>= f) R := by
  intro hs
  obtain ⟨h₁, h₂, h₃⟩ := hx hs
  have hbind : (x >>= f).run.run s = (ExceptT.bindCont f (x.run.run s).1).run (x.run.run s).2 := rfl
  rw [hbind]
  rcases hrun : x.run.run s with ⟨e | b, t⟩
  · rw [hrun] at h₁ h₂
    exact ⟨h₁, h₂, fun c hc => by cases hc⟩
  · rw [hrun] at h₁ h₂ h₃
    obtain ⟨h₁', h₂', h₃'⟩ := hf b t h₂ (h₃ b rfl) h₁
    exact ⟨h₁', h₂.trans h₂', h₃'⟩

theorem get_bind {f : Sequencer α → Sequencing α β} (h : Admitting n s → Yields n s (f s) Q) :
    Yields n s (get >>= f) Q :=
  fun hs => h hs hs

theorem lift_bind {r : Except (Fault α) γ} {f : γ → Sequencing α β} (h : ∀ b, r = .ok b → Yields n s (f b) Q) :
    Yields n s (liftM r >>= f) Q := by
  cases r with
  | error e => exact .throw e
  | ok b => exact h b rfl

end Yields

/-! ## The operations -/

theorem lookup_append_of_some {κ : Type} [BEq κ] {l : List (κ × β)} {k : κ} {b : β} (h : l.lookup k = some b)
    (rest : List (κ × β)) : (l ++ rest).lookup k = some b := by
  rw [List.lookup_append, h]
  rfl

theorem lookup_append_self {κ : Type} [BEq κ] [LawfulBEq κ] {l : List (κ × β)} {k : κ} (h : l.lookup k = none) (b : β) :
    (l ++ [(k, b)]).lookup k = some b := by
  rw [List.lookup_append, h, List.lookup_cons, beq_self_eq_true]
  rfl

theorem lookup_append_singleton {κ : Type} [DecidableEq κ] {l : List (κ × β)} {k k' : κ} {b b' : β}
    (h : (l ++ [(k, b)]).lookup k' = some b') : l.lookup k' = some b' ∨ b' = b := by
  rw [List.lookup_append] at h
  cases hl : l.lookup k' with
  | some c =>
    rw [hl] at h
    exact .inl h
  | none =>
    rw [hl, Option.none_or, lookup_cons_eq] at h
    split at h
    · exact .inr (Option.some.inj h).symm
    · cases h

theorem retains_network {network : Network α} (h : s.network.Keeps (fun l _ => l ≠ gh) network) :
    Retains s { s with network } :=
  ⟨h, fun _ _ h => h, fun _ _ h => h, fun _ _ h => h⟩

theorem yields_claim (old : ControlState α) (layer : LayerId) (keying : Keying) :
    Yields n s (claim old layer keying) fun _ t => t.keying.lookup layer = some keying := by
  refine .get_bind fun hs => ?_
  cases hlookup : s.keying.lookup layer with
  | none =>
    have hretains : Retains s { s with keying := s.keying ++ [(layer, keying)] } :=
      ⟨.refl _, fun _ _ h => lookup_append_of_some h _, fun _ _ h => h, fun _ _ h => h⟩
    exact (Yields.set (fun hs => hs.of_retains hretains rfl hs.sound hs.offsets hs.codes) hretains).mono fun _ _ _ hv =>
      hv ▸ lookup_append_self hlookup _
  | some earlier =>
    dsimp only
    by_cases heq : earlier = keying
    · rw [if_neg (fun h => h heq)]
      exact .pure (heq ▸ hlookup)
    · rw [if_pos heq]
      exact .throw _

theorem yields_offset (layer : LayerId) : Yields n s (offset layer) fun signs t =>
    t.offsets.lookup layer = some signs ∧ t.transits = s.transits := by
  refine .get_bind fun hs => ?_
  cases hlookup : s.offsets.lookup layer with
  | some signs => exact .pure ⟨hlookup, rfl⟩
  | none =>
    refine Yields.bind (.set (fun hs => ?_) ?_) fun _ v _ hv => .pure (hv ▸ ⟨lookup_append_self hlookup _, rfl⟩)
    · refine hs.of_retains ⟨.refl _, fun _ _ h => h, fun _ _ h => lookup_append_of_some h _, fun _ _ h => h⟩ rfl hs.sound
        (fun l signs h => ?_) hs.codes
      rcases lookup_append_singleton h with h | rfl
      · exact hs.offsets l signs h
      · rw [Random.Stream.length_bits, hs.keeps.size]
    · exact ⟨.refl _, fun _ _ h => h, fun _ _ h => lookup_append_of_some h _, fun _ _ h => h⟩

theorem yields_code (condition : Condition) : Yields n s (code condition) fun signs t =>
    t.codes.lookup condition = some signs ∧ t.transits = s.transits := by
  refine .get_bind fun hs => ?_
  cases hlookup : s.codes.lookup condition with
  | some signs => exact .pure ⟨hlookup, rfl⟩
  | none =>
    refine Yields.bind (.set (fun hs => ?_) ?_) fun _ v _ hv => .pure (hv ▸ ⟨lookup_append_self hlookup _, rfl⟩)
    · refine hs.of_retains ⟨.refl _, fun _ _ h => h, fun _ _ h => h, fun _ _ h => lookup_append_of_some h _⟩ rfl hs.sound
        hs.offsets (fun c signs h => ?_)
      rcases lookup_append_singleton h with h | rfl
      · exact hs.codes c signs h
      · rw [Random.Stream.length_bits, hs.keeps.size]
    · exact ⟨.refl _, fun _ _ h => h, fun _ _ h => h, fun _ _ h => lookup_append_of_some h _⟩

theorem yields_setContext (context : String) : Yields n s (setContext context) fun _ _ => True := by
  have hretains : Retains s { s with context } := ⟨.refl _, fun _ _ h => h, fun _ _ h => h, fun _ _ h => h⟩
  exact fun hs => ⟨hs.of_retains hretains rfl hs.sound hs.offsets hs.codes, hretains, fun _ _ => trivial⟩

theorem yields_freshName : Yields n s (freshName (α := α)) fun _ t => t.transits = s.transits := by
  refine .get_bind fun hs => ?_
  have hretains : Retains s { s with named := s.named + 1 } := ⟨.refl _, fun _ _ h => h, fun _ _ h => h, fun _ _ h => h⟩
  exact Yields.bind (.set (fun hs => hs.of_retains hretains rfl hs.sound hs.offsets hs.codes) hretains)
    fun _ v _ hv => .pure (hv ▸ rfl)

/-- Another network with the same tokens but those of the hidden layer. -/
theorem Admitting.of_network (h : Admitting n s) {network : Network α}
    (hkeeps : s.network.Keeps (fun l _ => l ≠ gh) network) (hsound : network.Sound) : Admitting n { s with network } :=
  h.of_retains (retains_network hkeeps) rfl hsound h.offsets h.codes

theorem Admitting.encode (h : Admitting n s) (l : LayerId) (token : String) :
    Admitting n { s with network := (s.network.encode l token).2 } :=
  h.of_network (keeps_encode _ l token) (h.sound.encode l token)

theorem yields_freshHidden : Yields n s freshHidden fun p t => p.size = n.size gh ∧ t.transits = s.transits := by
  refine yields_freshName.bind fun name t _ ht => .get_bind fun hs => ?_
  exact Yields.bind (.set (fun _ => hs.encode gh name) (retains_network (keeps_encode _ gh name)))
    fun _ w _ hw => .pure ⟨(Network.size_encode hs.sound gh name).trans (hs.keeps.size gh), hw ▸ ht⟩

theorem yields_nameState {state : ControlState α} (hstate : state.hidden.size = n.size gh) (name : String) :
    Yields n s (nameState state name) fun _ t => t.transits = s.transits := by
  intro hs
  have hkeeps : s.network.Keeps (fun l _ => l ≠ gh) (s.network.bindToken gh name state.hidden) :=
    (Network.keeps_bindToken _ _ _ _).mono fun l _ hl hh => hl hh.1
  have hsound := hs.sound.bindToken gh name (p := state.hidden) (by rw [hstate, hs.keeps.size])
  exact ⟨hs.of_network hkeeps hsound, retains_network hkeeps, fun _ _ => rfl⟩

theorem sized_of_makeGates (hs : Admitting n s) {gates : List Gate} {p hidden : Pattern α}
    (hp : makeGates s.network gates = .ok p) (hhidden : hidden.size = n.size gh) : Sized n ⟨p, hidden⟩ :=
  ⟨hhidden, ((Network.opens_makeGates hs.gates hp).of_keeps hs.keeps).size⟩

variable {old target : ControlState α} {condition : Option Condition}

theorem exists_does_jointInput (s : Sequencer α) (old : ControlState α) (condition : Option Condition) :
    ∃ input t, Does (jointInput old condition) s input t ∧ Retains s t ∧ t.transits = s.transits ∧
      (s.network.Sound → t.network.Sound) ∧ t.offsets = s.offsets ∧ t.codes = s.codes := by
  cases condition with
  | none => exact ⟨_, _, rfl, .refl s, rfl, fun h => h, rfl, rfl⟩
  | some c =>
    exact ⟨_, _, rfl, retains_network (keeps_encode _ c.layer c.token), rfl, fun h => h.encode c.layer c.token, rfl, rfl⟩

theorem yields_record (hold : Sized n old) (hkeyed : Keyed n old condition) (htarget : Sized n target)
    (hadmits : Admits n s old target condition) (hnew : ∀ t ∈ s.transits, t.key ≠ s.key old condition) :
    Yields n s (record old condition target) fun b t => Sized n b ∧ Admits n t old b condition := by
  intro hs
  obtain ⟨input, t, hdoes, hretains, htransits, hsound, hoffsets, hcodes⟩ := exists_does_jointInput s old condition
  obtain ⟨-, hjoint, -, -⟩ := does_jointInput hs.numbered hkeyed.layer hdoes
  have ht : Admitting n t := hs.of_retains hretains htransits (hsound hs.sound) (hoffsets ▸ hs.offsets) (hcodes ▸ hs.codes)
  have hrecord : (record old condition target).run.run s =
      (.ok target, { t with transits := t.transits ++ [⟨t.key old condition, input, target⟩] }) :=
    does_of_bind hdoes rfl
  have hlater : Retains t { t with transits := t.transits ++ [⟨t.key old condition, input, target⟩] } :=
    ⟨.refl _, fun _ _ h => h, fun _ _ h => h, fun _ _ h => h⟩
  rw [hrecord]
  refine ⟨⟨ht.keeps, ht.sound, ht.gates, ht.numbered, ht.offsets, ht.codes, ?_, fun x hx => ?_, fun x hx => ?_⟩,
    hretains.trans hlater, fun b hb => Except.ok.inj hb ▸ ⟨htarget, hadmits.of_retains (hretains.trans hlater)⟩⟩
  · rw [List.map_append, List.nodup_append]
    refine ⟨ht.keys, List.nodup_singleton _, fun k hk k' hk' heq => ?_⟩
    obtain ⟨x, hx, rfl⟩ := List.mem_map.mp hk
    rw [List.map_singleton, List.mem_singleton] at hk'
    exact hnew x (htransits ▸ hx) (heq.trans (hk'.trans (key_eq hretains.network old condition)))
  · rcases List.mem_append.mp hx with hx | hx
    · exact ht.targets x hx
    · rw [List.mem_singleton.mp hx]
      exact htarget
  · rcases List.mem_append.mp hx with hx | hx
    · obtain ⟨source, hsource⟩ := ht.transits x hx
      exact ⟨source, hsource.of_retains hlater⟩
    · rw [List.mem_singleton.mp hx]
      exact ⟨old, hold, hkeyed, rfl, hjoint, hadmits.of_retains (hretains.trans hlater)⟩

theorem yields_complete {gates : List Gate} (hold : Sized n old) (hkeyed : Keyed n old condition)
    {target : Option (ControlState α)} (htarget : ∀ t ∈ target, Sized n t)
    (hadmits : ∀ next, Admits n s old next condition) :
    Yields n s (complete gates old condition target) fun b _ => Sized n b := by
  refine .get_bind fun hs => ?_
  rcases hfind : s.find? (s.key old condition) with _ | earlier
  · cases target with
    | some target =>
      exact (yields_record hold hkeyed (htarget target rfl) (hadmits target) (key_ne_of_find? hfind)).mono
        fun _ _ _ h => h.1
    | none =>
      refine .lift_bind fun p hp => ?_
      refine yields_freshHidden.bind fun hidden v hv ⟨hhidden, htransits⟩ => ?_
      refine (yields_record hold hkeyed (sized_of_makeGates hs hp hhidden) ((hadmits _).of_retains hv) ?_).mono
        fun _ _ _ h => h.1
      rw [htransits, key_eq hv.network]
      exact key_ne_of_find? hfind
  · cases target with
    | some target =>
      dsimp only
      split
      · exact .pure (sized_of_find? hs hfind)
      · exact .throw _
    | none => exact .throw _

theorem yields_transit {gates : List Gate} (hold : Sized n old) {target : Option (ControlState α)}
    (htarget : ∀ t ∈ target, Sized n t) :
    Yields n s (transit gates old condition target) fun b _ => Sized n b := by
  refine .get_bind fun hs => .lift_bind fun v hv => ?_
  have hkeyed := keyed_of_checkCondition hs.keeps hv
  cases condition with
  | none => exact yields_complete hold hkeyed htarget fun _ => .plain
  | some c =>
    refine .get_bind fun _ => (yields_claim old c.layer _).bind fun _ w hw hkeying => ?_
    refine yields_complete hold hkeyed htarget fun next => .select ?_
    rw [hiddenBits_eq hw.network]
    exact hkeying

/-- The gate pattern depends on nothing that changes. -/
theorem makeGates_keeps {later : Network α} {keep : LayerId → String → Prop} (h : n.Keeps keep later) (gates : List Gate) :
    makeGates later gates = makeGates n gates := by
  have hname : later.name = n.name := funext h.name
  have hunit : later.unit = n.unit := by
    funext g
    unfold Network.unit Network.gateName
    rw [h.gates, hname]
  unfold makeGates
  rw [hunit, h.activator, h.size]

/-- The state that a dispatch returns, whether it is new or was recorded before, is composed for the
state and the token. -/
theorem yields_dispatch (hold : Sized n old) (layer : LayerId) (token : String) :
    Yields n s (dispatch old layer token) fun b t => Sized n b ∧ t.keying.lookup layer = some .dispatch ∧
      Admits n t old b (some ⟨layer, token⟩) := by
  refine .get_bind fun hs => .lift_bind fun v hv => ?_
  have hkeyed := keyed_of_checkCondition hs.keeps hv
  refine (yields_claim old layer _).bind fun _ t₁ _ hkeying => .get_bind fun hs₁ => ?_
  rcases hfind : t₁.find? (t₁.key old (some ⟨layer, token⟩)) with _ | earlier
  · refine (yields_offset layer).bind fun offset t₄ ht₄ ⟨hoffset, htransits₄⟩ =>
      (yields_code _).bind fun code t₅ ht₅ ⟨hcode, htransits₅⟩ =>
        .get_bind fun hs₅ => .lift_bind fun p hp => ?_
    refine yields_freshName.bind fun name t₉ ht₉ htransits₉ => ?_
    have hsize : (compose (t₅.network.activator gh) old.hidden code offset).size = n.size gh :=
      (size_compose _ _ ((hs₅.codes _ _ hcode).trans hold.hidden.symm)
        ((hs₅.offsets _ _ (ht₅.offsets _ _ hoffset)).trans hold.hidden.symm)).trans hold.hidden
    refine (yields_nameState hsize name).bind fun _ t₁₀ ht₁₀ htransits₁₀ => ?_
    have hretains : Retains t₁ t₁₀ := ht₄.trans (ht₅.trans (ht₉.trans ht₁₀))
    have hadmits : Admits n t₁₀ old ⟨p, compose (t₅.network.activator gh) old.hidden code offset⟩ (some ⟨layer, token⟩) :=
      .dispatch (hretains.keying _ _ hkeying) ((ht₉.trans ht₁₀).codes _ _ hcode)
        ((ht₅.trans (ht₉.trans ht₁₀)).offsets _ _ hoffset) (by rw [hs₅.keeps.activator])
        ((makeGates_keeps hs₅.keeps []).symm.trans hp)
    refine (yields_record hold hkeyed (sized_of_makeGates hs₅ hp hsize) hadmits ?_).mono fun b t ht ⟨hsized, hb⟩ =>
      ⟨hsized, (hretains.trans ht).keying _ _ hkeying, hb⟩
    rw [htransits₁₀, htransits₉, htransits₅, htransits₄, key_eq hretains.network]
    exact key_ne_of_find? hfind
  · obtain ⟨x, hx, hkey, htarget⟩ := (finds_of_find? hfind).recorded
    obtain ⟨source, hsource⟩ := hs₁.transits x hx
    have hcondition : x.key.condition = some ⟨layer, token⟩ := congrArg TransitKey.condition hkey
    have hbits : t₁.hiddenBits source = t₁.hiddenBits old :=
      congrArg TransitKey.hidden (hsource.key.symm.trans hkey)
    have hadmits := hsource.admits
    rw [hcondition] at hadmits
    show Yields n t₁ (Pure.pure earlier.target) _
    rw [← htarget]
    exact .pure ⟨hs₁.targets x hx, hkeying, hadmits.of_bits hs₁ hkeying hbits⟩

theorem yields_initial (name : String) : Yields n s (initial name) fun b _ => Sized n b := by
  refine .get_bind fun hs => .lift_bind fun p hp => ?_
  exact yields_freshHidden.bind fun hidden v _ ⟨hhidden, _⟩ =>
    (yields_nameState hhidden name).bind fun _ _ _ _ => .pure (sized_of_makeGates hs hp hhidden)

theorem yields_settle (hold : Sized n old) (ticks : Nat) : Yields n s (settle old ticks) fun b _ => Sized n b := by
  induction ticks generalizing s old with
  | zero => exact .pure hold
  | succ ticks ih =>
    exact (yields_transit hold fun t ht => (Option.not_mem_none t ht).elim).bind fun next t _ hnext => ih hnext

/-! ## Any sequence of calls -/

omit [Scalar α] in
/-- The target of a call is one of the states. -/
theorem exists_of_mapM {states : List (ControlState α)} {position : Option Nat} {target : Option (ControlState α)}
    (h : position.mapM (states[·]?) = some target) {t : ControlState α} (ht : t ∈ target) : ∃ i : Nat, states[i]? = some t := by
  obtain rfl : target = some t := ht
  cases position with
  | none => cases h
  | some i =>
    refine ⟨i, ?_⟩
    cases hi : states[i]? with
    | none =>
      rw [show (some i).mapM (states[·]?) = some <$> states[i]? from rfl, hi] at h
      cases h
    | some state =>
      rw [show (some i).mapM (states[·]?) = some <$> states[i]? from rfl, hi] at h
      exact Option.some.inj h

theorem yields_perform {states : List (ControlState α)} (hstates : ∀ state ∈ states, Sized n state) (c : Call) :
    Yields n s (c.perform states) fun states _ => ∀ state ∈ states, Sized n state := by
  have hsized : ∀ {i : Nat} {state : ControlState α}, states[i]? = some state → Sized n state := fun h =>
    hstates _ (List.mem_of_getElem? h)
  have hreturn : ∀ {x : Sequencing α (ControlState α)}, (Yields n s x fun b _ => Sized n b) →
      Yields n s (do return states ++ [← x]) fun states _ => ∀ state ∈ states, Sized n state := by
    intro x hx
    refine hx.bind fun next t _ hnext => .pure fun state hstate => ?_
    rcases List.mem_append.mp hstate with h | h
    · exact hstates state h
    · exact List.mem_singleton.mp h ▸ hnext
  cases c with
  | context name => exact (yields_setContext name).bind fun _ _ _ _ => .pure hstates
  | initial name => exact hreturn (yields_initial name)
  | transit gates old condition target =>
    simp only [Call.perform]
    split
    next htarget =>
      exact hreturn (yields_transit (hsized ‹_›) fun t ht => (exists_of_mapM htarget ht).elim fun _ => hsized)
    · exact .pure hstates
  | dispatch old layer token =>
    simp only [Call.perform]
    split
    next hold => exact hreturn ((yields_dispatch (hsized hold) layer token).mono fun _ _ _ h => h.1)
    · exact .pure hstates
  | settle old ticks =>
    simp only [Call.perform]
    split
    next hold => exact hreturn (yields_settle (hsized hold) ticks)
    · exact .pure hstates
  | label state name =>
    simp only [Call.perform]
    split
    next hstate => exact (yields_nameState (hsized hstate).hidden name).bind fun _ _ _ _ => .pure hstates
    · exact .pure hstates

end

namespace Recording

variable {n : Network α} {r : Recording α}

/-- What holds of a sequencer and of the states it returned, whatever was called. -/
structure Admitted (n : Network α) (r : Recording α) : Prop where
  sequencer : Admitting n r.sequencer
  states : ∀ state ∈ r.states, Sized n state

/-- One call. -/
theorem Admitted.call (h : r.Admitted n) (c : Call) : (r.call c).Admitted n := by
  obtain ⟨h₁, -, h₃⟩ := yields_perform h.states c h.sequencer
  unfold Recording.call
  rcases hrun : (c.perform r.states).run.run r.sequencer with ⟨e | states, s⟩
  · rw [hrun] at h₁
    exact ⟨h₁, h.states⟩
  · rw [hrun] at h₁ h₃
    exact ⟨h₁, h₃ states rfl⟩

/-- Whatever is called, every recorded transit is one that the sequencer admits. -/
theorem Admitted.calls (h : r.Admitted n) (cs : List Call) : (r.calls cs).Admitted n := by
  induction cs generalizing r with
  | nil => exact h
  | cons c cs ih => exact ih (h.call c)

/-- What any calls leave, on a sequencer over a network that was built. -/
theorem admitted_of_build {c : Config α} {built n : Network α} (hbuild : (Network.build c).value = .ok built)
    (hbooks : built.Keeps (fun _ _ => False) n) (hsound : n.Sound) {given : List (ControlState α)}
    (hgiven : ∀ state ∈ given, Sized n state) (cs : List Call) :
    ((⟨.new n, given⟩ : Recording α).calls cs).Admitted n := by
  have hbuilt := Network.builtFrom_of_build hbuild
  have hgo : n.size go = n.gates.size := by rw [hbooks.size, hbooks.gates, hbuilt.size_go]
  exact Admitted.calls ⟨admitting_new hsound hgo (hbooks.numbered hbuilt.numbered), hgiven⟩ cs

end Recording

end Sequencer

end Engram
