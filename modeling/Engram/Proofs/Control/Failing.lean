/-
  Engram.Proofs.Control.Failing — where an operation of the sequencer can fail.

  Most operations cannot (`Sure`). A transit looks up gates, checks that its condition is read, and
  claims the layer of its condition; where the network has the gates, the state opens those that it
  should, and no other state selects on the layer, all of this passes. What is left is the conflict
  with another transit that was recorded with the same key (`fails_of_transit`). A dispatch returns
  what is recorded with its key, and so it does not fail at all (`not_fails_dispatch`).
-/

import Engram.Proofs.Control.Governing

namespace Engram

open LayerId

variable {α β γ : Type}

/-- The fault that a state leads elsewhere already. -/
def Fault.IsConflict (e : Fault α) : Prop := ∃ context state condition, e = .transitConflict context state condition

namespace Sequencer

/-! ## Operations that fail, and operations that cannot -/

/-- The operation fails, and leaves a sequencer. -/
def Fails (x : Sequencing α β) (s : Sequencer α) (e : Fault α) (later : Sequencer α) : Prop :=
  x.run.run s = (.error e, later)

/-- The operation succeeds on every sequencer. -/
def Sure (x : Sequencing α β) : Prop := ∀ s, ∃ b t, Does x s b t

section

variable {x : Sequencing α β} {f : β → Sequencing α γ} {s t later : Sequencer α} {b : β} {e : Fault α}

theorem of_fails_bind (h : Fails (x >>= f) s e later) : Fails x s e later ∨ ∃ b t, Does x s b t ∧ Fails (f b) t e later := by
  unfold Does Fails at *
  have hbind : (x >>= f).run.run s = (ExceptT.bindCont f (x.run.run s).1).run (x.run.run s).2 := rfl
  rw [hbind] at h
  rcases hx : x.run.run s with ⟨e' | b, t⟩
  · rw [hx] at h
    cases h
    exact .inl rfl
  · rw [hx] at h
    exact .inr ⟨b, t, rfl, h⟩

theorem fails_of_bind (hx : Does x s b t) (hf : Fails (f b) t e later) : Fails (x >>= f) s e later := by
  unfold Does at hx
  unfold Fails at *
  have hbind : (x >>= f).run.run s = (ExceptT.bindCont f (x.run.run s).1).run (x.run.run s).2 := rfl
  rw [hbind, hx]
  exact hf

theorem Fails.bind (h : Fails x s e later) : Fails (x >>= f) s e later := by
  unfold Fails at *
  have hbind : (x >>= f).run.run s = (ExceptT.bindCont f (x.run.run s).1).run (x.run.run s).2 := rfl
  rw [hbind, h]
  rfl

theorem Sure.not_fails (h : Sure x) : ¬ Fails x s e later := by
  intro hfails
  obtain ⟨b, t, hdoes⟩ := h s
  unfold Does at hdoes
  unfold Fails at hfails
  rw [hdoes] at hfails
  cases hfails

theorem Sure.bind (h : Sure x) (hf : ∀ b, Sure (f b)) : Sure (x >>= f) := by
  intro s
  obtain ⟨b, t, hx⟩ := h s
  obtain ⟨c, later, hc⟩ := hf b t
  exact ⟨c, later, does_of_bind hx hc⟩

/-- What comes after an operation that cannot fail. -/
theorem Sure.of_fails_bind (h : Sure x) (hfails : Fails (x >>= f) s e later) : ∃ b t, Does x s b t ∧ Fails (f b) t e later :=
  (Sequencer.of_fails_bind hfails).resolve_left h.not_fails

theorem sure_pure (b : β) : Sure (pure b : Sequencing α β) := fun s => ⟨b, s, rfl⟩

theorem sure_get : Sure (get : Sequencing α (Sequencer α)) := fun s => ⟨s, s, rfl⟩

theorem sure_set (t : Sequencer α) : Sure (set t : Sequencing α PUnit) := fun _ => ⟨⟨⟩, t, rfl⟩

theorem of_fails_get_bind {f : Sequencer α → Sequencing α γ} (h : Fails (get >>= f) s e later) : Fails (f s) s e later := h

theorem of_fails_lift_bind {r : Except (Fault α) β} (h : Fails (liftM r >>= f) s e later) :
    (r = .error e ∧ later = s) ∨ ∃ b, r = .ok b ∧ Fails (f b) s e later := by
  cases r with
  | error e' =>
    cases h
    exact .inl ⟨rfl, rfl⟩
  | ok b => exact .inr ⟨b, rfl, h⟩

theorem of_fails_throw {e' : Fault α} (h : Fails (throw e' : Sequencing α β) s e later) : e = e' ∧ later = s := by
  cases h
  exact ⟨rfl, rfl⟩

end

variable [Scalar α]

omit [Scalar α] in
theorem sure_setContext (context : String) : Sure (setContext (α := α) context) := fun _ => ⟨_, _, rfl⟩

omit [Scalar α] in
theorem sure_freshName : Sure (freshName (α := α)) := fun _ => ⟨_, _, rfl⟩

theorem sure_freshHidden : Sure (freshHidden (α := α)) := fun _ => ⟨_, _, rfl⟩

theorem sure_nameState (state : ControlState α) (name : String) : Sure (nameState state name) := fun _ => ⟨_, _, rfl⟩

theorem sure_offset (layer : LayerId) : Sure (offset (α := α) layer) := by
  refine sure_get.bind fun s => ?_
  cases s.offsets.lookup layer with
  | some signs => exact sure_pure _
  | none => exact (sure_set _).bind fun _ => sure_pure _

theorem sure_code (condition : Condition) : Sure (code (α := α) condition) := by
  refine sure_get.bind fun s => ?_
  cases s.codes.lookup condition with
  | some signs => exact sure_pure _
  | none => exact (sure_set _).bind fun _ => sure_pure _

theorem sure_record (old : ControlState α) (condition : Option Condition) (target : ControlState α) :
    Sure (record old condition target) := by
  cases condition with
  | none => exact fun _ => ⟨_, _, rfl⟩
  | some c => exact fun _ => ⟨_, _, rfl⟩

/-! ## Checks that pass -/

/-- Of the gates from the condition layers, the one from the given layer is listed and no other. -/
def LetsIn (gates : List Gate) (read : Option LayerId) : Prop := ∀ l ∈ conditions, Gate.copy gh l ∈ gates ↔ read = some l

/-- The network has the given gates, those that the sequencer looks up are among them, and a unit
that is on is told from one that is off. -/
structure Legible (units : List Gate) (n : Network α) : Prop where
  gates : n.gates.gates = units
  on : (n.activator go).isOn (n.activator go).on = true
  off : (n.activator go).isOn (n.activator go).off = false
  default : ∀ g ∈ defaultGates, g ∈ units
  condition : ∀ l ∈ conditions, Gate.copy gh l ∈ units

section

variable {units gates : List Gate} {n later : Network α} {s : Sequencer α} {old : ControlState α} {condition : Option Condition}

theorem Legible.keeps {keep : LayerId → String → Prop} (h : Legible units n) (hkeeps : n.Keeps keep later) :
    Legible units later := by
  refine ⟨hkeeps.gates ▸ h.gates, ?_, ?_, h.default, h.condition⟩
  · rw [hkeeps.activator]
    exact h.on
  · rw [hkeeps.activator]
    exact h.off

theorem Legible.unit? (h : Legible units n) {g : Gate} (hg : g ∈ units) : ∃ u, n.gates.unit? g = some u :=
  GateMap.unit?_of_mem (h.gates ▸ hg)

/-- A state that opens what the condition is read through may be keyed on it. -/
theorem keyed_of_opens (h : Legible units n) (hopens : n.Opens old.gates gates)
    (hlayer : ∀ c ∈ condition, c.layer ∈ conditions) (hreads : LetsIn gates (condition.map (·.layer))) :
    Keyed n old condition := by
  refine ⟨hlayer, fun l hl => ?_⟩
  obtain ⟨u, hu⟩ := h.unit? (h.condition l hl)
  have hnot : ∀ l ∈ conditions, Gate.copy gh l ∉ defaultGates := by decide
  have hlevel := hopens.level _ u hu
  have hentry : old.gates.entry u = (n.activator go).level (decide (Gate.copy gh l ∈ defaultGates ++ gates)) := by
    rw [Pattern.entry, Array.getD_eq_getD_getElem?, hlevel, Option.getD_some]
  refine ⟨u, hu, ?_⟩
  have hiff : Gate.copy gh l ∈ defaultGates ++ gates ↔ ∃ c ∈ condition, c.layer = l := by
    rw [List.mem_append, or_iff_right (hnot l hl), hreads l hl, Option.map_eq_some_iff]
    rfl
  rw [hentry, ← hiff]
  by_cases hg : Gate.copy gh l ∈ defaultGates ++ gates
  · rw [decide_eq_true hg]
    exact iff_of_true h.on hg
  · rw [decide_eq_false hg]
    refine iff_of_false ?_ hg
    intro hon
    exact Bool.false_ne_true (h.off.symm.trans hon)

omit [Scalar α] in
theorem of_forM_error {l : List γ} {f : γ → Except (Fault α) Unit} {e : Fault α} (h : l.forM f = .error e) :
    ∃ x ∈ l, f x = .error e := by
  induction l with
  | nil => cases h
  | cons y rest ih =>
    have h : (f y >>= fun _ => rest.forM f) = .error e := h
    cases hy : f y with
    | error e' =>
      rw [hy] at h
      cases h
      exact ⟨y, List.mem_cons_self, hy⟩
    | ok u =>
      rw [hy] at h
      obtain ⟨x, hx, hfx⟩ := ih h
      exact ⟨x, List.mem_cons_of_mem _ hx, hfx⟩

omit [Scalar α] in
theorem forM_ok {l : List γ} {f : γ → Except (Fault α) Unit} (h : ∀ x ∈ l, f x = .ok ()) : l.forM f = .ok () := by
  cases hl : l.forM f with
  | ok u => rfl
  | error e =>
    obtain ⟨x, hx, hfx⟩ := of_forM_error hl
    rw [h x hx] at hfx
    cases hfx

theorem checkCondition_of_keyed (h : Keyed s.network old condition) : s.checkCondition old condition = .ok () := by
  have hlayers : conditions.forM (s.checkLayer old condition) = .ok () := by
    refine forM_ok fun l hl => ?_
    obtain ⟨u, hu, hopen⟩ := h.isOpen l hl
    have hany : condition.any (·.layer == l) = (s.network.activator go).isOn (old.gates.entry u) := by
      rw [Bool.eq_iff_iff, hopen, Option.any_eq_true]
      exact exists_congr fun c => and_congr_right fun _ => beq_iff_eq
    unfold checkLayer
    rw [Network.unit_ok_iff.mpr hu, hany]
    simp only [bind, Except.bind]
    cases (s.network.activator go).isOn (old.gates.entry u) <;> rfl
  unfold checkCondition
  cases condition with
  | none => exact hlayers
  | some c =>
    dsimp only
    rw [if_pos (List.contains_iff_mem.mpr (h.layer c rfl))]
    exact hlayers

/-- A gate pattern can be made if its gates are there. -/
theorem makeGates_of_subset (hdefault : defaultGates ⊆ n.gates.gates) (hgates : gates ⊆ n.gates.gates) :
    ∃ p, makeGates n gates = .ok p := by
  obtain ⟨units, hunits⟩ := Network.exists_units fun g hg =>
    GateMap.unit?_of_mem ((List.mem_append.mp hg).elim (fun hg => hdefault hg) fun hg => hgates hg)
  unfold makeGates
  rw [hunits]
  exact ⟨_, rfl⟩

theorem exists_makeGates (h : Legible units n) (hgates : gates ⊆ units) : ∃ p, makeGates n gates = .ok p :=
  makeGates_of_subset (fun g hg => h.gates ▸ h.default g hg) (h.gates ▸ hgates)

end

/-! ## The operations -/

section

variable {units gates : List Gate} {s later : Sequencer α} {old : ControlState α} {condition : Option Condition} {e : Fault α}

/-- A layer that is keyed in no way or in the same one can be claimed. -/
theorem not_fails_claim {layer : LayerId} {keying : Keying} (h : ∀ k, s.keying.lookup layer = some k → k = keying) :
    ¬ Fails (claim old layer keying) s e later := by
  intro hfails
  have hmatch := of_fails_get_bind hfails
  cases hlookup : s.keying.lookup layer with
  | none =>
    rw [hlookup] at hmatch
    exact (sure_set _).not_fails hmatch
  | some earlier =>
    rw [hlookup] at hmatch
    dsimp only at hmatch
    rw [if_neg fun hne => hne (h earlier hlookup)] at hmatch
    exact (sure_pure _).not_fails hmatch

/-- Once its condition has passed, a transit fails only if something else is recorded with its key or
if a gate of its new state is not there. Then it has changed nothing yet. -/
theorem fails_of_complete {target : Option (ControlState α)} (h : Fails (complete gates old condition target) s e later) :
    later = s ∧ ((e.IsConflict ∧ ∃ x ∈ s.transits, x.key = s.key old condition) ∨
      (target = none ∧ makeGates s.network gates = .error e)) := by
  have hmatch := of_fails_get_bind h
  have hconflict : ∀ x, s.find? (s.key old condition) = some x → Fails (throw (.transitConflict s.context (s.stateName old)
      (s.conditionName condition)) : Sequencing α (ControlState α)) s e later →
      later = s ∧ e.IsConflict ∧ ∃ x ∈ s.transits, x.key = s.key old condition := by
    intro x hx hthrow
    obtain ⟨rfl, rfl⟩ := of_fails_throw hthrow
    obtain ⟨y, hy, hkey, -⟩ := (finds_of_find? hx).recorded
    exact ⟨rfl, ⟨_, _, _, rfl⟩, y, hy, hkey⟩
  rcases hfound : s.find? (s.key old condition) with _ | earlier
  · rw [hfound] at hmatch
    rcases target with _ | target
    · rcases of_fails_lift_bind hmatch with ⟨herror, hlater⟩ | ⟨p, -, hrest⟩
      · exact ⟨hlater, .inr ⟨rfl, herror⟩⟩
      · obtain ⟨hidden, t, -, hrecord⟩ := sure_freshHidden.of_fails_bind hrest
        exact absurd hrecord (sure_record _ _ _).not_fails
    · exact absurd hmatch (sure_record _ _ _).not_fails
  · rw [hfound] at hmatch
    rcases target with _ | target
    · obtain ⟨hlater, hrest⟩ := hconflict _ hfound hmatch
      exact ⟨hlater, .inl hrest⟩
    · dsimp only at hmatch
      split at hmatch
      · exact absurd hmatch (sure_pure _).not_fails
      · obtain ⟨hlater, hrest⟩ := hconflict _ hfound hmatch
        exact ⟨hlater, .inl hrest⟩

/-- A transit whose condition is read, and whose layer no other state selects on, fails only if
something else is recorded with its key. -/
theorem fails_of_transit (hn : Legible units s.network) (hgates : gates ⊆ units) {target : Option (ControlState α)}
    (hkeyed : Keyed s.network old condition)
    (hclaim : ∀ c ∈ condition, ∀ k, s.keying.lookup c.layer = some k → k = .select (s.hiddenBits old))
    (h : Fails (transit gates old condition target) s e later) :
    e.IsConflict ∧ Same s later ∧ ∃ x ∈ s.transits, x.key = s.key old condition := by
  rcases of_fails_lift_bind (of_fails_get_bind h) with ⟨herror, -⟩ | ⟨v, -, hbody⟩
  · rw [checkCondition_of_keyed hkeyed] at herror
    cases herror
  obtain ⟨p, hp⟩ := exists_makeGates hn hgates
  cases condition with
  | none =>
    obtain ⟨rfl, ⟨hconflict, hfound⟩ | ⟨-, herror⟩⟩ := fails_of_complete hbody
    · exact ⟨hconflict, ⟨rfl, rfl, rfl⟩, hfound⟩
    · rw [hp] at herror
      cases herror
  | some c =>
    rcases of_fails_bind (of_fails_get_bind hbody) with hfails | ⟨v, t, hclaimed, hcomplete⟩
    · exact absurd hfails (not_fails_claim (hclaim c rfl))
    have hsame := does_claim hclaimed
    obtain ⟨rfl, ⟨hconflict, x, hx, hkey⟩ | ⟨-, herror⟩⟩ := fails_of_complete hcomplete
    · exact ⟨hconflict, hsame, x, hsame.transits ▸ hx, hkey.trans (key_of_network hsame.network _ _)⟩
    · rw [hsame.network, hp] at herror
      cases herror

/-- With the default gates there, a dispatch fails only at its checks. -/
theorem fails_of_dispatch {p : Pattern α} (hp : makeGates s.network [] = .ok p) {layer : LayerId} {token : String}
    (h : Fails (dispatch old layer token) s e later) :
    (s.checkCondition old (some ⟨layer, token⟩) = .error e ∧ later = s) ∨ Fails (claim old layer .dispatch) s e later := by
  rcases of_fails_lift_bind (of_fails_get_bind h) with herror | ⟨v, -, hbody⟩
  · exact .inl herror
  rcases of_fails_bind hbody with hfails | ⟨v, t, hclaimed, hrest⟩
  · exact .inr hfails
  have hsame := does_claim hclaimed
  have hmatch := of_fails_get_bind hrest
  rcases hfound : t.find? (t.key old (some ⟨layer, token⟩)) with _ | earlier
  · rw [hfound] at hmatch
    obtain ⟨signs, t₁, hoffset, h₁⟩ := (sure_offset _).of_fails_bind hmatch
    obtain ⟨signs', t₂, hcode, h₂⟩ := (sure_code _).of_fails_bind h₁
    have hnetwork := ((hsame.trans (does_offset hoffset)).trans (does_code hcode)).network
    rcases of_fails_lift_bind (of_fails_get_bind h₂) with ⟨herror, -⟩ | ⟨p', -, h₃⟩
    · rw [hnetwork, hp] at herror
      cases herror
    · obtain ⟨name, t₄, -, h₄⟩ := sure_freshName.of_fails_bind h₃
      obtain ⟨u, t₅, -, h₅⟩ := (sure_nameState _ _).of_fails_bind h₄
      exact absurd h₅ (sure_record _ _ _).not_fails
  · rw [hfound] at hmatch
    exact absurd hmatch (sure_pure _).not_fails

/-- A dispatch whose condition is read does not fail unless the layer is selected on. -/
theorem not_fails_dispatch (hn : Legible units s.network) {layer : LayerId} {token : String}
    (hkeyed : Keyed s.network old (some ⟨layer, token⟩)) (hclaim : ∀ k, s.keying.lookup layer = some k → k = .dispatch) :
    ¬ Fails (dispatch old layer token) s e later := by
  intro h
  obtain ⟨p, hp⟩ := exists_makeGates hn (List.nil_subset units)
  rcases fails_of_dispatch hp h with ⟨herror, -⟩ | hfails
  · rw [checkCondition_of_keyed hkeyed] at herror
    cases herror
  · exact not_fails_claim hclaim hfails

end

end Sequencer

end Engram
