/-
  Engram.Proofs.Control.Keying — how a plan keys the condition layers.

  An invariant of what was recorded is kept by a plan if it is kept by its transits without
  condition, by its dispatches and by its choices (`secures_branches`). Three such invariants are
  used: each condition layer is keyed in one way, by the same state or by dispatch (`Ordered`);
  only transits with certain conditions were added (`Only`); and a layer is read by no state so
  far (`Unclaimed`).
-/

import Engram.Proofs.Control.Legal

namespace Engram

open LayerId

namespace Sequencer

variable {α β : Type} [Scalar α]

/-! ## Invariants that every operation keeps -/

namespace Stable

variable {I : Sequencer α → Prop} {gates : List Gate} {old target : ControlState α} {condition : Option Condition}

/-- The invariant allows for a transit under the condition, to a state with the property. -/
def Admits (I : Sequencer α → Prop) (condition : Option Condition) (P : ControlState α → Prop) : Prop :=
  ∀ s k input target, I s → k.condition = condition → P target → I { s with transits := s.transits ++ [⟨k, input, target⟩] }

/-- The invariant allows for the layer to be keyed. -/
def Keys (I : Sequencer α → Prop) (layer : LayerId) (keying : Keying) : Prop :=
  ∀ s, I s → s.keying.lookup layer = none → I { s with keying := s.keying ++ [(layer, keying)] }

theorem claim {layer : LayerId} {keying : Keying} (h : Keys I layer keying) (old : ControlState α) :
    Secures I (claim old layer keying) fun _ => True := by
  refine Secures.get.bind fun s hs => ?_
  cases hlookup : s.keying.lookup layer with
  | none => exact .set (h s hs hlookup)
  | some earlier =>
    dsimp only
    split
    · exact .throw _
    · exact .pure trivial

variable (h : Stable I)
include h

theorem record {P : ControlState α → Prop} (hadmits : Admits I condition P) (htarget : P target) :
    Secures I (record old condition target) fun next => next = target :=
  (h.jointInput old condition).bind fun input _ =>
    (Secures.modify fun s hs => hadmits s (s.key old condition) input target hs rfl htarget).bind fun _ _ => .pure rfl

theorem complete (hadmits : Admits I condition fun _ => True) (target : Option (ControlState α)) :
    Secures I (complete gates old condition target) fun _ => True := by
  refine Secures.get.bind fun s hs => ?_
  rcases s.find? (s.key old condition) with _ | earlier
  · cases target with
    | some target => exact (h.record hadmits trivial).mono fun _ _ => trivial
    | none =>
      exact (Secures.lift fun _ _ => trivial).bind fun p _ => h.freshHidden.bind fun hidden _ =>
        (h.record hadmits trivial).mono fun _ _ => trivial
  · cases target with
    | some target =>
      dsimp only
      split
      · exact .pure trivial
      · exact .throw _
    | none => exact .throw _

theorem transit (hadmits : Admits I condition fun _ => True)
    (hkeys : ∀ c ∈ condition, ∀ s, I s → Keys I c.layer (.select (s.hiddenBits old))) (target : Option (ControlState α)) :
    Secures I (transit gates old condition target) fun _ => True := by
  refine Secures.get.bind fun s _ => (Secures.lift fun _ _ => trivial).bind fun _ _ => ?_
  have hcomplete : Secures I (Sequencer.complete gates old condition target) fun _ => True := h.complete hadmits target
  cases condition with
  | none => exact hcomplete
  | some c => exact Secures.get.bind fun t ht => (claim (hkeys c rfl t ht) old).bind fun _ _ => hcomplete

/-- What is dispatched to opens the default gates only, be it new or recorded before. -/
theorem dispatch {layer : LayerId} {token : String} {P : ControlState α → Prop}
    (hadmits : Admits I (some ⟨layer, token⟩) P) (hkeys : Keys I layer .dispatch)
    (hnew : ∀ s p hidden, I s → makeGates s.network [] = .ok p → P ⟨p, hidden⟩)
    (hfound : ∀ s, I s → ∀ x ∈ s.transits, x.key.condition = some ⟨layer, token⟩ → P x.target) :
    Secures I (dispatch old layer token) P := by
  refine Secures.get.bind fun s _ => (Secures.lift fun _ _ => trivial).bind fun _ _ =>
    (claim hkeys old).bind fun _ _ => Secures.get.bind fun t ht => ?_
  rcases hfind : t.find? (t.key old (some ⟨layer, token⟩)) with _ | earlier
  · refine (h.offset layer).bind fun offset _ => (h.code _).bind fun code _ => Secures.get.bind fun u hu =>
      Secures.bind (.lift fun p hp => hp) fun p (hp : makeGates u.network [] = .ok p) =>
        h.freshName.bind fun name _ => (h.nameState _ name).bind fun _ _ => ?_
    exact (h.record hadmits (hnew u p _ hu hp)).mono fun next heq => heq ▸ hnew u p _ hu hp
  · obtain ⟨x, hx, hkey, htarget⟩ := (finds_of_find? hfind).recorded
    exact .pure (htarget ▸ hfound t ht x hx (congrArg TransitKey.condition hkey))

theorem initial (name : String) : Secures I (initial name) fun _ => True :=
  Secures.get.bind fun _ _ => (Secures.lift fun _ _ => trivial).bind fun _ _ => h.freshHidden.bind fun _ _ =>
    (h.nameState _ name).bind fun _ _ => .pure trivial

end Stable

omit [Scalar α] in
/-- What an operation keeps holds of what it leaves when it succeeds. -/
theorem Secures.of_does {I : Sequencer α → Prop} {Q : β → Prop} {x : Sequencing α β} {s later : Sequencer α} {b : β}
    (h : Secures I x Q) (hdoes : Does x s b later) (hs : I s) : I later ∧ Q b := by
  obtain ⟨h₁, h₂⟩ := h s hs
  unfold Does at hdoes
  rw [hdoes] at h₁ h₂
  exact ⟨h₁, h₂ b rfl⟩

variable {start ready state next : ControlState α} {s t later : Sequencer α} {registers : List (LayerId × String)}
  {n : Network α}

theorem secures_settle_of_plain {I : Sequencer α → Prop}
    (hplain : ∀ gates old target, Secures I (transit gates old none target) fun _ => True) (state : ControlState α) (ticks : Nat) :
    Secures I (settle state ticks) fun _ => True := by
  induction ticks generalizing state with
  | zero => exact .pure trivial
  | succ ticks ih => exact (hplain _ _ _).bind fun next _ => ih next

/-- A plan keeps what is kept by transits without condition, by dispatches on the layers that it
branches on, and by transits on the layers that it chooses on. -/
theorem secures_branches {I : Sequencer α → Prop} {each choose : LayerId → Prop}
    (hplain : ∀ gates old target, Secures I (transit gates old none target) fun _ => True)
    (heach : ∀ l, each l → ∀ old token, Secures I (dispatch old l token) fun _ => True)
    (hchoose : ∀ l, choose l → ∀ gates old token target, Secures I (transit gates old (some ⟨l, token⟩) target) fun _ => True)
    (plan : Plan) (hplan : plan.Branches each choose) :
    Secures I (plan.record registers start state) fun _ => True := by
  induction plan generalizing state with
  | home => exact (hplain _ _ _).bind fun _ _ => .pure trivial
  | act gates rest ih => exact (hplain _ _ _).bind fun _ _ => ih hplan
  | settle ticks rest ih => exact (secures_settle_of_plain hplain state ticks).bind fun _ _ => ih hplan
  | each layer branch ih =>
    exact .forM fun r _ => (heach layer hplan.1 state r.2).bind fun _ _ => ih r.1 (hplan.2 r.1)
  | gather layer branch meet rest ih =>
    have hfold : Secures I (registers.foldlM (meetBranch state layer branch meet) none) fun _ => True :=
      .foldlM (fun _ _ r _ => (heach layer hplan.1 state r.2).bind fun _ _ => (hplain _ _ _).bind fun _ _ =>
        (hplain _ _ _).bind fun _ _ => .pure trivial) trivial
    refine hfold.bind fun meeting _ => ?_
    cases meeting with
    | none => exact .throw _
    | some meeting => exact ih hplan.2
  | choose layer idle taken gates rest ih =>
    exact (hchoose layer hplan.1 _ _ _ _).bind fun _ _ => (hchoose layer hplan.1 _ _ _ _).bind fun _ _ => ih hplan.2

/-! ## How layers are keyed -/

/-- Layers are keyed in one way each: `ready` selects on the opcode, and operands are dispatched on,
to states that open the default gates. -/
structure Ordered (n : Network α) (ready : ControlState α) (s : Sequencer α) : Prop where
  keeps : n.Keeps (fun l _ => l ≠ gh) s.network
  opcode : ∀ k, s.keying.lookup opc = some k → k = .select ((n.layer gh).bits ready.hidden)
  operand : ∀ l ∈ operandLayers, ∀ k, s.keying.lookup l = some k → k = .dispatch
  targets : ∀ x ∈ s.transits, ∀ c ∈ x.key.condition, c.layer ∈ operandLayers → n.Opens x.target.gates []

/-- Only transits with a condition as required were added. -/
def Only (P : Option Condition → Prop) (s later : Sequencer α) : Prop :=
  ∀ x ∈ later.transits, x ∈ s.transits ∨ P x.key.condition

/-- No state reads the layer. -/
def Unclaimed (l : LayerId) (s : Sequencer α) : Prop := s.keying.lookup l = none

/-- No state but the given one selects on the layer. -/
structure Reserved (n : Network α) (l : LayerId) (state : ControlState α) (s : Sequencer α) : Prop where
  keeps : n.Keeps (fun l _ => l ≠ gh) s.network
  keying : ∀ k, s.keying.lookup l = some k → k = .select ((n.layer gh).bits state.hidden)

theorem stable_ordered : Stable (Ordered n ready) :=
  ⟨fun h hkeeps => { h with keeps := h.keeps.trans hkeeps }, fun h _ _ _ _ _ => { h with }⟩

omit [Scalar α] in
theorem lookup_append_of_ne {l layer : LayerId} (h : l ≠ layer) (keying : List (LayerId × Keying)) (k : Keying) :
    (keying ++ [(layer, k)]).lookup l = keying.lookup l := by
  rw [List.lookup_append, List.lookup_cons, beq_false_of_ne h, List.lookup_nil, Option.or_none]

theorem ordered_keys {layer : LayerId} {keying : Keying} (hopcode : layer = opc → keying = .select ((n.layer gh).bits ready.hidden))
    (hoperand : layer ∈ operandLayers → keying = .dispatch) : Stable.Keys (Ordered n ready) layer keying := by
  intro s hs hnone
  have hlookup {l : LayerId} {k : Keying} (h : (s.keying ++ [(layer, keying)]).lookup l = some k) :
      s.keying.lookup l = some k ∨ (l = layer ∧ k = keying) := by
    by_cases hl : l = layer
    · subst hl
      rw [List.lookup_append, hnone, Option.none_or, List.lookup_cons, beq_self_eq_true] at h
      exact .inr ⟨rfl, (Option.some.inj h).symm⟩
    · rw [lookup_append_of_ne hl] at h
      exact .inl h
  refine { hs with opcode := fun k hk => ?_, operand := fun l hl k hk => ?_ }
  · rcases hlookup hk with hk | ⟨rfl, rfl⟩
    · exact hs.opcode k hk
    · exact hopcode rfl
  · rcases hlookup hk with hk | ⟨rfl, rfl⟩
    · exact hs.operand l hl k hk
    · exact hoperand hl

theorem ordered_admits {condition : Option Condition} {P : ControlState α → Prop}
    (h : ∀ c ∈ condition, c.layer ∈ operandLayers → ∀ target, P target → n.Opens target.gates []) :
    Stable.Admits (Ordered n ready) condition P := by
  intro s k input target hs hk htarget
  refine { hs with targets := fun x hx c hc hl => ?_ }
  rcases List.mem_append.mp hx with hx | hx
  · exact hs.targets x hx c hc hl
  · obtain rfl := List.mem_singleton.mp hx
    exact h c (hk ▸ hc) hl target htarget

theorem ordered_plain (gates : List Gate) (old : ControlState α) (target : Option (ControlState α)) :
    Secures (Ordered n ready) (transit gates old none target) fun _ => True :=
  stable_ordered.transit (ordered_admits fun c hc => (Option.not_mem_none c hc).elim) (fun c hc => (Option.not_mem_none c hc).elim) target

theorem ordered_choose (gates : List Gate) (old : ControlState α) (token : String) (target : Option (ControlState α)) :
    Secures (Ordered n ready) (transit gates old (some ⟨co, token⟩) target) fun _ => True := by
  have hco : co ≠ opc ∧ co ∉ operandLayers := by decide
  refine stable_ordered.transit (ordered_admits fun c hc => ?_) (fun c hc s _ => ?_) target <;> obtain rfl := Option.some.inj hc
  · exact fun hl => absurd hl hco.2
  · exact ordered_keys (fun heq => absurd heq hco.1) fun hl => absurd hl hco.2

theorem ordered_ready (gates : List Gate) (token : String) (target : Option (ControlState α)) :
    Secures (Ordered n ready) (transit gates ready (some ⟨opc, token⟩) target) fun _ => True := by
  have hopc : opc ∉ operandLayers := by decide
  refine stable_ordered.transit (ordered_admits fun c hc => ?_) (fun c hc s hs => ?_) target <;> obtain rfl := Option.some.inj hc
  · exact fun hl => absurd hl hopc
  · have hbits : s.hiddenBits ready = (n.layer gh).bits ready.hidden :=
      congrArg (·.bits ready.hidden) (hs.keeps.activator gh)
    exact ordered_keys (fun _ => congrArg Keying.select hbits) fun hl => absurd hl hopc

theorem ordered_dispatch (hgo : n.size go = n.gates.size) {layer : LayerId} (hlayer : layer ∈ operandLayers)
    (old : ControlState α) (token : String) :
    Secures (Ordered n ready) (dispatch old layer token) fun next => n.Opens next.gates [] := by
  have hopc : ∀ l ∈ operandLayers, l ≠ opc := by decide
  refine stable_ordered.dispatch (ordered_admits fun _ _ _ _ h => h)
    (ordered_keys (fun heq => absurd heq (hopc layer hlayer)) fun _ => rfl) (fun s p hidden hs hp => ?_)
    fun s hs x hx hkey => hs.targets x hx _ hkey hlayer
  have hsize : s.network.size go = s.network.gates.size := by rw [hs.keeps.size, hs.keeps.gates, hgo]
  exact (Network.opens_makeGates hsize hp).of_keeps hs.keeps

theorem stable_only (P : Option Condition → Prop) (s : Sequencer α) : Stable (Only P s) := ⟨fun h _ => h, fun h _ _ _ _ _ => h⟩

omit [Scalar α] in
theorem only_admits {P : Option Condition → Prop} {condition : Option Condition} (h : P condition) {Q : ControlState α → Prop} :
    Stable.Admits (Only P s) condition Q := by
  intro t k input target ht hk _ x hx
  rcases List.mem_append.mp hx with hx | hx
  · exact ht x hx
  · rw [List.mem_singleton.mp hx]
    exact .inr (hk ▸ h)

theorem only_transit {P : Option Condition → Prop} {condition : Option Condition} (h : P condition) (gates : List Gate)
    (old : ControlState α) (target : Option (ControlState α)) :
    Secures (Only P s) (transit gates old condition target) fun _ => True :=
  (stable_only P s).transit (only_admits h) (fun _ _ _ _ _ ht _ => ht) target

theorem only_dispatch {P : Option Condition → Prop} {layer : LayerId} {token : String} (h : P (some ⟨layer, token⟩))
    (old : ControlState α) : Secures (Only P s) (dispatch old layer token) fun _ => True :=
  (stable_only P s).dispatch (only_admits h) (fun _ ht _ => ht) (fun _ _ _ _ _ => trivial) fun _ _ _ _ _ => trivial

theorem stable_unclaimed (l : LayerId) : Stable (Unclaimed (α := α) l) := ⟨fun h _ => h, fun h _ _ _ _ _ => h⟩

omit [Scalar α] in
theorem unclaimed_keys {l layer : LayerId} (h : layer ≠ l) (keying : Keying) :
    Stable.Keys (Unclaimed (α := α) l) layer keying := by
  intro s hs _
  unfold Unclaimed at hs ⊢
  rw [lookup_append_of_ne h.symm]
  exact hs

theorem unclaimed_transit {l : LayerId} {condition : Option Condition} (h : ∀ c ∈ condition, c.layer ≠ l)
    (gates : List Gate) (old : ControlState α) (target : Option (ControlState α)) :
    Secures (Unclaimed l) (transit gates old condition target) fun _ => True :=
  (stable_unclaimed l).transit (fun _ _ _ _ hs _ _ => hs) (fun c hc _ _ => unclaimed_keys (h c hc) _) target

theorem unclaimed_dispatch {l layer : LayerId} (h : layer ≠ l) (old : ControlState α) (token : String) :
    Secures (Unclaimed l) (dispatch old layer token) fun _ => True :=
  (stable_unclaimed l).dispatch (fun _ _ _ _ hs _ _ => hs) (unclaimed_keys h _) (fun _ _ _ _ _ => trivial)
    fun _ _ _ _ _ => trivial

/-- A state may select on a layer that is reserved for it. -/
theorem reserved_transit {l : LayerId} (gates : List Gate) (token : String) (target : Option (ControlState α)) :
    Secures (Reserved n l state) (transit gates state (some ⟨l, token⟩) target) fun _ => True := by
  refine Stable.transit ⟨fun h hkeeps => { h with keeps := h.keeps.trans hkeeps }, fun h _ _ _ _ _ => { h with }⟩
    (fun _ _ _ _ hs _ _ => { hs with }) (fun c hc s hs t ht hnone => { ht with keying := fun k hk => ?_ }) target
  obtain rfl := Option.some.inj hc
  have hbits : s.hiddenBits state = (n.layer gh).bits state.hidden :=
    congrArg (·.bits state.hidden) (hs.keeps.activator gh)
  dsimp only at hk hnone
  rw [List.lookup_append, hnone, Option.none_or, List.lookup_cons, beq_self_eq_true] at hk
  rw [← Option.some.inj hk, hbits]

/-- A plan that does not branch on a layer adds transits without condition or keyed on other layers. -/
theorem only_of_avoids {P : Option Condition → Prop} {l : LayerId} (hnone : P none) (hother : ∀ c, c.layer ≠ l → P (some c))
    {plan : Plan} (h : plan.Avoids l) : Secures (Only P s) (plan.record registers start state) fun _ => True := by
  have hplan : plan.Branches (· ≠ l) (· ≠ l) := h
  refine secures_branches (only_transit hnone) (fun layer hlayer old token => ?_) (fun layer hlayer gates old token target => ?_)
    plan hplan
  · exact only_dispatch (hother ⟨layer, token⟩ hlayer) old
  · exact only_transit (hother ⟨layer, token⟩ hlayer) gates old target

theorem unclaimed_of_avoids {l : LayerId} {plan : Plan} (h : plan.Avoids l) :
    Secures (Unclaimed l) (plan.record registers start state) fun _ => True :=
  secures_branches (fun gates old target => unclaimed_transit (fun c hc => (Option.not_mem_none c hc).elim) gates old target)
    (fun _ hlayer old token => unclaimed_dispatch hlayer old token)
    (fun _ hlayer gates old _ target => unclaimed_transit (fun _ hc => Option.some.inj hc ▸ hlayer) gates old target) plan h

/-- A plan that branches on operands and chooses on the comparison output keeps the order. -/
theorem ordered_of_branches (hgo : n.size go = n.gates.size) {plan : Plan}
    (h : plan.Branches (· ∈ operandLayers) (· = co)) :
    Secures (Ordered n ready) (plan.record registers start state) fun _ => True :=
  secures_branches ordered_plain (fun _ hlayer old token => (ordered_dispatch hgo hlayer old token).mono fun _ _ => trivial)
    (fun _ hlayer gates old token target => by subst hlayer; exact ordered_choose gates old token target) plan h

/-- The routine of an opcode keeps what is kept by the transit from `ready` and by its plan. -/
theorem secures_opcode_of {I : Sequencer α → Prop} (h : Stable I) {op : Opcode}
    (hready : ∀ gates target, Secures I (transit gates ready (some ⟨opc, op.mnemonic⟩) target) fun _ => True)
    (hplain : ∀ gates old target, Secures I (transit gates old none target) fun _ => True)
    (hplan : ∀ gates plan, op.routine = .run gates plan → ∀ state, Secures I (plan.record registers start state) fun _ => True) :
    Secures I (op.record registers start ready) fun _ => True := by
  refine (h.setContext _).bind fun _ _ => ?_
  cases hroutine : op.routine with
  | skip => exact (hready _ _).bind fun _ _ => .pure trivial
  | halt =>
    exact (hready _ _).bind fun halted _ => (h.nameState halted _).bind fun _ _ => (hplain _ _ _).bind fun _ _ => .pure trivial
  | run gates plan =>
    exact (hready _ _).bind fun entered _ => (h.nameState entered _).bind fun _ _ => hplan gates plan hroutine entered

theorem ordered_opcode (hgo : n.size go = n.gates.size) (op : Opcode) :
    Secures (Ordered n ready) (op.record registers start ready) fun _ => True :=
  secures_opcode_of stable_ordered (fun gates => ordered_ready gates _) ordered_plain fun _ _ hroutine _ =>
    ordered_of_branches hgo ((Opcode.branches hroutine).mono (fun _ hl => hl) fun _ hl => hl.2)

/-- An opcode adds no transit that is keyed on another opcode. -/
theorem only_opcode {op : Opcode} {token : String} (hne : op.mnemonic ≠ token) :
    Secures (Only (· ≠ some ⟨opc, token⟩) s) (op.record registers start ready) fun _ => True := by
  refine secures_opcode_of (stable_only _ s) (fun gates => only_transit (fun heq => hne ?_) gates ready)
    (only_transit fun h => nomatch h) fun _ _ hroutine _ => only_of_avoids (fun h => nomatch h) (fun c hc heq => hc ?_)
      (Opcode.avoids_opc hroutine)
  · exact congrArg Condition.token (Option.some.inj heq)
  · exact congrArg Condition.layer (Option.some.inj heq)

/-- One opcode reads the comparison output. -/
theorem unclaimed_opcode {op : Opcode} (hop : op ≠ .jie) :
    Secures (Unclaimed co) (op.record registers start ready) fun _ => True := by
  have hopc : opc ≠ co := by decide
  exact secures_opcode_of (stable_unclaimed co) (fun gates => unclaimed_transit (fun _ hc => Option.some.inj hc ▸ hopc) gates ready)
    (unclaimed_transit fun c hc => (Option.not_mem_none c hc).elim) fun _ _ hroutine _ =>
      unclaimed_of_avoids (Opcode.avoids_co hop hroutine)

end Sequencer

end Engram
