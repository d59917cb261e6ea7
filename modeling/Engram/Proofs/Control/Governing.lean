/-
  Engram.Proofs.Control.Governing — which gates govern a recorded transit.

  A transit is recorded only from a state that opens the gate from a condition layer into the
  hidden layer exactly if the transit is keyed on that layer. The gate into the gate layer is not
  checked; but no routine opens one of the two without the other, so in a recorded automaton
  they are open together (`secures_instructions`). The sizes of all patterns are kept besides, since
  the blocks of the joint connections are cut by size.

  Whatever an operation does, it keeps an invariant of the sequencer, and its result has some
  property (`Secures`); each operation gets one lemma of this form.
-/

import Engram.Proofs.Control.Blocks
import Engram.Proofs.Control.Recording

namespace Engram

open LayerId

namespace Sequencer

variable {α β γ : Type}

/-! ## Operations that keep an invariant -/

/-- The operation keeps the invariant, also when it fails, and what it returns has the property. -/
def Secures (I : Sequencer α → Prop) (x : Sequencing α β) (Q : β → Prop) : Prop :=
  ∀ s, I s → I (x.run.run s).2 ∧ ∀ b, (x.run.run s).1 = .ok b → Q b

section

variable {I : Sequencer α → Prop} {Q : β → Prop}

theorem Secures.pure {b : β} (h : Q b) : Secures I (pure b) Q := by
  intro s hs
  exact ⟨hs, fun c hc => by cases hc; exact h⟩

theorem Secures.throw (e : Fault α) : Secures I (throw e) Q := by
  intro s hs
  exact ⟨hs, fun c hc => by cases hc⟩

theorem Secures.get : Secures I get I := by
  intro s hs
  exact ⟨hs, fun c hc => by cases hc; exact hs⟩

theorem Secures.set {t : Sequencer α} (h : I t) : Secures I (set t) fun _ => True := by
  intro s _
  exact ⟨h, fun _ _ => trivial⟩

theorem Secures.modify {f : Sequencer α → Sequencer α} (h : ∀ s, I s → I (f s)) :
    Secures I (modify f) fun _ => True := by
  intro s hs
  exact ⟨h s hs, fun _ _ => trivial⟩

theorem Secures.lift {r : Except (Fault α) β} (h : ∀ b, r = .ok b → Q b) : Secures I (liftM r) Q := by
  intro s hs
  cases r with
  | error e => exact ⟨hs, fun c hc => by cases hc⟩
  | ok b => exact ⟨hs, fun c hc => by cases hc; exact h b rfl⟩

theorem Secures.mono {Q' : β → Prop} {x : Sequencing α β} (h : Secures I x Q) (hq : ∀ b, Q b → Q' b) :
    Secures I x Q' := by
  intro s hs
  obtain ⟨h₁, h₂⟩ := h s hs
  exact ⟨h₁, fun b hb => hq b (h₂ b hb)⟩

theorem Secures.bind {R : γ → Prop} {x : Sequencing α β} {f : β → Sequencing α γ} (hx : Secures I x Q)
    (hf : ∀ b, Q b → Secures I (f b) R) : Secures I (x >>= f) R := by
  intro s hs
  obtain ⟨h₁, h₂⟩ := hx s hs
  have hbind : (x >>= f).run.run s = (ExceptT.bindCont f (x.run.run s).1).run (x.run.run s).2 := rfl
  rw [hbind]
  rcases hrun : x.run.run s with ⟨e | b, t⟩
  · rw [hrun] at h₁
    exact ⟨h₁, fun c hc => by cases hc⟩
  · rw [hrun] at h₁ h₂
    exact hf b (h₂ b rfl) t h₁

theorem Secures.forM {l : List γ} {f : γ → Sequencing α Unit} (h : ∀ x ∈ l, Secures I (f x) fun _ => True) :
    Secures I (l.forM f) fun _ => True := by
  induction l with
  | nil => exact .pure trivial
  | cons x rest ih =>
    exact (h x List.mem_cons_self).bind fun _ _ => ih fun y hy => h y (List.mem_cons_of_mem _ hy)

theorem Secures.foldlM {l : List γ} {f : β → γ → Sequencing α β} (h : ∀ b, Q b → ∀ x ∈ l, Secures I (f b x) Q)
    {b : β} (hb : Q b) : Secures I (l.foldlM f b) Q := by
  induction l generalizing b with
  | nil => exact .pure hb
  | cons x rest ih =>
    rw [List.foldlM_cons]
    exact (h b hb x List.mem_cons_self).bind fun c hc => ih (fun c hc y hy => h c hc y (List.mem_cons_of_mem _ hy)) hc

end

/-! ## What governs a transit -/

/-- The two gates from a condition layer into the control layers are listed together. -/
def Balanced (gates : List Gate) : Prop := ∀ l ∈ conditions, Gate.copy go l ∈ gates ↔ Gate.copy gh l ∈ gates

theorem balanced_nil : Balanced [] := fun _ _ => iff_of_false List.not_mem_nil List.not_mem_nil

theorem Balanced.append {gates gates' : List Gate} (h : Balanced gates) (h' : Balanced gates') :
    Balanced (gates ++ gates') := by
  intro l hl
  rw [List.mem_append, List.mem_append]
  exact or_congr (h l hl) (h' l hl)

theorem balanced_read (l : LayerId) : Balanced (Microcode.read l) := by
  intro c _
  simp [Microcode.read, Gate.copy, gh, go]

/-- Gates into other layers. -/
theorem balanced_of_targets {gates : List Gate} (h : ∀ g ∈ gates, g.target ≠ gh ∧ g.target ≠ go) : Balanced gates :=
  fun _ _ => iff_of_false (fun hg => (h _ hg).2 rfl) (fun hg => (h _ hg).1 rfl)

theorem balanced_flow {target : LayerId} (source : LayerId) (hgh : target ≠ gh) (hgo : target ≠ go) :
    Balanced (Gate.flow target source) := by
  refine balanced_of_targets fun g hg => ?_
  rcases List.mem_cons.mp hg with rfl | hg
  · exact ⟨hgh, hgo⟩
  · rw [List.mem_singleton.mp hg]
    exact ⟨hgh, hgo⟩

theorem balanced_learn (target source : LayerId) : Balanced [Gate.learn target source] := by
  intro c _
  simp [Gate.learn, Gate.copy]

end Sequencer

open Sequencer

/-- Wherever the plan goes, it opens balanced gates. -/
def Plan.Even (registers : List LayerId) : Plan → Prop
  | .home => True
  | .act gates rest => Balanced gates ∧ rest.Even registers
  | .settle _ rest => rest.Even registers
  | .each _ branch => ∀ r ∈ registers, (branch r).Even registers
  | .gather _ branch meet rest => (∀ r ∈ registers, Balanced (branch r)) ∧ Balanced meet ∧ rest.Even registers
  | .choose _ _ _ gates rest => Balanced gates ∧ rest.Even registers

def Routine.Even (registers : List LayerId) : Routine → Prop
  | .skip => True
  | .halt => True
  | .run gates plan => Balanced gates ∧ plan.Even registers

open Microcode in
theorem Opcode.even_routine {registers : List LayerId} (hgh : gh ∉ registers) (hgo : go ∉ registers) (op : Opcode) :
    op.routine.Even registers := by
  have hflow : ∀ r ∈ registers, ∀ source, Balanced (Gate.flow r source) := fun r hr source =>
    balanced_flow source (fun h => hgh (h ▸ hr)) (fun h => hgo (h ▸ hr))
  have hnext (target source : LayerId) (h : target ≠ gh ∧ target ≠ go := by decide) :
      Balanced (Gate.flow target source) := balanced_flow source h.1 h.2
  have hpoint (layer : LayerId) : Balanced (point layer) := (hnext mf layer).append (hnext mb layer)
  have hjump (layer : LayerId) : (Plan.jump layer).Even registers := ⟨hnext ip layer, trivial⟩
  cases op with
  | movv => exact ⟨balanced_read op1, fun r hr => ⟨hflow r hr op2, trivial⟩⟩
  | movd => exact ⟨balanced_read op1, fun r hr => ⟨balanced_read op2, fun s _ => ⟨hflow r hr s, trivial⟩⟩⟩
  | jmpv => exact hjump op1
  | jmpd => exact ⟨balanced_read op1, fun r _ => hjump r⟩
  | cmpv =>
    exact ⟨balanced_read op1, fun r _ =>
      ⟨hnext ci r, balanced_learn co ci, hnext ci op2, hnext co ci, trivial⟩⟩
  | cmpd =>
    exact ⟨balanced_read op1, fun r _ =>
      ⟨hnext ci r, balanced_learn co ci, balanced_read op2, fun s _ => ⟨hnext ci s, hnext co ci, trivial⟩⟩⟩
  | jie => exact ⟨balanced_read co, hnext ip op1, trivial⟩
  | subv => exact ⟨balanced_learn ip sf, (hnext sf sf).append (hnext sb sf), hjump op1⟩
  | subd =>
    exact ⟨balanced_learn ip sf, (hnext sf sf).append (hnext sb sf), balanced_read op1, fun r _ => hjump r⟩
  | ret => exact ⟨(hnext sb sb).append (hnext sf sb), hnext ip sf, trivial⟩
  | mem => exact ⟨balanced_read op1, fun r _ => ⟨balanced_learn r mf, trivial⟩⟩
  | rem => exact ⟨balanced_read op1, fun r hr => ⟨hflow r hr mf, trivial⟩⟩
  | nxt => exact ⟨(hnext mf mf).append (hnext mb mf), trivial⟩
  | prv => exact ⟨(hnext mb mb).append (hnext mf mb), trivial⟩
  | ref =>
    exact ⟨balanced_read op1, fun r _ => ⟨(balanced_learn mf r).append (balanced_learn mb r), trivial⟩⟩
  | drf => exact ⟨balanced_read op1, fun r _ => ⟨hpoint r, trivial⟩⟩
  | mref =>
    exact ⟨(balanced_read op1).append (hnext mp mb), fun r _ => hpoint r, balanced_learn mp mf, hpoint mp, trivial⟩
  | mdrf => exact ⟨hnext mp mf, hpoint mp, trivial⟩
  | exit => trivial
  | nop => trivial

namespace Sequencer

variable [Scalar α]

/-- A state as the routines make them. -/
structure Fit (n : Network α) (state : ControlState α) : Prop where
  hidden : state.hidden.size = n.size gh
  gates : ∃ gates, Balanced gates ∧ n.Opens state.gates gates

/-- The state opens the gates into the hidden layer from the layer of the condition and from no
other condition layer. -/
structure Keyed (n : Network α) (old : ControlState α) (condition : Option Condition) : Prop where
  layer : ∀ c ∈ condition, c.layer ∈ conditions
  isOpen : ∀ l ∈ conditions, ∃ u, n.gates.unit? (.copy gh l) = some u ∧
    ((n.activator go).isOn (old.gates.entry u) = true ↔ ∃ c ∈ condition, c.layer = l)

/-- What every recorded transit is like, with the code books as they are now. -/
structure Governed (n now : Network α) (t : Transit α) : Prop where
  input : t.input.size = inputSize n
  target : Fit n t.target
  source : ∃ old, Fit n old ∧ Keyed n old t.key.condition ∧
    t.key = ⟨(now.layer gh).bits old.hidden, (now.layer go).bits old.gates, t.key.condition⟩ ∧
    Joint now old.hidden t.key.condition t.input

theorem Governed.of_keeps {n now later : Network α} {t : Transit α} (h : Governed n now t)
    (hkeeps : now.Keeps (fun l _ => l ≠ gh) later) : Governed n later t := by
  obtain ⟨old, hold, hkeyed, hkey, hjoint⟩ := h.source
  have hhidden : (later.layer gh).bits old.hidden = (now.layer gh).bits old.hidden :=
    congrArg (·.bits old.hidden) (hkeeps.activator gh)
  have hgates : (later.layer go).bits old.gates = (now.layer go).bits old.gates :=
    congrArg (·.bits old.gates) (hkeeps.activator go)
  exact ⟨h.input, h.target, old, hold, hkeyed, by rw [hhidden, hgates]; exact hkey, hjoint.of_keeps hkeeps⟩

/-- What holds of a sequencer over the given network while routines are recorded. -/
structure Governs (n : Network α) (s : Sequencer α) : Prop where
  keeps : n.Keeps (fun l _ => l ≠ gh) s.network
  sound : s.network.Sound
  gates : s.network.size go = s.network.gates.size
  numbered : s.network.Numbered
  offsets : ∀ x ∈ s.offsets, x.2.length = n.size gh
  codes : ∀ x ∈ s.codes, x.2.length = n.size gh
  transits : ∀ t ∈ s.transits, Governed n s.network t
  /-- Layers that hold neither states nor conditions are as they were. -/
  others : ∀ l, l ≠ gh → l ∉ conditions → s.network.layer l = n.layer l

theorem governs_new {n : Network α} (hsound : n.Sound) (hgates : n.size go = n.gates.size) (hn : n.Numbered) :
    Governs n (Sequencer.new n) :=
  ⟨.refl n, hsound, hgates, hn, fun _ h => (List.not_mem_nil h).elim, fun _ h => (List.not_mem_nil h).elim,
    fun _ h => (List.not_mem_nil h).elim, fun _ _ _ => rfl⟩

/-! ## Conditions -/

section

variable {n : Network α} {s : Sequencer α} {old : ControlState α} {condition : Option Condition}

omit [Scalar α] in
theorem of_forM_ok {l : List γ} {f : γ → Except (Fault α) Unit} {v : Unit} (h : l.forM f = .ok v) :
    ∀ x ∈ l, f x = .ok () := by
  induction l with
  | nil => exact fun x hx => (List.not_mem_nil hx).elim
  | cons y rest ih =>
    intro x hx
    have h : (f y >>= fun _ => rest.forM f) = .ok v := h
    cases hy : f y with
    | error e =>
      rw [hy] at h
      cases h
    | ok u =>
      rw [hy] at h
      rcases List.mem_cons.mp hx with rfl | hx
      · exact hy
      · exact ih h x hx

theorem of_checkLayer {l : LayerId} {v : Unit} (h : s.checkLayer old condition l = .ok v) :
    ∃ u, s.network.unit (.copy gh l) = .ok u ∧
      (s.network.activator go).isOn (old.gates.entry u) = condition.any (·.layer == l) := by
  unfold checkLayer at h
  cases hu : s.network.unit (.copy gh l) with
  | error e =>
    rw [hu] at h
    cases h
  | ok u =>
    rw [hu] at h
    refine ⟨u, rfl, ?_⟩
    simp only [bind, Except.bind] at h
    revert h
    generalize (s.network.activator go).isOn (old.gates.entry u) = isOpen
    generalize condition.any (·.layer == l) = isKeyed
    cases isOpen <;> cases isKeyed <;> intro h <;> first | rfl | cases h

theorem keyed_of_checkCondition (hkeeps : n.Keeps (fun l _ => l ≠ gh) s.network) {v : Unit}
    (h : s.checkCondition old condition = .ok v) : Keyed n old condition := by
  refine ⟨layer_of_checkCondition h, fun l hl => ?_⟩
  have hlayers : conditions.forM (s.checkLayer old condition) = .ok v := by
    unfold checkCondition at h
    cases condition with
    | none => exact h
    | some c =>
      by_cases hmem : conditions.contains c.layer = true
      · dsimp only at h
        rw [if_pos hmem] at h
        exact h
      · dsimp only at h
        rw [if_neg hmem] at h
        cases h
  obtain ⟨u, hu, hopen⟩ := of_checkLayer (of_forM_ok hlayers l hl)
  refine ⟨u, ?_, ?_⟩
  · rw [← hkeeps.gates]
    exact Network.unit_ok_iff.mp hu
  · rw [← hkeeps.activator, hopen, Option.any_eq_true]
    exact exists_congr fun c => and_congr_right fun _ => beq_iff_eq

end

/-! ## Invariants of what was recorded -/

theorem keeps_encode (network : Network α) (l : LayerId) (token : String) :
    network.Keeps (fun l _ => l ≠ gh) (network.encode l token).2 :=
  (Network.grows_encode _ _ _).mono fun _ _ _ => trivial

/-- The invariant is about what was recorded and how the layers are keyed. It stays as tokens are
added, and does not depend on names and random bits. -/
structure Stable (I : Sequencer α → Prop) : Prop where
  network : ∀ {s : Sequencer α} {network : Network α}, I s → s.network.Keeps (fun l _ => l ≠ gh) network → I { s with network }
  rest : ∀ {s : Sequencer α}, I s → ∀ stream offsets codes context named, I { s with stream, offsets, codes, context, named }

namespace Stable

variable {I : Sequencer α → Prop}

theorem setContext (h : Stable I) (context : String) : Secures I (setContext context) fun _ => True :=
  .modify fun _ hs => h.rest hs _ _ _ _ _

theorem freshName (h : Stable I) : Secures I (freshName (α := α)) fun _ => True :=
  Secures.get.bind fun _ hs => (Secures.set (h.rest hs _ _ _ _ _)).bind fun _ _ => .pure trivial

theorem freshHidden (h : Stable I) : Secures I (freshHidden (α := α)) fun _ => True :=
  h.freshName.bind fun name _ => Secures.get.bind fun _ hs =>
    (Secures.set (h.network hs (keeps_encode _ gh name))).bind fun _ _ => .pure trivial

theorem nameState (h : Stable I) (state : ControlState α) (name : String) :
    Secures I (nameState state name) fun _ => True :=
  .modify fun _ hs => h.network hs ((Network.keeps_bindToken _ _ _ _).mono fun _ _ hl hh => hl hh.1)

theorem offset (h : Stable I) (layer : LayerId) : Secures I (offset (α := α) layer) fun _ => True := by
  refine Secures.get.bind fun s hs => ?_
  cases s.offsets.lookup layer with
  | some signs => exact .pure trivial
  | none => exact (Secures.set (h.rest hs _ _ _ _ _)).bind fun _ _ => .pure trivial

theorem code (h : Stable I) (condition : Condition) : Secures I (code (α := α) condition) fun _ => True := by
  refine Secures.get.bind fun s hs => ?_
  cases s.codes.lookup condition with
  | some signs => exact .pure trivial
  | none => exact (Secures.set (h.rest hs _ _ _ _ _)).bind fun _ _ => .pure trivial

theorem jointInput (h : Stable I) (old : ControlState α) (condition : Option Condition) :
    Secures I (jointInput old condition) fun _ => True := by
  cases condition with
  | none => exact Secures.get.bind fun _ _ => .pure trivial
  | some c =>
    exact Secures.get.bind fun _ hs => (Secures.set (h.network hs (keeps_encode _ c.layer c.token))).bind fun _ _ => .pure trivial

end Stable

/-! ## The operations -/

section

variable {n : Network α}

theorem Governs.of_network {s : Sequencer α} (h : Governs n s) {network : Network α}
    (hkeeps : s.network.Keeps (fun l _ => l ≠ gh) network) (hsound : network.Sound)
    (hothers : ∀ l, l ≠ gh → l ∉ conditions → network.layer l = s.network.layer l) : Governs n { s with network } :=
  ⟨h.keeps.trans hkeeps, hsound, (hkeeps.size go).trans (h.gates.trans (congrArg GateMap.size hkeeps.gates.symm)),
    hkeeps.numbered h.numbered, h.offsets, h.codes, fun t ht => (h.transits t ht).of_keeps hkeeps,
    fun l hl hl' => (hothers l hl hl').trans (h.others l hl hl')⟩

theorem Governs.encode {s : Sequencer α} (h : Governs n s) {l : LayerId} (hl : l = gh ∨ l ∈ conditions) (token : String) :
    Governs n { s with network := (s.network.encode l token).2 } :=
  h.of_network ((Network.grows_encode _ _ _).mono fun _ _ _ => trivial) (h.sound.encode l token)
    fun l' hgh hconditions => Network.layer_encode_of_ne _ (fun heq => by
      rcases hl with rfl | hl
      · exact hgh heq
      · exact hconditions (heq ▸ hl)) token

theorem secures_setContext (context : String) : Secures (Governs n) (setContext context) fun _ => True :=
  .modify fun _ h => { h with }

theorem secures_freshName : Secures (Governs n) (freshName (α := α)) fun _ => True :=
  Secures.get.bind fun _ h =>
    (Secures.set { h with }).bind fun _ _ => .pure trivial

theorem secures_freshHidden : Secures (Governs n) freshHidden fun p => p.size = n.size gh := by
  refine secures_freshName.bind fun name _ => Secures.get.bind fun s h => ?_
  exact (Secures.set (h.encode (.inl rfl) name)).bind fun _ _ => .pure ((Network.size_encode h.sound gh name).trans (h.keeps.size gh))

theorem secures_nameState {state : ControlState α} (hstate : state.hidden.size = n.size gh) (name : String) :
    Secures (Governs n) (nameState state name) fun _ => True := by
  refine .modify fun s h => h.of_network ?_ ?_ fun l hl _ => Network.layer_modifyLayer_of_ne _ hl _
  · exact (Network.keeps_bindToken _ _ _ _).mono fun l _ hl hh => hl hh.1
  · exact h.sound.bindToken gh name (by rw [hstate, h.keeps.size])

theorem secures_offset (layer : LayerId) : Secures (Governs n) (offset layer) fun signs => signs.length = n.size gh := by
  refine Secures.get.bind fun s h => ?_
  cases hlookup : s.offsets.lookup layer with
  | some signs =>
    obtain ⟨before, after, hoffsets, -⟩ := List.lookup_eq_some_iff.mp hlookup
    exact .pure (h.offsets (layer, signs) (by rw [hoffsets]; simp))
  | none =>
    have hlength : (s.stream.bits (s.network.size gh)).1.length = n.size gh := by
      rw [Random.Stream.length_bits, h.keeps.size]
    refine (Secures.set { h with offsets := fun x hx => ?_ }).bind fun _ _ => .pure hlength
    rcases List.mem_append.mp hx with hx | hx
    · exact h.offsets x hx
    · rw [List.mem_singleton.mp hx]
      exact hlength

theorem secures_code (condition : Condition) :
    Secures (Governs n) (code condition) fun signs => signs.length = n.size gh := by
  refine Secures.get.bind fun s h => ?_
  cases hlookup : s.codes.lookup condition with
  | some signs =>
    obtain ⟨before, after, hcodes, -⟩ := List.lookup_eq_some_iff.mp hlookup
    exact .pure (h.codes (condition, signs) (by rw [hcodes]; simp))
  | none =>
    have hlength : (s.stream.bits (s.network.size gh)).1.length = n.size gh := by
      rw [Random.Stream.length_bits, h.keeps.size]
    refine (Secures.set { h with codes := fun x hx => ?_ }).bind fun _ _ => .pure hlength
    rcases List.mem_append.mp hx with hx | hx
    · exact h.codes x hx
    · rw [List.mem_singleton.mp hx]
      exact hlength

theorem secures_claim (old : ControlState α) (layer : LayerId) (keying : Keying) :
    Secures (Governs n) (claim old layer keying) fun _ => True := by
  refine Secures.get.bind fun s h => ?_
  cases s.keying.lookup layer with
  | none => exact .set { h with }
  | some earlier =>
    dsimp only
    split
    · exact .throw _
    · exact .pure trivial

theorem conditionSize_eq {later : Network α} {keep : LayerId → String → Prop} (h : n.Keeps keep later) :
    conditionSize later = conditionSize n := by
  unfold conditionSize
  simp only [h.size]

theorem secures_jointInput {old : ControlState α} (hold : old.hidden.size = n.size gh) {condition : Option Condition}
    (hlayer : ∀ c ∈ condition, c.layer ∈ conditions) :
    Secures (Governs n) (jointInput old condition) fun input => input.size = inputSize n := by
  cases condition with
  | none =>
    refine Secures.get.bind fun s h => .pure ?_
    rw [Array.size_append, Pattern.zero, Array.size_replicate, hold, conditionSize_eq h.keeps, inputSize]
  | some c =>
    refine Secures.get.bind fun s h => ?_
    have hlater := h.encode (.inr (hlayer c rfl)) c.token
    refine (Secures.set hlater).bind fun _ _ => .pure ?_
    have hp : (s.network.encode c.layer c.token).1.size = (s.network.encode c.layer c.token).2.size c.layer := by
      rw [Network.size_encode h.sound, (Network.grows_encode _ _ _).size]
    exact (size_layered hp conditions old.hidden).trans (by rw [hold, ← conditionSize, conditionSize_eq hlater.keeps, inputSize])

variable {old target : ControlState α} {condition : Option Condition}

theorem secures_record (hold : Fit n old) (hkeyed : Keyed n old condition) (htarget : Fit n target) :
    Secures (Governs n) (record old condition target) (Fit n) := by
  intro s h
  have hsecures : Secures (Governs n) (jointInput old condition) fun input => input.size = inputSize n :=
    secures_jointInput hold.hidden hkeyed.layer
  obtain ⟨hinputs, hinput⟩ := hsecures s h
  obtain ⟨input, t, hjoint⟩ : ∃ input t, Does (jointInput old condition) s input t := by
    cases condition with
    | none => exact ⟨_, _, rfl⟩
    | some c => exact ⟨_, _, rfl⟩
  obtain ⟨-, hj, -, -⟩ := does_jointInput h.numbered hkeyed.layer hjoint
  rw [hjoint] at hinputs hinput
  have hrecord : (record old condition target).run.run s =
      (.ok target, { t with transits := t.transits ++ [⟨t.key old condition, input, target⟩] }) :=
    does_of_bind hjoint rfl
  rw [hrecord]
  refine ⟨{ hinputs with transits := fun x hx => ?_ }, fun b hb => Except.ok.inj hb ▸ htarget⟩
  rcases List.mem_append.mp hx with hx | hx
  · exact hinputs.transits x hx
  · rw [List.mem_singleton.mp hx]
    exact ⟨hinput input rfl, htarget, old, hold, hkeyed, rfl, hj⟩

theorem opens_of_makeGates {s : Sequencer α} (h : Governs n s) {gates : List Gate} {p : Pattern α}
    (hp : makeGates s.network gates = .ok p) : n.Opens p gates :=
  (Network.opens_makeGates h.gates hp).of_keeps h.keeps

theorem fit_of_find? {s : Sequencer α} (hs : Governs n s) {k : TransitKey} {t : Transit α} (h : s.find? k = some t) :
    Fit n t.target :=
  (hs.transits t (List.mem_of_find?_eq_some h)).target

theorem secures_complete {gates : List Gate} (hgates : Balanced gates) (hold : Fit n old) (hkeyed : Keyed n old condition)
    {target : Option (ControlState α)} (htarget : ∀ t ∈ target, Fit n t) :
    Secures (Governs n) (complete gates old condition target) (Fit n) := by
  refine Secures.get.bind fun s hs => ?_
  rcases hfind : s.find? (s.key old condition) with _ | earlier
  · cases target with
    | some target => exact secures_record hold hkeyed (htarget target rfl)
    | none =>
      exact Secures.bind (.lift fun p hp => opens_of_makeGates hs hp) fun p (hp : n.Opens p gates) =>
        secures_freshHidden.bind fun hidden hhidden => secures_record hold hkeyed ⟨hhidden, gates, hgates, hp⟩
  · cases target with
    | some target =>
      dsimp only
      split
      · exact .pure (fit_of_find? hs hfind)
      · exact .throw _
    | none => exact .throw _

theorem secures_transit {gates : List Gate} (hgates : Balanced gates) (hold : Fit n old)
    {target : Option (ControlState α)} (htarget : ∀ t ∈ target, Fit n t) :
    Secures (Governs n) (transit gates old condition target) (Fit n) := by
  refine Secures.get.bind fun s hs => (Secures.lift fun v hv => keyed_of_checkCondition hs.keeps hv).bind
    fun _ hkeyed => ?_
  have hcomplete := secures_complete hgates hold hkeyed htarget
  cases condition with
  | none => exact hcomplete
  | some c => exact Secures.get.bind fun t _ => (secures_claim old c.layer _).bind fun _ _ => hcomplete

theorem size_compose (act : Activator α) (p : Pattern α) {code offset : Bits} (hcode : code.length = p.size)
    (hoffset : offset.length = p.size) : (compose act p code offset).size = p.size := by
  unfold compose
  simp [hcode, hoffset, Activator.bits]

theorem secures_dispatch (hold : Fit n old) (layer : LayerId) (token : String) :
    Secures (Governs n) (dispatch old layer token) (Fit n) := by
  refine Secures.get.bind fun s hs => (Secures.lift fun v hv => keyed_of_checkCondition hs.keeps hv).bind
    fun _ hkeyed => (secures_claim old layer _).bind fun _ _ => Secures.get.bind fun t ht => ?_
  rcases hfind : t.find? (t.key old (some ⟨layer, token⟩)) with _ | earlier
  · refine (secures_offset layer).bind fun offset hoffset => (secures_code _).bind fun code hcode =>
      Secures.get.bind fun u hu => Secures.bind (.lift fun p hp => opens_of_makeGates hu hp)
        fun p (hp : n.Opens p []) => secures_freshName.bind fun name _ => ?_
    have hsize : (compose (u.network.activator gh) old.hidden code offset).size = n.size gh :=
      (size_compose _ _ (hcode.trans hold.hidden.symm) (hoffset.trans hold.hidden.symm)).trans hold.hidden
    exact (secures_nameState hsize name).bind fun _ _ => secures_record hold hkeyed ⟨hsize, [], balanced_nil, hp⟩
  · exact .pure (fit_of_find? ht hfind)

theorem secures_initial (name : String) :
    Secures (Governs n) (initial name) (Fit n) := by
  refine Secures.get.bind fun s hs => Secures.bind (.lift fun p hp => opens_of_makeGates hs hp)
    fun p (hp : n.Opens p []) => secures_freshHidden.bind fun hidden hhidden => ?_
  exact (secures_nameState hhidden name).bind fun _ _ => .pure ⟨hhidden, [], balanced_nil, hp⟩

theorem secures_settle (hold : Fit n old) (ticks : Nat) :
    Secures (Governs n) (settle old ticks) (Fit n) := by
  induction ticks generalizing old with
  | zero => exact .pure hold
  | succ ticks ih =>
    exact (secures_transit balanced_nil hold fun t ht => (Option.not_mem_none t ht).elim).bind fun next hnext => ih hnext

/-! ## Whole recordings -/

variable {registers : List (LayerId × String)} {start state ready : ControlState α}

theorem secures_plan (plan : Plan) (hplan : plan.Even (registers.map (·.1)))
    (hstart : Fit n start) (hstate : Fit n state) :
    Secures (Governs n) (plan.record registers start state) fun _ => True := by
  have hnone : ∀ t ∈ (none : Option (ControlState α)), Fit n t := fun t ht => (Option.not_mem_none t ht).elim
  have hsome : ∀ t ∈ some start, Fit n t := fun t ht => Option.some.inj ht ▸ hstart
  have hmem : ∀ r ∈ registers, r.1 ∈ registers.map (·.1) := fun r hr => List.mem_map_of_mem hr
  induction plan generalizing state with
  | home => exact (secures_transit balanced_nil hstate hsome).bind fun _ _ => .pure trivial
  | act gates rest ih =>
    exact (secures_transit hplan.1 hstate hnone).bind fun next hnext => ih hplan.2 hnext
  | settle ticks rest ih => exact (secures_settle hstate ticks).bind fun next hnext => ih hplan hnext
  | each layer branch ih =>
    exact .forM fun r hr => (secures_dispatch hstate layer r.2).bind fun chosen hchosen =>
      ih r.1 (hplan r.1 (hmem r hr)) hchosen
  | gather layer branch meet rest ih =>
    obtain ⟨hbranch, hmeet, hrest⟩ := hplan
    -- the meeting state, once there is one, is a state as any other
    have hfold : Secures (Governs n) (registers.foldlM (meetBranch state layer branch meet) none)
        fun meeting => ∀ m ∈ meeting, Fit n m := by
      refine .foldlM (fun meeting hmeeting r hr => ?_) hnone
      refine (secures_dispatch hstate layer r.2).bind fun chosen hchosen =>
        (secures_transit (hbranch r.1 (hmem r hr)) hchosen hnone).bind fun acting hacting =>
          (secures_transit hmeet hacting hmeeting).bind fun reached hreached => .pure fun m hm => ?_
      cases meeting with
      | none => exact Option.some.inj hm ▸ hreached
      | some earlier => exact Option.some.inj hm ▸ hmeeting earlier rfl
    refine hfold.bind fun meeting hmeeting => ?_
    cases meeting with
    | none => exact .throw _
    | some meeting => exact ih hrest (hmeeting meeting rfl)
  | choose layer idle taken gates rest ih =>
    exact (secures_transit balanced_nil hstate hsome).bind fun _ _ =>
      (secures_transit hplan.1 hstate hnone).bind fun next hnext => ih hplan.2 hnext

theorem secures_opcode (hregisters : gh ∉ registers.map (·.1))
    (hregisters' : go ∉ registers.map (·.1)) (hstart : Fit n start) (hready : Fit n ready) (op : Opcode) :
    Secures (Governs n) (op.record registers start ready) fun _ => True := by
  have hnone : ∀ t ∈ (none : Option (ControlState α)), Fit n t := fun t ht => (Option.not_mem_none t ht).elim
  have hsome : ∀ state : ControlState α, Fit n state → ∀ t ∈ some state, Fit n t :=
    fun _ hstate t ht => Option.some.inj ht ▸ hstate
  have heven := op.even_routine hregisters hregisters'
  refine (secures_setContext _).bind fun _ _ => ?_
  cases hroutine : op.routine with
  | skip => exact (secures_transit balanced_nil hready (hsome start hstart)).bind fun _ _ => .pure trivial
  | halt =>
    exact (secures_transit balanced_nil hready hnone).bind fun halted hhalted =>
      (secures_nameState hhalted.hidden _).bind fun _ _ =>
        (secures_transit balanced_nil hhalted (hsome halted hhalted)).bind fun _ _ => .pure trivial
  | run gates plan =>
    rw [hroutine] at heven
    exact (secures_transit heven.1 hready hnone).bind fun entered hentered =>
      (secures_nameState hentered.hidden _).bind fun _ _ => secures_plan plan heven.2 hstart hentered

/-- Every transit of the instruction set is governed by the gates of its source state. -/
theorem secures_instructions (n : Network α) (registers : List (LayerId × String)) (hregisters : gh ∉ registers.map (·.1))
    (hregisters' : go ∉ registers.map (·.1)) :
    Secures (Governs n) (recordInstructions registers) (Fit n) := by
  have hnone : ∀ t ∈ (none : Option (ControlState α)), Fit n t := fun t ht => (Option.not_mem_none t ht).elim
  have hfetch : Balanced Microcode.fetch :=
    (((balanced_flow ip (by decide) (by decide)).append (balanced_flow ip (by decide) (by decide))).append
      (balanced_flow ip (by decide) (by decide))).append (balanced_flow ip (by decide) (by decide))
  refine (secures_setContext _).bind fun _ _ => (secures_initial _).bind fun start hstart =>
    (secures_transit hfetch hstart hnone).bind fun load hload =>
      (secures_nameState hload.hidden _).bind fun _ _ =>
        (secures_transit (balanced_read opc) hload hnone).bind fun ready hready =>
          (secures_nameState hready.hidden _).bind fun _ _ =>
            (Secures.forM fun op _ => secures_opcode hregisters hregisters' hstart hready op).bind
              fun _ _ => .pure hstart

end

end Sequencer

end Engram
