/-
  Engram.Proofs.Control.Realizing — which automata a linear connection can realize.

  The states that dispatch on one layer read the same tokens, so their inputs are linearly
  dependent, and no connection produces whatever targets one likes for them. What the sequencer
  composes for them is the sum of a part for the state and a part for the condition, before
  squashing (`inverse_compose`). On a layer that one state alone selects on the condition can
  have it all, and a plain transit leaves it all to the state. So for independent source states
  and independent tokens a linear form exists for every unit (`exists_joint`).

  The sequencer knows states by their bits. Two states with the same bits and different vectors
  pass for one reader of a selection layer; then the same dependence is there and nothing makes up
  for it (`two_readers_unrealizable`).
-/

import Engram.Proofs.Control.Mirroring
import Engram.Proofs.Exact.Linear

namespace Engram

open LayerId

/-! ## Inputs -/

/-- The hidden pattern of the state that a transit leaves. -/
def Transit.source {α : Type} [Scalar α] (n : Network α) (t : Transit α) : Pattern α := t.input.extract 0 (n.size gh)

/-- The pattern of the token of a condition. -/
def Network.tokenPattern {α : Type} [Scalar α] (n : Network α) (c : Condition) : Pattern α :=
  ((n.layer c.layer).pattern? c.token).getD #[]

namespace Sequencer

section

variable {α : Type} [Scalar α] {n : Network α} {layer : LayerId} {p : Pattern α}

/-- Where the block of a layer starts, when the blocks of the given layers come one after the
other. -/
def blockStart (n : Network α) (start : Nat) : List LayerId → LayerId → Nat
  | [], _ => start
  | l :: rest, layer => if l = layer then start else blockStart n (start + n.size l) rest layer

theorem le_blockStart (n : Network α) (start : Nat) (layers : List LayerId) (layer : LayerId) :
    start ≤ blockStart n start layers layer := by
  induction layers generalizing start with
  | nil => exact le_rfl
  | cons l layers ih =>
    rw [blockStart]
    split
    · exact le_rfl
    · exact (Nat.le_add_right _ _).trans (ih _)

theorem exists_layered_eq (layers : List LayerId) (x : Pattern α) : ∃ rest, layered n layer p layers x = x ++ rest := by
  induction layers generalizing x with
  | nil => exact ⟨#[], (Array.append_empty).symm⟩
  | cons l layers ih =>
    obtain ⟨rest, hrest⟩ := ih (x ++ if l = layer then p else Pattern.zero (n.size l))
    exact ⟨_, hrest.trans (Array.append_assoc ..)⟩

theorem entry_append_left {x : Pattern α} (y : Pattern α) {i : Nat} (h : i < x.size) : (x ++ y).entry i = x.entry i := by
  rw [Pattern.entry_of_lt (by rw [Array.size_append]; omega), Pattern.entry_of_lt h, Array.getElem_append_left h]

theorem entry_append_right (x y : Pattern α) (i : Nat) : (x ++ y).entry (x.size + i) = y.entry i := by
  by_cases h : i < y.size
  · rw [Pattern.entry_of_lt (by rw [Array.size_append]; omega), Pattern.entry_of_lt h,
      Array.getElem_append_right (Nat.le_add_right _ _)]
    simp only [Nat.add_sub_cancel_left]
  · rw [Pattern.entry_of_le (by rw [Array.size_append]; omega), Pattern.entry_of_le (Nat.not_lt.mp h)]

theorem entry_layered_left (layers : List LayerId) {x : Pattern α} {i : Nat} (h : i < x.size) :
    (layered n layer p layers x).entry i = x.entry i := by
  obtain ⟨rest, hrest⟩ : ∃ rest, layered n layer p layers x = x ++ rest := exists_layered_eq layers x
  rw [hrest, entry_append_left rest h]

/-- The block of a layer holds the pattern if the input is keyed on that layer, and zeros if not. -/
theorem entry_layered_block (hp : p.size = n.size layer) {layers : List LayerId} {l : LayerId} (hl : l ∈ layers)
    (x : Pattern α) {i : Nat} (hi : i < n.size l) :
    (layered n layer p layers x).entry (blockStart n x.size layers l + i) = if l = layer then p.entry i else 0 := by
  induction layers generalizing x with
  | nil => exact (List.not_mem_nil hl).elim
  | cons l' layers ih =>
    have hsize : (if l' = layer then p else Pattern.zero (n.size l')).size = n.size l' := by
      split
      next h => rw [hp, h]
      · exact Array.size_replicate
    rw [layered_cons, blockStart]
    by_cases heq : l' = l
    · subst heq
      rw [if_pos rfl, entry_layered_left layers (by rw [Array.size_append, hsize]; omega), entry_append_right]
      split
      · rfl
      · rw [Pattern.zero, Pattern.entry_replicate, ite_self]
    · have hrest := ih ((List.mem_cons.mp hl).resolve_left (Ne.symm heq)) (x ++ if l' = layer then p else Pattern.zero (n.size l'))
      rw [Array.size_append, hsize] at hrest
      rw [if_neg heq]
      exact hrest

variable {s : Sequencer α} {t : Transit α} {old : ControlState α}

/-- The pattern of a condition has a unit for each unit of its layer. -/
theorem AdmitsFrom.exists_pattern (h : AdmitsFrom n s t old) (hs : Admitting n s) {c : Condition}
    (hc : t.key.condition = some c) : c.layer ∈ conditions ∧ (s.network.tokenPattern c).size = n.size c.layer ∧
      t.input = layered n c.layer (s.network.tokenPattern c) conditions old.hidden := by
  have hjoint := h.joint
  rw [hc] at hjoint
  obtain ⟨hlayer, p, hp, hinput⟩ := hjoint
  have htoken : s.network.tokenPattern c = p := by rw [Network.tokenPattern, hp, Option.getD_some]
  refine ⟨hlayer, ?_, ?_⟩
  · rw [htoken, ← hs.keeps.size]
    exact (hs.sound c.layer).sized _ _ hp
  · rw [hinput, htoken]
    unfold layered
    simp only [hs.keeps.size]

theorem AdmitsFrom.input_none (h : AdmitsFrom n s t old) (hs : Admitting n s) (hc : t.key.condition = none) :
    t.input = old.hidden ++ Pattern.zero (conditionSize n) := by
  have hjoint := h.joint
  rw [hc] at hjoint
  exact hjoint.trans (by rw [conditionSize_eq hs.keeps])

theorem AdmitsFrom.exists_input_eq (h : AdmitsFrom n s t old) (hs : Admitting n s) :
    ∃ rest, t.input = old.hidden ++ rest := by
  cases hc : t.key.condition with
  | none => exact ⟨_, h.input_none hs hc⟩
  | some c =>
    obtain ⟨-, -, hinput⟩ := h.exists_pattern hs hc
    rw [hinput]
    exact exists_layered_eq conditions old.hidden

theorem AdmitsFrom.size_input (h : AdmitsFrom n s t old) (hs : Admitting n s) : t.input.size = inputSize n := by
  cases hc : t.key.condition with
  | none =>
    rw [h.input_none hs hc, Array.size_append, Pattern.zero, Array.size_replicate, h.sized.hidden, inputSize]
  | some c =>
    obtain ⟨-, hsize, hinput⟩ := h.exists_pattern hs hc
    rw [hinput, size_layered hsize, h.sized.hidden, inputSize, conditionSize]

theorem AdmitsFrom.source_eq (h : AdmitsFrom n s t old) (hs : Admitting n s) : t.source s.network = old.hidden := by
  obtain ⟨rest, hrest⟩ := h.exists_input_eq hs
  rw [Transit.source, hs.keeps.size, hrest, ← h.sized.hidden]
  simp

/-- The block of the condition layer holds the pattern of the token, and the other blocks hold zeros. -/
theorem AdmitsFrom.entry_block (h : AdmitsFrom n s t old) (hs : Admitting n s) {l : LayerId} (hl : l ∈ conditions) {i : Nat}
    (hi : i < n.size l) : t.input.entry (blockStart n (n.size gh) conditions l + i) =
      t.key.condition.elim 0 fun c => if l = c.layer then (s.network.tokenPattern c).entry i else 0 := by
  cases hc : t.key.condition with
  | none =>
    obtain ⟨k, hk⟩ := Nat.exists_eq_add_of_le (le_blockStart n (n.size gh) conditions l)
    rw [h.input_none hs hc, hk, Nat.add_assoc, ← h.sized.hidden, entry_append_right, Pattern.zero, Pattern.entry_replicate,
      ite_self]
    rfl
  | some c =>
    obtain ⟨-, hsize, hinput⟩ := h.exists_pattern hs hc
    rw [hinput, ← h.sized.hidden, entry_layered_block hsize hl _ hi]
    rfl

/-- Source states with the same gate bits read the same condition layer. -/
theorem Keyed.exists_layer {old old' : ControlState α} {condition condition' : Option Condition}
    (h : Keyed n old condition) (h' : Keyed n old' condition') (hsized : Sized n old) (hsized' : Sized n old')
    (hgo : n.size go = n.gates.size) (hbits : (n.layer go).bits old.gates = (n.layer go).bits old'.gates) :
    ∀ c ∈ condition, ∃ c' ∈ condition', c'.layer = c.layer := by
  intro c hc
  obtain ⟨u, hu, hopen⟩ := h.isOpen c.layer (h.layer c hc)
  obtain ⟨u', hu', hopen'⟩ := h'.isOpen c.layer (h.layer c hc)
  obtain rfl : u' = u := Option.some.inj (hu'.symm.trans hu)
  have hlt : u' < n.size go := hgo ▸ GateMap.lt_of_unit? hu
  have hbit : ∀ state : ControlState α, Sized n state →
      ((n.layer go).bits state.gates)[u']? = some ((n.activator go).isOn (state.gates.entry u')) := by
    intro state hstate
    have hget : state.gates[u']? = some (state.gates.entry u') := by
      rw [Pattern.entry_of_lt (by rw [hstate.gates]; exact hlt)]
      exact Array.getElem?_eq_getElem _
    show ((n.activator go).bits state.gates)[u']? = _
    rw [Activator.bits, List.getElem?_map, Array.getElem?_toList, hget]
    rfl
  have heq := hbit old hsized
  rw [hbits, hbit old' hsized'] at heq
  exact hopen'.mp ((Option.some.inj heq).trans (hopen.mpr ⟨c, hc, rfl⟩))

theorem Keyed.map_layer_eq {old old' : ControlState α} {condition condition' : Option Condition}
    (h : Keyed n old condition) (h' : Keyed n old' condition') (hsized : Sized n old) (hsized' : Sized n old')
    (hgo : n.size go = n.gates.size) (hbits : (n.layer go).bits old.gates = (n.layer go).bits old'.gates) :
    condition.map (·.layer) = condition'.map (·.layer) := by
  cases condition with
  | none =>
    cases condition' with
    | none => rfl
    | some d =>
      obtain ⟨c, hmem, -⟩ := Keyed.exists_layer h' h hsized' hsized hgo hbits.symm d rfl
      cases hmem
  | some c =>
    obtain ⟨d, hd, hlayer⟩ := Keyed.exists_layer h h' hsized hsized' hgo hbits c rfl
    rw [show condition' = some d from hd, Option.map_some, Option.map_some, hlayer]

/-- No two transits have the same key. -/
theorem eq_of_key (hs : Admitting n s) {t u : Transit α} (ht : t ∈ s.transits) (hu : u ∈ s.transits)
    (hhidden : t.key.hidden = u.key.hidden) (hgates : t.key.gates = u.key.gates)
    (hcondition : t.key.condition = u.key.condition) : t = u := by
  refine List.inj_on_of_nodup_map hs.keys ht hu ?_
  calc t.key = ⟨t.key.hidden, t.key.gates, t.key.condition⟩ := rfl
    _ = u.key := by rw [hhidden, hgates, hcondition]

end

section

variable {n : Network ℝ} {s : Sequencer ℝ} {t : Transit ℝ} {old : ControlState ℝ}

open Pattern

/-- A form on inputs made of one on hidden patterns and one for each condition layer. -/
noncomputable def jointForm (n : Network ℝ) (state : (Nat → ℝ) →ₗ[ℝ] ℝ) (condition : LayerId → (Nat → ℝ) →ₗ[ℝ] ℝ) :
    (Nat → ℝ) →ₗ[ℝ] ℝ :=
  state ∘ₗ window 0 (n.size gh) +
    ∑ l ∈ conditions.toFinset, condition l ∘ₗ window (blockStart n (n.size gh) conditions l) (n.size l)

theorem jointForm_apply (state : (Nat → ℝ) →ₗ[ℝ] ℝ) (condition : LayerId → (Nat → ℝ) →ₗ[ℝ] ℝ) (x : Pattern ℝ) :
    jointForm n state condition x.entry = state (window 0 (n.size gh) x.entry) +
      ∑ l ∈ conditions.toFinset, condition l (window (blockStart n (n.size gh) conditions l) (n.size l) x.entry) := by
  rw [jointForm, LinearMap.add_apply, LinearMap.sum_apply]
  rfl

/-- What a form on inputs makes of the input of a transit. -/
theorem AdmitsFrom.jointForm_input (h : AdmitsFrom n s t old) (hs : Admitting n s) (state : (Nat → ℝ) →ₗ[ℝ] ℝ)
    (condition : LayerId → (Nat → ℝ) →ₗ[ℝ] ℝ) : jointForm n state condition t.input.entry =
      state old.hidden.entry + t.key.condition.elim 0 fun c => condition c.layer (s.network.tokenPattern c).entry := by
  have hstate : window 0 (n.size gh) t.input.entry = old.hidden.entry := by
    obtain ⟨rest, hrest⟩ := h.exists_input_eq hs
    rw [← h.sized.hidden]
    refine window_entry fun j hj => ?_
    rw [Nat.zero_add, hrest, entry_append_left rest hj]
  have hzero : ∀ l ∈ conditions, (∀ c ∈ t.key.condition, l ≠ c.layer) →
      window (blockStart n (n.size gh) conditions l) (n.size l) t.input.entry = 0 := by
    refine fun l hl hne => window_entry_zero fun j hj => ?_
    rw [h.entry_block hs hl hj]
    cases hc : t.key.condition with
    | none => rfl
    | some c => exact if_neg (hne c hc)
  rw [jointForm_apply, hstate]
  congr 1
  cases hc : t.key.condition with
  | none =>
    refine Finset.sum_eq_zero fun l hl => ?_
    rw [hzero l (List.mem_toFinset.mp hl) (fun c h => by rw [hc] at h; cases h), map_zero]
  | some c =>
    obtain ⟨hlayer, hsize, -⟩ := h.exists_pattern hs hc
    rw [Option.elim_some, Finset.sum_eq_single_of_mem c.layer (List.mem_toFinset.mpr hlayer)]
    · congr 1
      rw [← hsize]
      refine window_entry fun j hj => ?_
      rw [h.entry_block hs hlayer (hsize ▸ hj), hc, Option.elim_some, if_pos rfl]
    · intro l hl hne
      rw [hzero l (List.mem_toFinset.mp hl) (fun d hd => by rw [hc] at hd; cases hd; exact hne), map_zero]

/-! ## Realizing an automaton -/

/-- The hidden vectors of the source states are independent, and so are, on each condition layer,
the patterns of the tokens that transits are keyed on. -/
structure Independent (s : Sequencer ℝ) : Prop where
  sources : LinearIndepOn ℝ Pattern.entry {x | ∃ t ∈ s.transits, t.source s.network = x}
  tokens : ∀ l ∈ conditions, LinearIndepOn ℝ (fun token => (s.network.tokenPattern ⟨l, token⟩).entry)
    {token | ∃ t ∈ s.transits, t.key.condition = some ⟨l, token⟩}

/-- Different source states have different hidden vectors. -/
def Distinct (s : Sequencer ℝ) : Prop :=
  ∀ t ∈ s.transits, ∀ u ∈ s.transits, t.source s.network = u.source s.network → t.key.gates = u.key.gates

/-- Different source states that read one selection layer have different hidden bits. -/
def DistinctReaders (s : Sequencer ℝ) : Prop :=
  ∀ t ∈ s.transits, ∀ u ∈ s.transits, ∀ c ∈ t.key.condition, ∀ d ∈ u.key.condition, c.layer = d.layer →
    s.keying.lookup c.layer ≠ some .dispatch → t.key.hidden = u.key.hidden → t.source s.network = u.source s.network

/-- Some connections into the hidden layer and the gate layer produce, for the input of every
transit, exactly what squashes to its target. -/
def Realizable (s : Sequencer ℝ) : Prop :=
  ∃ recurrent readout : Connection ℝ,
    (recurrent.Fits ∧ recurrent.weights.height = s.network.size gh ∧ recurrent.weights.width = inputSize s.network) ∧
    (readout.Fits ∧ readout.weights.height = s.network.size go ∧ readout.weights.width = inputSize s.network) ∧
    ∀ t ∈ s.transits, recurrent.drive t.input = t.target.hidden.map (s.network.activator gh).inverse ∧
      readout.drive t.input = t.target.gates.map (s.network.activator go).inverse

/-- What a connection is to produce for the transits is the sum of a part for the source state and
a part for the condition. -/
theorem exists_joint (hs : Admitting n s) (hindependent : s.Independent) {size : Nat} (y : Transit ℝ → Pattern ℝ)
    (hsize : ∀ t ∈ s.transits, (y t).size = size) (state : Transit ℝ → Nat → ℝ) (condition : Condition → Nat → ℝ)
    (hstate : ∀ t ∈ s.transits, ∀ u ∈ s.transits, t.source s.network = u.source s.network → state t = state u)
    (hy : ∀ t ∈ s.transits, ∀ i < size, (y t).entry i = state t i + t.key.condition.elim 0 (condition · i)) :
    ∃ c : Connection ℝ, (c.Fits ∧ c.weights.height = size ∧ c.weights.width = inputSize n) ∧
      ∀ t ∈ s.transits, c.drive t.input = y t := by
  classical
  have hforms : ∀ i, ∃ f : (Nat → ℝ) →ₗ[ℝ] ℝ, ∀ t ∈ s.transits, f (t.source s.network).entry = state t i := by
    intro i
    obtain ⟨f, hf⟩ := exists_form hindependent.sources fun x =>
      if h : ∃ t ∈ s.transits, t.source s.network = x then state h.choose i else 0
    refine ⟨f, fun t ht => (hf _ ⟨t, ht, rfl⟩).trans ?_⟩
    have hex : ∃ u ∈ s.transits, u.source s.network = t.source s.network := ⟨t, ht, rfl⟩
    rw [dif_pos hex, hstate _ hex.choose_spec.1 t ht hex.choose_spec.2]
  have htokens : ∀ i l, ∃ f : (Nat → ℝ) →ₗ[ℝ] ℝ, ∀ t ∈ s.transits, ∀ c, t.key.condition = some c → c.layer = l →
      f (s.network.tokenPattern c).entry = condition c i := by
    intro i l
    by_cases hl : l ∈ conditions
    · obtain ⟨f, hf⟩ := exists_form (hindependent.tokens l hl) fun token => condition ⟨l, token⟩ i
      refine ⟨f, fun t ht c hc heq => ?_⟩
      subst heq
      exact hf c.token ⟨t, ht, hc⟩
    · refine ⟨0, fun t ht c hc heq => ?_⟩
      obtain ⟨old, hold⟩ := hs.transits t ht
      exact (hl (heq ▸ (hold.exists_pattern hs hc).1)).elim
  choose f hf using hforms
  choose g hg using htokens
  refine ⟨.ofForms size (inputSize n) fun i => jointForm n (f i) (g i), ⟨Connection.fits_ofForms, rfl, rfl⟩,
    fun t ht => ?_⟩
  obtain ⟨old, hold⟩ := hs.transits t ht
  have hdrive : ((Connection.ofForms size (inputSize n) fun i => jointForm n (f i) (g i)).drive t.input).size = size :=
    Connection.size_drive Connection.fits_ofForms t.input
  refine Pattern.ext_entry (hdrive.trans (hsize t ht).symm) fun i hi => ?_
  rw [hdrive] at hi
  rw [Connection.entry_drive_ofForms (hold.size_input hs) hi, hold.jointForm_input hs, hy t ht i hi,
    ← hold.source_eq hs, hf i t ht]
  congr 1
  cases hc : t.key.condition with
  | none => rfl
  | some c => exact hg i c.layer t ht c hc rfl

/-- Transits from one source state read the same layer. -/
theorem same_reader (hs : Admitting n s) (hgo : n.size go = n.gates.size) (hdistinct : s.Distinct) {t u : Transit ℝ}
    (ht : t ∈ s.transits) (hu : u ∈ s.transits) (hsource : t.source s.network = u.source s.network) :
    t.key.hidden = u.key.hidden ∧ t.key.gates = u.key.gates ∧
      t.key.condition.map (·.layer) = u.key.condition.map (·.layer) := by
  obtain ⟨old, hold⟩ := hs.transits t ht
  obtain ⟨old', hold'⟩ := hs.transits u hu
  have hgates := hdistinct t ht u hu hsource
  have hhidden : t.key.hidden = u.key.hidden := by
    rw [hold.source_eq hs, hold'.source_eq hs] at hsource
    rw [hold.key, hold'.key]
    exact congrArg ((s.network.layer gh).bits ·) hsource
  have hbits : (n.layer go).bits old.gates = (n.layer go).bits old'.gates := by
    rw [hold.key, hold'.key] at hgates
    have hact : ∀ state : ControlState ℝ, s.gateBits state = (n.layer go).bits state.gates := fun state =>
      congrArg (·.bits state.gates) (hs.keeps.activator go)
    exact (hact old).symm.trans (hgates.trans (hact old'))
  exact ⟨hhidden, hgates, Keyed.map_layer_eq hold.keyed hold'.keyed hold.sized hold'.sized hgo hbits⟩

/-- The part of a source state: what a plain transit produces, what is composed for the state on a
dispatch layer, and nothing on a selection layer. -/
noncomputable def stateShare (s : Sequencer ℝ) (y : Transit ℝ → Pattern ℝ) (base : LayerId → Bits → Nat → ℝ)
    (t : Transit ℝ) : Nat → ℝ :=
  match t.key.condition with
  | none => (y t).entry
  | some c => if s.keying.lookup c.layer = some .dispatch then base c.layer t.key.hidden else 0

/-- The part of a condition: what is composed for it on a dispatch layer, and on a selection layer
all that its transit produces. -/
noncomputable def conditionShare (s : Sequencer ℝ) (y : Transit ℝ → Pattern ℝ) (term : Condition → Nat → ℝ)
    (c : Condition) : Nat → ℝ :=
  if s.keying.lookup c.layer = some .dispatch then term c
  else match s.transits.find? (·.key.condition = some c) with
    | some t => (y t).entry
    | none => 0

theorem stateShare_congr (hs : Admitting n s) (hgo : n.size go = n.gates.size) (hdistinct : s.Distinct)
    (y : Transit ℝ → Pattern ℝ) (base : LayerId → Bits → Nat → ℝ) {t u : Transit ℝ} (ht : t ∈ s.transits)
    (hu : u ∈ s.transits) (hsource : t.source s.network = u.source s.network) :
    s.stateShare y base t = s.stateShare y base u := by
  obtain ⟨hhidden, hgates, hlayer⟩ := same_reader hs hgo hdistinct ht hu hsource
  unfold stateShare
  cases hc : t.key.condition with
  | none =>
    cases hd : u.key.condition with
    | none =>
      rw [eq_of_key hs ht hu hhidden hgates (hc.trans hd.symm)]
    | some d =>
      rw [hc, hd] at hlayer
      cases hlayer
  | some c =>
    cases hd : u.key.condition with
    | none =>
      rw [hc, hd] at hlayer
      cases hlayer
    | some d =>
      rw [hc, hd, Option.map_some, Option.map_some] at hlayer
      dsimp only
      rw [Option.some.inj hlayer, hhidden]

/-- What squashes to the targets is produced by some connection if it is composed of a part for the
state and a part for the condition wherever states dispatch. -/
theorem exists_connection (hs : Admitting n s) (hgo : n.size go = n.gates.size) (hindependent : s.Independent)
    (hdistinct : s.Distinct) (hreaders : s.DistinctReaders) {size : Nat} {y : Transit ℝ → Pattern ℝ}
    (hsize : ∀ t ∈ s.transits, (y t).size = size) (base : LayerId → Bits → Nat → ℝ) (term : Condition → Nat → ℝ)
    (hcomposed : ∀ t ∈ s.transits, ∀ old c code offset, AdmitsFrom n s t old → t.key.condition = some c →
      s.codes.lookup c = some code → s.offsets.lookup c.layer = some offset →
      t.target.hidden = compose (n.activator gh) old.hidden code offset → makeGates n [] = .ok t.target.gates →
      ∀ i < size, (y t).entry i = base c.layer t.key.hidden i + term c i) :
    ∃ c : Connection ℝ, (c.Fits ∧ c.weights.height = size ∧ c.weights.width = inputSize n) ∧
      ∀ t ∈ s.transits, c.drive t.input = y t := by
  refine exists_joint hs hindependent y hsize (s.stateShare y base) (s.conditionShare y term)
    (fun t ht u hu => stateShare_congr hs hgo hdistinct y base ht hu) fun t ht i hi => ?_
  obtain ⟨old, hold⟩ := hs.transits t ht
  unfold stateShare
  have hadmits := hold.admits
  generalize hc : t.key.condition = condition at hadmits
  cases hadmits with
  | plain => exact (add_zero _).symm
  | @select c reader =>
    have hselect : s.keying.lookup c.layer ≠ some .dispatch := by rw [reader]; exact fun h => nomatch h
    dsimp only [Option.elim_some]
    rw [if_neg hselect, conditionShare, if_neg hselect]
    obtain ⟨u, hfind⟩ : ∃ u, s.transits.find? (·.key.condition = some c) = some u :=
      Option.isSome_iff_exists.mp (List.find?_isSome.mpr ⟨t, ht, decide_eq_true hc⟩)
    have hu := List.mem_of_find?_eq_some hfind
    have hfound := List.find?_some hfind
    have hd : u.key.condition = some c := of_decide_eq_true hfound
    -- both leave the one state that reads the layer
    obtain ⟨old', hold'⟩ := hs.transits u hu
    have hreader : s.keying.lookup c.layer = some (.select (s.hiddenBits old')) := by
      have hadmits' := hold'.admits
      rw [hd] at hadmits'
      cases hadmits' with
      | select reader' => exact reader'
      | dispatch keying' => exact absurd keying' hselect
    have hhidden : t.key.hidden = u.key.hidden := by
      rw [hold.key, hold'.key]
      exact Keying.select.inj (Option.some.inj (reader.symm.trans hreader))
    have hsource := hreaders t ht u hu c hc c hd rfl hselect hhidden
    rw [eq_of_key hs ht hu hhidden (hdistinct t ht u hu hsource) (hc.trans hd.symm), hfind]
    exact (zero_add _).symm
  | @dispatch c code offset keying hcode hoffset hhidden hgates =>
    dsimp only [Option.elim_some]
    rw [if_pos keying, conditionShare, if_pos keying]
    exact hcomposed t ht old c code offset hold hc hcode hoffset hhidden hgates i hi

/-! ## Composed states -/

/-- The unit of a composed state, a third of what saturates. -/
noncomputable def third (a : Activator ℝ) : ℝ := a.depth / 3

theorem composed_eq {a : Activator ℝ} (ha : a.Proper) (x : Bool × Bool × Bool) : a.composed x =
    a.squash (third a * (Activator.sign x.1 + Activator.sign x.2.1 - Activator.sign x.2.2)) := by
  have hunit : (a.inverse a.on - 0) / ((3 : Nat) : ℝ) = third a := by
    rw [sub_zero, third, Activator.depth]
    norm_num
  unfold Activator.composed
  dsimp only
  rw [ha.inverse_midpoint, hunit, zero_add]
  rfl

theorem entry_compose {a : Activator ℝ} (ha : a.Proper) {p : Pattern ℝ} {code offset : Bits} (hcode : code.length = p.size)
    (hoffset : offset.length = p.size) {i : Nat} (hi : i < p.size) : (compose a p code offset).entry i =
      a.squash (third a * (Activator.sign ((a.bits p).getD i false) + Activator.sign (code.getD i false) -
        Activator.sign (offset.getD i false))) := by
  have hbits : i < (a.bits p).length := by rw [Activator.bits_length]; exact hi
  rw [Pattern.entry_of_lt (by rw [size_compose a p hcode hoffset]; exact hi)]
  simp only [compose_eq, List.getElem_toArray, List.getElem_map, List.getElem_zip, composed_eq ha]
  rw [List.getD_eq_getElem _ _ hbits, List.getD_eq_getElem _ _ (hcode ▸ hi), List.getD_eq_getElem _ _ (hoffset ▸ hi)]

/-- What squashes to a composed state is the sum of a part for the old state and one for the
condition. -/
theorem inverse_compose {a : Activator ℝ} (ha : a.Proper) {p : Pattern ℝ} {code offset : Bits}
    (hcode : code.length = p.size) (hoffset : offset.length = p.size) {i : Nat} (hi : i < p.size) :
    a.inverse ((compose a p code offset).entry i) =
      third a * (Activator.sign ((a.bits p).getD i false) - Activator.sign (offset.getD i false)) +
        third a * Activator.sign (code.getD i false) := by
  rw [entry_compose ha hcode hoffset hi, ha.inverse_squash]
  · ring
  · rw [abs_mul, third, abs_of_pos (div_pos ha.depth_pos three_pos)]
    have hsum : |Activator.sign ((a.bits p).getD i false) + Activator.sign (code.getD i false) -
        Activator.sign (offset.getD i false)| ≤ 3 := by
      generalize (a.bits p).getD i false = x
      generalize code.getD i false = y
      generalize offset.getD i false = z
      cases x <;> cases y <;> cases z <;> norm_num [Activator.sign]
    calc a.depth / 3 * |_| ≤ a.depth / 3 * 3 := mul_le_mul_of_nonneg_left hsum (div_pos ha.depth_pos three_pos).le
      _ = a.depth := by ring

/-- A connection into the hidden layer. -/
theorem exists_recurrent (hs : Admitting n s) (hgo : n.size go = n.gates.size) (hproper : (n.activator gh).Proper)
    (hindependent : s.Independent) (hdistinct : s.Distinct) (hreaders : s.DistinctReaders) :
    ∃ c : Connection ℝ, (c.Fits ∧ c.weights.height = n.size gh ∧ c.weights.width = inputSize n) ∧
      ∀ t ∈ s.transits, c.drive t.input = t.target.hidden.map (n.activator gh).inverse := by
  refine exists_connection (y := fun t => t.target.hidden.map (n.activator gh).inverse) hs hgo hindependent hdistinct
    hreaders (fun t ht => (Array.size_map ..).trans (hs.targets t ht).hidden)
    (fun l bits i => third (n.activator gh) *
      (Activator.sign (bits.getD i false) - Activator.sign (((s.offsets.lookup l).getD []).getD i false)))
    (fun c i => third (n.activator gh) * Activator.sign (((s.codes.lookup c).getD []).getD i false)) ?_
  intro t ht old c code offset hold hc hcode hoffset hcomposed _ i hi
  have hsize := hold.sized.hidden
  have hbits : t.key.hidden = (n.activator gh).bits old.hidden := by
    rw [hold.key]
    exact congrArg (·.bits old.hidden) (hs.keeps.activator gh)
  rw [Pattern.entry_map _ (by rw [(hs.targets t ht).hidden]; exact hi), hcomposed,
    inverse_compose hproper ((hs.codes _ _ hcode).trans hsize.symm) ((hs.offsets _ _ hoffset).trans hsize.symm)
      (hsize ▸ hi), hcode, hoffset, hbits]
  rfl

/-- A connection into the gate layer: the states that are composed all have the default gates. -/
theorem exists_readout (hs : Admitting n s) (hgo : n.size go = n.gates.size) (hindependent : s.Independent)
    (hdistinct : s.Distinct) (hreaders : s.DistinctReaders) :
    ∃ c : Connection ℝ, (c.Fits ∧ c.weights.height = n.size go ∧ c.weights.width = inputSize n) ∧
      ∀ t ∈ s.transits, c.drive t.input = t.target.gates.map (n.activator go).inverse := by
  refine exists_connection (y := fun t => t.target.gates.map (n.activator go).inverse) hs hgo hindependent hdistinct
    hreaders (fun t ht => (Array.size_map ..).trans (hs.targets t ht).gates)
    (fun _ _ i => match makeGates n [] with
      | .ok gates => Pattern.entry (gates.map (n.activator go).inverse) i
      | .error _ => 0)
    (fun _ _ => 0) ?_
  intro t ht old c code offset hold hc hcode hoffset _ hmake i hi
  rw [hmake, add_zero]

theorem Admitting.inputSize_eq (hs : Admitting n s) : inputSize s.network = inputSize n := by
  rw [inputSize, inputSize, hs.keeps.size, conditionSize_eq hs.keeps]

/-- An automaton of independent states and tokens is realizable, whatever calls it was built by and
however many states dispatch on one layer, if different source states are told apart by their
hidden vectors, and by their hidden bits where they read one selection layer. -/
theorem realizable_of_calls {c : Config ℝ} {built n : Network ℝ} (hbuild : (Network.build c).value = .ok built)
    (hbooks : built.Keeps (fun _ _ => False) n) (hsound : n.Sound) {given : List (ControlState ℝ)}
    (hgiven : ∀ state ∈ given, Sized n state) (cs : List Call)
    (hindependent : ((⟨.new n, given⟩ : Recording ℝ).calls cs).sequencer.Independent)
    (hdistinct : ((⟨.new n, given⟩ : Recording ℝ).calls cs).sequencer.Distinct)
    (hreaders : ((⟨.new n, given⟩ : Recording ℝ).calls cs).sequencer.DistinctReaders) :
    ((⟨.new n, given⟩ : Recording ℝ).calls cs).sequencer.Realizable := by
  have hbuilt := Network.builtFrom_of_build hbuild
  have hgo : n.size go = n.gates.size := by rw [hbooks.size, hbooks.gates, hbuilt.size_go]
  have hproper : (n.activator gh).Proper := by
    rw [hbooks.activator, hbuilt.activator_eq (Nat.lt_of_lt_of_le (by decide) hbuilt.numbered.control)]
    exact (Config.sized_of_validate hbuilt.valid).proper
  have hs := (Recording.admitted_of_build hbuild hbooks hsound hgiven cs).sequencer
  obtain ⟨recurrent, hrecurrent, hhidden⟩ := exists_recurrent hs hgo hproper hindependent hdistinct hreaders
  obtain ⟨readout, hreadout, hgates⟩ := exists_readout hs hgo hindependent hdistinct hreaders
  refine ⟨recurrent, readout, ?_, ?_, fun t ht => ?_⟩
  · rw [hs.keeps.size, hs.inputSize_eq]
    exact hrecurrent
  · rw [hs.keeps.size, hs.inputSize_eq]
    exact hreadout
  · rw [hs.keeps.activator, hs.keeps.activator]
    exact ⟨hhidden t ht, hgates t ht⟩

/-! ## Two states that pass for one reader -/

/-- Where the inputs of four transits have one difference, what squashes to their targets has one too. -/
theorem not_realizable_of_crossed (hs : Admitting n s) {a b c d : Transit ℝ} (hmem : ∀ t ∈ [a, b, c, d], t ∈ s.transits)
    (hcrossed : ∀ j, a.input.entry j - b.input.entry j = c.input.entry j - d.input.entry j) {i : Nat}
    (hi : i < n.size gh) {inverse : Transit ℝ → ℝ}
    (hinverse : ∀ t, inverse t = (n.activator gh).inverse (t.target.hidden.entry i))
    (hne : inverse a - inverse b ≠ inverse c - inverse d) : ¬ s.Realizable := by
  rintro ⟨recurrent, readout, ⟨hfits, hheight, hwidth⟩, -, hdrive⟩
  have hout : ∀ t ∈ s.transits, inverse t =
      ∑ j ∈ Finset.range recurrent.weights.width, recurrent.weights.entry i j * t.input.entry j + recurrent.bias.entry i := by
    intro t ht
    obtain ⟨old, hold⟩ := hs.transits t ht
    have hinput : t.input.size = recurrent.weights.width := (hold.size_input hs).trans (hs.inputSize_eq.symm.trans hwidth.symm)
    have hentry := congrArg (Pattern.entry · i) (hdrive t ht).1
    rw [Pattern.entry_map _ (by rw [(hs.targets t ht).hidden]; exact hi),
      Connection.entry_drive hfits hinput (by rw [hheight, hs.keeps.size]; exact hi), hs.keeps.activator] at hentry
    exact (hinverse t).trans hentry.symm
  apply hne
  rw [hout a (hmem a (by simp)), hout b (hmem b (by simp)), hout c (hmem c (by simp)), hout d (hmem d (by simp)),
    add_sub_add_right_eq_sub, add_sub_add_right_eq_sub, ← Finset.sum_sub_distrib, ← Finset.sum_sub_distrib]
  refine Finset.sum_congr rfl fun j _ => ?_
  rw [← mul_sub, ← mul_sub, hcrossed j]

end

/-! ## Reading a recording over the real numbers off one in millionths -/

theorem source_image (n : Network Fixed) (t : Transit Fixed) :
    (t.image Fixed.real).source (n.image Fixed.real) = (t.source n).map Fixed.real := by
  unfold Transit.source
  rw [Network.size_image]
  exact (Array.map_extract ..).symm

theorem tokenPattern_image (n : Network Fixed) (c : Condition) :
    (n.image Fixed.real).tokenPattern c = (n.tokenPattern c).map Fixed.real := by
  unfold Network.tokenPattern
  rw [Network.layer_image]
  show (((n.layer c.layer).book.image Fixed.real).pattern? c.token).getD #[] = _
  rw [CodeBook.pattern?_image]
  show _ = Array.map Fixed.real (((n.layer c.layer).book.pattern? c.token).getD #[])
  cases (n.layer c.layer).book.pattern? c.token with
  | some p => rfl
  | none => exact Array.map_empty.symm

theorem source_injective {n : Network Fixed} {t u : Transit Fixed}
    (h : (t.image Fixed.real).source (n.image Fixed.real) = (u.image Fixed.real).source (n.image Fixed.real)) :
    t.source n = u.source n := by
  rw [source_image, source_image] at h
  exact (Array.map_inj_right fun _ _ hxy => Fixed.real_injective hxy).mp h

/-- Vectors of a finite list are independent if no combination of them vanishes at all units. -/
theorem linearIndepOn_of_list {ι : Type} {l : List ι} (d : ι) {k : Nat} (hl : l.length = k) (p : ι → Pattern Fixed)
    {S : Set ι} (hS : ∀ x ∈ S, x ∈ l)
    (h : ∀ g : Fin k → ℝ, (∀ j, ∑ i, g i * ((p (l.getD i d)).entry j).real = 0) → ∀ i, g i = 0) :
    LinearIndepOn ℝ (fun x => Pattern.entry ((p x).map Fixed.real)) S := by
  have hfamily : LinearIndependent ℝ fun i : Fin k => Pattern.entry ((p (l.getD i d)).map Fixed.real) := by
    rw [Fintype.linearIndependent_iff]
    intro g hg
    refine h g fun j => ?_
    have hj := congrFun hg j
    rw [Finset.sum_apply] at hj
    simpa only [Pi.smul_apply, smul_eq_mul, entry_image Fixed.embeds_real, Pi.zero_apply] using hj
  have himage := LinearIndepOn.image_of_comp (fun i : Fin k => l.getD i d)
    (fun x => Pattern.entry ((p x).map Fixed.real)) (linearIndepOn_univ_iff.mpr hfamily)
  refine himage.mono fun x hx => ?_
  obtain ⟨i, hi, rfl⟩ := List.getElem_of_mem (hS x hx)
  exact ⟨⟨i, hl ▸ hi⟩, Set.mem_univ _, List.getD_eq_getElem l d hi⟩

end Sequencer

end Engram
