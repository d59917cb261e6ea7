/-
  Engram.Proofs.Control.Sequencing — what the operations of the sequencer do.

  Transits are only ever added, and a state of the automaton is created together with the transit
  that leads to it: `Extends` is what any operation leaves, `Adds` what recording a transit does.
  States are known by their hidden bits. `seen` are those of the states so far and `named` counts
  the states that were created, so that states are `Apart` as long as there are as many of the
  one as of the other. An operation adds to `seen` at most what it adds to `named`, so states that
  are apart in the end were apart all along (`Extends.apart`).
-/

import Engram.Control.Automaton
import Engram.Proofs.Network.Gates
import Mathlib.Data.Finset.Card
import Mathlib.Data.Finset.Insert

namespace Engram

open LayerId

namespace Sequencer

variable {α β γ : Type}

/-! ## Operations that succeed -/

/-- The operation succeeds with a result and leaves a sequencer. -/
def Does (x : Sequencing α β) (s : Sequencer α) (b : β) (later : Sequencer α) : Prop :=
  x.run.run s = (.ok b, later)

theorem does_bind {x : Sequencing α β} {f : β → Sequencing α γ} {s later : Sequencer α} {c : γ}
    (h : Does (x >>= f) s c later) : ∃ b t, Does x s b t ∧ Does (f b) t c later := by
  unfold Does at h ⊢
  have hbind : (x >>= f).run.run s = (ExceptT.bindCont f (x.run.run s).1).run (x.run.run s).2 := rfl
  rw [hbind] at h
  rcases hx : x.run.run s with ⟨e | b, t⟩
  · rw [hx] at h
    cases h
  · rw [hx] at h
    exact ⟨b, t, rfl, h⟩

theorem does_of_bind {x : Sequencing α β} {f : β → Sequencing α γ} {s t later : Sequencer α} {b : β} {c : γ}
    (hx : Does x s b t) (hf : Does (f b) t c later) : Does (x >>= f) s c later := by
  unfold Does at hx hf ⊢
  have hbind : (x >>= f).run.run s = (ExceptT.bindCont f (x.run.run s).1).run (x.run.run s).2 := rfl
  rw [hbind, hx]
  exact hf

theorem does_pure {s later : Sequencer α} {b c : β} (h : Does (pure b) s c later) : c = b ∧ later = s := by
  cases h
  exact ⟨rfl, rfl⟩

theorem does_get {s t later : Sequencer α} (h : Does get s t later) : t = s ∧ later = s := by
  cases h
  exact ⟨rfl, rfl⟩

theorem does_set {s t later : Sequencer α} {u : PUnit} (h : Does (set t) s u later) : later = t := by
  cases h
  rfl

theorem does_modify {f : Sequencer α → Sequencer α} {s later : Sequencer α} {u : PUnit} (h : Does (modify f) s u later) :
    later = f s := by
  cases h
  rfl

theorem does_lift {r : Except (Fault α) β} {s later : Sequencer α} {b : β} (h : Does (liftM r) s b later) :
    r = .ok b ∧ later = s := by
  cases r with
  | error e => cases h
  | ok c => cases h; exact ⟨rfl, rfl⟩

theorem not_does_throw {e : Fault α} {s later : Sequencer α} {b : β} : ¬ Does (throw e) s b later := by
  intro h
  cases h

variable [Scalar α]

/-! ## States and transits -/

/-- The input of the control layers for a hidden pattern and a condition. -/
def Joint (n : Network α) (hidden : Pattern α) (condition : Option Condition) (input : Pattern α) : Prop :=
  match condition with
  | none => input = hidden ++ Pattern.zero (conditionSize n)
  | some c => c.layer ∈ conditions ∧ ∃ p, (n.layer c.layer).pattern? c.token = some p ∧
      input = conditions.foldl (fun input layer =>
        input ++ if layer = c.layer then p else Pattern.zero (n.size layer)) hidden

/-- A transit from a state under a condition is recorded. -/
def Leads (s : Sequencer α) (old : ControlState α) (condition : Option Condition) (next : ControlState α) : Prop :=
  ∃ t ∈ s.transits, t.key = s.key old condition ∧ t.target = next ∧ Joint s.network old.hidden condition t.input

/-- The hidden bits of `start` and of every state that a transit leads to. -/
def seen (s : Sequencer α) (start : ControlState α) : Finset Bits :=
  ((start :: s.transits.map (·.target)).map s.hiddenBits).toFinset

/-- Every state that was created has hidden bits of its own: there are as many of them as states
that were named on creation. -/
def Apart (s : Sequencer α) (start : ControlState α) : Prop := (s.seen start).card = s.named

/-- The names that control states were given, latest first. -/
def names (s : Sequencer α) : List (Bits × String) := (s.network.layer gh).book.history

/-- A name that a state can be given on the way: the one of an opcode only if a transit keyed on that opcode
leads to the state. -/
structure Suits (condition : Option Condition) (name : String) : Prop where
  start : name ≠ "start"
  opcode : ∀ op : Opcode, name = op.mnemonic → condition = some ⟨opc, name⟩

/-- Every name that was given since has the property. -/
def Gives (P : Bits → String → Prop) (s later : Sequencer α) : Prop :=
  ∃ news, later.names = news ++ s.names ∧ ∀ e ∈ news, P e.1 e.2

/-- What holds while the automaton is being recorded. -/
structure Traced (s : Sequencer α) (start : ControlState α) : Prop where
  counted : (s.seen start).card ≤ s.named
  sources : ∀ t ∈ s.transits, t.key.hidden ∈ s.seen start
  keys : (s.transits.map (·.key)).Nodup
  gates : s.network.size go = s.network.gates.size
  numbered : s.network.Numbered

/-- A later state of a sequencer. -/
structure Extends (start : ControlState α) (s later : Sequencer α) : Prop where
  network : s.network.Keeps (fun l _ => l ≠ gh) later.network
  transits : s.transits <+: later.transits
  named : (later.seen start).card + s.named ≤ (s.seen start).card + later.named

/-- Records a transit that was not recorded before, and does nothing else that matters. -/
structure Adds (s later : Sequencer α) (old : ControlState α) (condition : Option Condition)
    (next : ControlState α) : Prop where
  network : s.network.Keeps (fun l _ => l ≠ gh) later.network
  unrecorded : ∀ t ∈ s.transits, t.key ≠ s.key old condition
  transits : ∃ input, Joint later.network old.hidden condition input ∧
    later.transits = s.transits ++ [⟨s.key old condition, input, next⟩]
  still : later.named = s.named → later.names = s.names

/-- Records a transit to a new state. -/
structure Creates (s later : Sequencer α) (gates : List Gate) (old : ControlState α) (condition : Option Condition)
    (next : ControlState α) : Prop extends Adds s later old condition next where
  named : later.named = s.named + 1
  opens : Sequencer.makeGates s.network gates = .ok next.gates
  gives : Gives (fun bits name => bits = s.hiddenBits next ∧ Suits condition name) s later

/-- The transit is recorded already. -/
structure Finds (s later : Sequencer α) (old : ControlState α) (condition : Option Condition)
    (next : ControlState α) : Prop where
  network : later.network = s.network
  transits : later.transits = s.transits
  named : later.named = s.named
  recorded : ∃ t ∈ s.transits, t.key = s.key old condition ∧ t.target = next

section

variable {start : ControlState α} {s t u : Sequencer α} {keep : LayerId → String → Prop}

theorem hiddenBits_eq (h : s.network.Keeps keep t.network) (state : ControlState α) :
    t.hiddenBits state = s.hiddenBits state :=
  congrArg (·.bits state.hidden) (h.activator gh)

theorem gateBits_eq (h : s.network.Keeps keep t.network) (state : ControlState α) :
    t.gateBits state = s.gateBits state :=
  congrArg (·.bits state.gates) (h.activator go)

theorem key_eq (h : s.network.Keeps keep t.network) (state : ControlState α) (condition : Option Condition) :
    t.key state condition = s.key state condition := by
  unfold key
  rw [hiddenBits_eq h, gateBits_eq h]

theorem key_of_network (h : t.network = s.network) (state : ControlState α) (condition : Option Condition) :
    t.key state condition = s.key state condition := by
  unfold key hiddenBits gateBits
  rw [h]

theorem Gives.refl {P : Bits → String → Prop} (s : Sequencer α) : Gives P s s := ⟨[], rfl, fun _ he => (List.not_mem_nil he).elim⟩

theorem Gives.of_names {P : Bits → String → Prop} (h : t.names = s.names) : Gives P s t :=
  ⟨[], h, fun _ he => (List.not_mem_nil he).elim⟩

theorem Gives.trans {P : Bits → String → Prop} (h : Gives P s t) (h' : Gives P t u) : Gives P s u := by
  obtain ⟨news, hnames, hnews⟩ := h
  obtain ⟨more, hmore, hall⟩ := h'
  refine ⟨more ++ news, by rw [hmore, hnames, List.append_assoc], fun e he => ?_⟩
  exact (List.mem_append.mp he).elim (hall e) (hnews e)

theorem Gives.mono {P Q : Bits → String → Prop} (h : Gives P s t) (hpq : ∀ bits name, P bits name → Q bits name) :
    Gives Q s t := by
  obtain ⟨news, hnames, hnews⟩ := h
  exact ⟨news, hnames, fun e he => hpq _ _ (hnews e he)⟩

/-- What does not change the code book of the hidden layer gives no names. -/
theorem names_eq (h : t.network.layer gh = s.network.layer gh) : t.names = s.names :=
  congrArg (fun layer : Layer α => layer.book.history) h

theorem mem_seen {bits : Bits} :
    bits ∈ s.seen start ↔ bits = s.hiddenBits start ∨ ∃ t ∈ s.transits, bits = s.hiddenBits t.target := by
  unfold seen
  simp only [List.map_cons, List.map_map, List.toFinset_cons, Finset.mem_insert, List.mem_toFinset, List.mem_map,
    Function.comp_apply, eq_comm (a := bits)]

theorem start_mem_seen : s.hiddenBits start ∈ s.seen start := mem_seen.mpr (.inl rfl)

theorem target_mem_seen {x : Transit α} (hx : x ∈ s.transits) : s.hiddenBits x.target ∈ s.seen start :=
  mem_seen.mpr (.inr ⟨x, hx, rfl⟩)

theorem Joint.of_keeps {n later : Network α} (h : n.Keeps (fun l _ => l ≠ gh) later) {hidden input : Pattern α}
    {condition : Option Condition} (hj : Joint n hidden condition input) :
    Joint later hidden condition input := by
  cases condition with
  | none =>
    unfold Joint conditionSize at hj ⊢
    simp only [h.size]
    exact hj
  | some c =>
    obtain ⟨hc, p, hp, rfl⟩ := hj
    have hne : c.layer ≠ gh := by
      intro heq
      rw [heq] at hc
      exact absurd hc (by decide)
    refine ⟨hc, p, h.pattern _ _ p hne hp, ?_⟩
    simp only [h.size]

namespace Extends

theorem refl (s : Sequencer α) : Extends start s s := ⟨.refl _, List.prefix_rfl, le_rfl⟩

theorem trans (h : Extends start s t) (h' : Extends start t u) : Extends start s u :=
  ⟨h.network.trans h'.network, h.transits.trans h'.transits, by have := h.named; have := h'.named; omega⟩

theorem seen_subset (h : Extends start s t) : s.seen start ⊆ t.seen start := by
  intro bits hbits
  rw [mem_seen] at hbits ⊢
  rw [hiddenBits_eq h.network]
  rcases hbits with h₁ | ⟨x, hx, h₁⟩
  · exact .inl h₁
  · exact .inr ⟨x, h.transits.subset hx, by rw [hiddenBits_eq h.network]; exact h₁⟩

theorem leads (h : Extends start s t) {old next : ControlState α} {condition : Option Condition}
    (hl : s.Leads old condition next) : t.Leads old condition next := by
  obtain ⟨x, hx, hkey, hnext, hjoint⟩ := hl
  exact ⟨x, h.transits.subset hx, by rw [key_eq h.network]; exact hkey, hnext, hjoint.of_keeps h.network⟩

/-- States that are apart in the end were apart before. -/
theorem apart (h : Extends start s t) (hs : s.Traced start) (ht : t.Apart start) : s.Apart start := by
  have hnamed := h.named
  have hcounted := hs.counted
  unfold Apart at ht ⊢
  omega

end Extends

theorem Adds.seen {old next : ControlState α} {condition : Option Condition} (h : Adds s t old condition next) :
    t.seen start = insert (s.hiddenBits next) (s.seen start) := by
  obtain ⟨input, -, htransits⟩ := h.transits
  ext bits
  rw [Finset.mem_insert, mem_seen, mem_seen, htransits]
  simp only [hiddenBits_eq h.network, List.mem_append, List.mem_singleton]
  constructor
  · rintro (h | ⟨x, hx | rfl, h⟩)
    · exact .inr (.inl h)
    · exact .inr (.inr ⟨x, hx, h⟩)
    · exact .inl h
  · rintro (h | h | ⟨x, hx, h⟩)
    · exact .inr ⟨_, .inr rfl, h⟩
    · exact .inl h
    · exact .inr ⟨x, .inl hx, h⟩

theorem Adds.leads {old next : ControlState α} {condition : Option Condition} (h : Adds s t old condition next) :
    t.Leads old condition next := by
  obtain ⟨input, hjoint, htransits⟩ := h.transits
  exact ⟨⟨s.key old condition, input, next⟩, by rw [htransits]; simp, (key_eq h.network _ _).symm, rfl, hjoint⟩

theorem Adds.traced {old next : ControlState α} {condition : Option Condition} (h : Adds s t old condition next)
    (hs : s.Traced start) (hold : s.hiddenBits old ∈ s.seen start) (hcounted : (t.seen start).card ≤ t.named) :
    t.Traced start := by
  have hseen : t.seen start = insert (s.hiddenBits next) (s.seen start) := h.seen
  obtain ⟨input, -, htransits⟩ := h.transits
  refine ⟨hcounted, fun x hx => ?_, ?_, ?_, ?_⟩
  · rw [hseen, Finset.mem_insert]
    rw [htransits, List.mem_append, List.mem_singleton] at hx
    rcases hx with hx | rfl
    · exact .inr (hs.sources x hx)
    · exact .inr hold
  · rw [htransits, List.map_append, List.nodup_append]
    refine ⟨hs.keys, List.nodup_singleton _, ?_⟩
    rintro k hk k' hk' rfl
    obtain ⟨x, hx, rfl⟩ := List.mem_map.mp hk
    rw [List.map_singleton, List.mem_singleton] at hk'
    exact h.unrecorded x hx hk'
  · rw [h.network.size go, h.network.gates]
    exact hs.gates
  · exact h.network.numbered hs.numbered

/-- Recording a transit to a state that was seen already. -/
theorem Adds.extends_of_seen {old next : ControlState α} {condition : Option Condition} (h : Adds s t old condition next)
    (hnamed : t.named = s.named) (hnext : s.hiddenBits next ∈ s.seen start) : Extends start s t := by
  have hseen : t.seen start = insert (s.hiddenBits next) (s.seen start) := h.seen
  obtain ⟨input, -, htransits⟩ := h.transits
  refine ⟨h.network, ⟨_, htransits.symm⟩, ?_⟩
  rw [hseen, Finset.insert_eq_self.mpr hnext, hnamed]

theorem Adds.traced_of_seen {old next : ControlState α} {condition : Option Condition} (h : Adds s t old condition next)
    (hnamed : t.named = s.named) (hnext : s.hiddenBits next ∈ s.seen start) (hs : s.Traced start)
    (hold : s.hiddenBits old ∈ s.seen start) : t.Traced start := by
  refine h.traced hs hold ?_
  rw [h.seen, Finset.insert_eq_self.mpr hnext, hnamed]
  exact hs.counted

variable {gates : List Gate} {old next : ControlState α} {condition : Option Condition}

theorem Creates.extends (h : Creates s t gates old condition next) : Extends start s t := by
  obtain ⟨input, -, htransits⟩ := h.transits
  refine ⟨h.network, ⟨_, htransits.symm⟩, ?_⟩
  have hcard := Finset.card_insert_le (s.hiddenBits next) (s.seen start)
  rw [h.seen, h.named]
  omega

theorem Creates.traced (h : Creates s t gates old condition next) (hs : s.Traced start)
    (hold : s.hiddenBits old ∈ s.seen start) : t.Traced start := by
  refine h.toAdds.traced hs hold ?_
  have hcard := Finset.card_insert_le (s.hiddenBits next) (s.seen start)
  have hcounted := hs.counted
  rw [h.seen, h.named]
  omega

/-- A new state is told apart from those before it. -/
theorem Creates.not_seen (h : Creates s t gates old condition next) (hs : s.Traced start) (ht : t.Apart start) :
    s.hiddenBits next ∉ s.seen start := by
  intro hmem
  have hcounted := hs.counted
  unfold Apart at ht
  rw [h.seen, Finset.insert_eq_self.mpr hmem, h.named] at ht
  omega

theorem Creates.gates_open (h : Creates s t gates old condition next) (hs : s.Traced start) :
    s.network.Opens next.gates gates :=
  Network.opens_makeGates hs.gates h.opens

/-! ## The operations -/

/-- Nothing of the automaton changes. -/
structure Same (s later : Sequencer α) : Prop where
  network : later.network = s.network
  transits : later.transits = s.transits
  named : later.named = s.named

namespace Same

variable {s t u : Sequencer α} {gates : List Gate} {old next : ControlState α} {condition : Option Condition}

omit [Scalar α] in
theorem trans (h : Same s t) (h' : Same t u) : Same s u :=
  ⟨h'.network.trans h.network, h'.transits.trans h.transits, h'.named.trans h.named⟩

theorem names (h : Same s t) : t.names = s.names := names_eq (by rw [h.network])

theorem keeps {keep : LayerId → String → Prop} (h : Same s t) : s.network.Keeps keep t.network := h.network ▸ .refl _

theorem finds (h : Same s t) (hf : Finds t u old condition next) : Finds s u old condition next := by
  refine ⟨hf.network.trans h.network, hf.transits.trans h.transits, hf.named.trans h.named, ?_⟩
  obtain ⟨x, hx, hkey, hnext⟩ := hf.recorded
  exact ⟨x, h.transits ▸ hx, hkey.trans (key_of_network h.network _ _), hnext⟩

theorem adds (h : Same s t) (ha : Adds t u old condition next) : Adds s u old condition next := by
  have hkey : t.key old condition = s.key old condition := key_of_network h.network _ _
  obtain ⟨input, hinput, htransits⟩ := ha.transits
  refine ⟨h.keeps.trans ha.network, fun x hx => ?_, ⟨input, hinput, ?_⟩, fun hnamed => ?_⟩
  · rw [← hkey]
    exact ha.unrecorded x (h.transits.symm ▸ hx)
  · rw [htransits, h.transits, hkey]
  · rw [ha.still (hnamed.trans h.named.symm), h.names]

theorem creates (h : Same s t) (hc : Creates t u gates old condition next) : Creates s u gates old condition next :=
  ⟨h.adds hc.toAdds, by rw [hc.named, h.named], h.network ▸ hc.opens, (Gives.of_names h.names).trans
    (hc.gives.mono fun _ _ hg => ⟨hg.1.trans (congrArg (fun n : Network α => (n.layer gh).bits next.hidden) h.network), hg.2⟩)⟩

end Same

theorem does_claim {s later : Sequencer α} {old : ControlState α} {layer : LayerId} {keying : Keying} {v : Unit}
    (h : Does (claim old layer keying) s v later) : Same s later := by
  obtain ⟨s₁, s₂, hget, hrest⟩ := does_bind h
  obtain ⟨rfl, rfl⟩ := does_get hget
  cases hlookup : s₂.keying.lookup layer with
  | none =>
    rw [hlookup] at hrest
    obtain rfl := does_set hrest
    exact ⟨rfl, rfl, rfl⟩
  | some earlier =>
    rw [hlookup] at hrest
    dsimp only at hrest
    by_cases heq : earlier ≠ keying
    · rw [if_pos heq] at hrest
      exact absurd hrest not_does_throw
    · rw [if_neg heq] at hrest
      obtain ⟨-, rfl⟩ := does_pure hrest
      exact ⟨rfl, rfl, rfl⟩

theorem does_offset {s later : Sequencer α} {layer : LayerId} {signs : Bits} (h : Does (offset layer) s signs later) :
    Same s later := by
  obtain ⟨s₁, s₂, hget, hrest⟩ := does_bind h
  obtain ⟨rfl, rfl⟩ := does_get hget
  cases hlookup : s₂.offsets.lookup layer with
  | some signs =>
    rw [hlookup] at hrest
    obtain ⟨-, rfl⟩ := does_pure hrest
    exact ⟨rfl, rfl, rfl⟩
  | none =>
    rw [hlookup] at hrest
    obtain ⟨u, s₃, hset, hpure⟩ := does_bind hrest
    obtain rfl := does_set hset
    obtain ⟨-, rfl⟩ := does_pure hpure
    exact ⟨rfl, rfl, rfl⟩

theorem does_code {s later : Sequencer α} {condition : Condition} {signs : Bits}
    (h : Does (code condition) s signs later) : Same s later := by
  obtain ⟨s₁, s₂, hget, hrest⟩ := does_bind h
  obtain ⟨rfl, rfl⟩ := does_get hget
  cases hlookup : s₂.codes.lookup condition with
  | some signs =>
    rw [hlookup] at hrest
    obtain ⟨-, rfl⟩ := does_pure hrest
    exact ⟨rfl, rfl, rfl⟩
  | none =>
    rw [hlookup] at hrest
    obtain ⟨u, s₃, hset, hpure⟩ := does_bind hrest
    obtain rfl := does_set hset
    obtain ⟨-, rfl⟩ := does_pure hpure
    exact ⟨rfl, rfl, rfl⟩

omit [Scalar α] in
theorem does_freshName {s later : Sequencer α} {name : String} (h : Does freshName s name later) :
    later.network = s.network ∧ later.transits = s.transits ∧ later.named = s.named + 1 := by
  obtain ⟨s₁, s₂, hget, hrest⟩ := does_bind h
  obtain ⟨rfl, rfl⟩ := does_get hget
  obtain ⟨u, s₃, hset, hpure⟩ := does_bind hrest
  obtain rfl := does_set hset
  obtain ⟨-, rfl⟩ := does_pure hpure
  exact ⟨rfl, rfl, rfl⟩

omit [Scalar α] in
/-- A fresh name suits any state. -/
theorem suits_freshName {s later : Sequencer α} {name : String} (h : Does freshName s name later)
    (condition : Option Condition) : Suits condition name := by
  obtain ⟨s₁, s₂, hget, hrest⟩ := does_bind h
  obtain ⟨rfl, rfl⟩ := does_get hget
  obtain ⟨u, s₃, hset, hpure⟩ := does_bind hrest
  obtain ⟨rfl, -⟩ := does_pure hpure
  have hdot : '.' ∈ (s₂.context ++ "." ++ toString s₂.named).toList := by simp
  have hnone : ∀ op : Opcode, '.' ∉ op.mnemonic.toList := by
    intro op
    cases op <;> decide
  refine ⟨fun heq => ?_, fun op heq => ?_⟩
  · rw [heq] at hdot
    exact absurd hdot (by decide)
  · rw [heq] at hdot
    exact absurd hdot (hnone op)

theorem does_freshHidden {s later : Sequencer α} {p : Pattern α} (h : Does freshHidden s p later) :
    s.network.Keeps (fun l _ => l ≠ gh) later.network ∧ later.transits = s.transits ∧ later.named = s.named + 1 := by
  obtain ⟨name, s₁, hname, hrest⟩ := does_bind h
  obtain ⟨hnet, htransits, hnamed⟩ := does_freshName hname
  obtain ⟨s₂, s₃, hget, hencode⟩ := does_bind hrest
  obtain ⟨rfl, rfl⟩ := does_get hget
  obtain ⟨u, s₄, hset, hpure⟩ := does_bind hencode
  obtain rfl := does_set hset
  obtain ⟨-, rfl⟩ := does_pure hpure
  exact ⟨hnet ▸ (Network.grows_encode _ _ _).mono fun _ _ _ => trivial, htransits, hnamed⟩

/-- Encoding a name on the hidden layer gives it to the pattern, unless it has one. -/
theorem names_encode (s : Sequencer α) (name : String) :
    ({ s with network := (s.network.encode gh name).2 } : Sequencer α).names = s.names ∨
      ({ s with network := (s.network.encode gh name).2 } : Sequencer α).names =
        ((s.network.layer gh).bits (s.network.encode gh name).1, name) :: s.names := by
  unfold names Network.encode
  rw [Network.layer_modifyLayer]
  split
  · unfold Layer.encode CodeBook.encode
    cases (s.network.layer gh).book.pattern? name with
    | some p => exact .inl rfl
    | none => exact .inr rfl
  · exact .inl rfl

/-- A new hidden pattern is given a fresh name. -/
theorem gives_freshHidden {s later : Sequencer α} {p : Pattern α} (h : Does freshHidden s p later) (condition : Option Condition) :
    Gives (fun bits name => bits = (s.network.layer gh).bits p ∧ Suits condition name) s later := by
  obtain ⟨name, s₁, hname, hrest⟩ := does_bind h
  obtain ⟨hnet, -, -⟩ := does_freshName hname
  have hsuits := suits_freshName hname condition
  obtain ⟨s₂, s₃, hget, hencode⟩ := does_bind hrest
  obtain ⟨rfl, rfl⟩ := does_get hget
  obtain ⟨u, s₄, hset, hpure⟩ := does_bind hencode
  obtain rfl := does_set hset
  obtain ⟨rfl, rfl⟩ := does_pure hpure
  rw [← hnet]
  refine (Gives.of_names (t := s₃) (names_eq (congrArg (Network.layer · gh) hnet))).trans ?_
  rcases names_encode s₃ name with hsame | hnew
  · exact .of_names hsame
  · refine ⟨[_], hnew, fun e he => ?_⟩
    obtain rfl := List.mem_singleton.mp he
    exact ⟨rfl, hsuits⟩

theorem does_nameState {s later : Sequencer α} {state : ControlState α} {name : String} {v : Unit}
    (h : Does (nameState state name) s v later) :
    s.network.Keeps (fun l _ => l ≠ gh) later.network ∧ later.transits = s.transits ∧ later.named = s.named := by
  obtain rfl := does_modify h
  exact ⟨(Network.keeps_bindToken _ _ _ _).mono fun l _ hl h => hl h.1, rfl, rfl⟩

/-- A state is given its name. -/
theorem names_nameState {s later : Sequencer α} {state : ControlState α} {name : String} {v : Unit} (hs : s.network.Numbered)
    (h : Does (nameState state name) s v later) : later.names = (s.hiddenBits state, name) :: s.names := by
  obtain rfl := does_modify h
  unfold names
  dsimp only
  rw [Network.bindToken, Network.layer_modifyLayer, if_pos ⟨rfl, Nat.lt_of_lt_of_le (by decide) hs.control⟩]
  rfl

theorem gives_nameState {s later : Sequencer α} {state : ControlState α} {name : String} {v : Unit} (hs : s.network.Numbered)
    (h : Does (nameState state name) s v later) {condition : Option Condition} (hname : Suits condition name) :
    Gives (fun bits x => bits = s.hiddenBits state ∧ Suits condition x) s later := by
  refine ⟨[_], names_nameState hs h, fun e he => ?_⟩
  obtain rfl := List.mem_singleton.mp he
  exact ⟨rfl, hname⟩

omit [Scalar α] in
theorem does_setContext {s later : Sequencer α} {context : String} {v : Unit}
    (h : Does (setContext context) s v later) : Same s later := by
  obtain rfl := does_modify h
  exact ⟨rfl, rfl, rfl⟩

theorem does_jointInput {s later : Sequencer α} (hs : s.network.Numbered) {old : ControlState α}
    {condition : Option Condition} (hc : ∀ c ∈ condition, c.layer ∈ conditions) {input : Pattern α}
    (h : Does (jointInput old condition) s input later) :
    s.network.Keeps (fun l _ => l ≠ gh) later.network ∧ Joint later.network old.hidden condition input ∧
      later.transits = s.transits ∧ later.named = s.named := by
  obtain ⟨s₁, s₂, hget, hrest⟩ | ⟨c, rfl, hsome⟩ :
      (∃ s₁ s₂, Does get s s₁ s₂ ∧ Does (pure (old.hidden ++ Pattern.zero (conditionSize s₁.network))) s₂ input later ∧
        condition = none) ∨ ∃ c, condition = some c ∧ Does (jointInput old (some c)) s input later := by
    cases condition with
    | none =>
      obtain ⟨s₁, s₂, hget, hrest⟩ := does_bind h
      exact .inl ⟨s₁, s₂, hget, hrest, rfl⟩
    | some c => exact .inr ⟨c, rfl, h⟩
  · obtain ⟨rfl, rfl⟩ := does_get hget
    obtain ⟨rfl, rfl⟩ := does_pure hrest.1
    rw [hrest.2]
    exact ⟨.refl _, rfl, rfl, rfl⟩
  · obtain ⟨s₁, s₂, hget, hrest⟩ := does_bind hsome
    obtain ⟨rfl, rfl⟩ := does_get hget
    obtain ⟨u, s₃, hset, hpure⟩ := does_bind hrest
    obtain rfl := does_set hset
    obtain ⟨rfl, rfl⟩ := does_pure hpure
    have hlayer := hc c rfl
    have hpos : c.layer.position < s₂.network.layers.size := by
      refine Nat.lt_of_lt_of_le ?_ hs.control
      revert hlayer
      generalize c.layer = l
      revert l
      decide
    exact ⟨(Network.grows_encode _ _ _).mono fun _ _ _ => trivial,
      ⟨hlayer, _, Network.pattern?_encode_self _ hpos _, rfl⟩, rfl, rfl⟩

/-- The tokens of conditions are none of the hidden layer. -/
theorem names_jointInput {s later : Sequencer α} {old : ControlState α} {condition : Option Condition}
    (hc : ∀ c ∈ condition, c.layer ∈ conditions) {input : Pattern α} (h : Does (jointInput old condition) s input later) :
    later.names = s.names := by
  cases condition with
  | none =>
    obtain ⟨s₁, s₂, hget, hpure⟩ := does_bind h
    obtain ⟨rfl, rfl⟩ := does_get hget
    obtain ⟨-, rfl⟩ := does_pure hpure
    rfl
  | some c =>
    have hne : gh ≠ c.layer := by
      intro heq
      have hlayer := hc c rfl
      rw [← heq] at hlayer
      exact absurd hlayer (by decide)
    obtain ⟨s₁, s₂, hget, hrest⟩ := does_bind h
    obtain ⟨rfl, rfl⟩ := does_get hget
    obtain ⟨u, s₃, hset, hpure⟩ := does_bind hrest
    obtain rfl := does_set hset
    obtain ⟨-, rfl⟩ := does_pure hpure
    exact names_eq (Network.layer_encode_of_ne _ hne _)

/-- A condition that passes is on a condition layer. -/
theorem layer_of_checkCondition {s : Sequencer α} {old : ControlState α} {condition : Option Condition} {v : Unit}
    (h : s.checkCondition old condition = .ok v) : ∀ c ∈ condition, c.layer ∈ conditions := by
  intro c hc
  obtain rfl : condition = some c := hc
  unfold checkCondition at h
  by_cases hmem : conditions.contains c.layer = true
  · exact List.contains_iff_mem.mp hmem
  · dsimp only at h
    rw [if_neg hmem] at h
    cases h

theorem does_record {s later : Sequencer α} (hs : s.network.Numbered) {old target next : ControlState α}
    {condition : Option Condition} (hc : ∀ c ∈ condition, c.layer ∈ conditions)
    (h : Does (record old condition target) s next later) :
    next = target ∧ s.network.Keeps (fun l _ => l ≠ gh) later.network ∧ later.named = s.named ∧
      ∃ input, Joint later.network old.hidden condition input ∧
        later.transits = s.transits ++ [⟨s.key old condition, input, target⟩] := by
  obtain ⟨input, s₁, hjoint, hrest⟩ := does_bind h
  obtain ⟨hkeeps, hinput, htransits, hnamed⟩ := does_jointInput hs hc hjoint
  obtain ⟨u, s₂, hmodify, hpure⟩ := does_bind hrest
  obtain rfl := does_modify hmodify
  obtain ⟨rfl, rfl⟩ := does_pure hpure
  refine ⟨rfl, hkeeps, hnamed, input, hinput, ?_⟩
  show s₁.transits ++ [⟨s₁.key old condition, input, next⟩] = _
  rw [htransits, key_eq hkeeps]

theorem names_record {s later : Sequencer α} {old target next : ControlState α} {condition : Option Condition}
    (hc : ∀ c ∈ condition, c.layer ∈ conditions) (h : Does (record old condition target) s next later) :
    later.names = s.names := by
  obtain ⟨input, s₁, hjoint, hrest⟩ := does_bind h
  obtain ⟨u, s₂, hmodify, hpure⟩ := does_bind hrest
  obtain rfl := does_modify hmodify
  obtain ⟨-, rfl⟩ := does_pure hpure
  exact (names_jointInput hc hjoint : s₁.names = s.names)

/-- A transit that is found was recorded with that key. -/
theorem finds_of_find? {s : Sequencer α} {old : ControlState α} {condition : Option Condition} {x : Transit α}
    (h : s.find? (s.key old condition) = some x) : Finds s s old condition x.target := by
  unfold find? at h
  have hkey := List.find?_some h
  exact ⟨rfl, rfl, rfl, x, List.mem_of_find?_eq_some h, of_decide_eq_true hkey, rfl⟩

omit [Scalar α] in
theorem key_ne_of_find? {s : Sequencer α} {k : TransitKey} (h : s.find? k = none) : ∀ t ∈ s.transits, t.key ≠ k := by
  intro t ht heq
  unfold find? at h
  exact List.find?_eq_none.mp h t ht (decide_eq_true heq)

/-- What a transit does once its condition has passed. -/
def complete (gates : List Gate) (old : ControlState α) (condition : Option Condition)
    (target : Option (ControlState α)) : Sequencing α (ControlState α) := do
  let s ← get
  match s.find? (s.key old condition), target with
  | some earlier, some target =>
    if s.sameState earlier.target target then return earlier.target
    else throw (.transitConflict s.context (s.stateName old) (s.conditionName condition))
  | some _, none => throw (.transitConflict s.context (s.stateName old) (s.conditionName condition))
  | none, some target => record old condition target
  | none, none =>
    let gates ← liftM (makeGates s.network gates)
    record old condition ⟨gates, ← freshHidden⟩

theorem does_complete {s later : Sequencer α} (hs : s.network.Numbered) {gates : List Gate} {old next : ControlState α}
    {condition : Option Condition} (hc : ∀ c ∈ condition, c.layer ∈ conditions) {target : Option (ControlState α)}
    (h : Does (complete gates old condition target) s next later) :
    (∃ t, target = some t ∧ Finds s later old condition next) ∨
    (target = some next ∧ Adds s later old condition next ∧ later.named = s.named) ∨
    (target = none ∧ Creates s later gates old condition next) := by
  obtain ⟨s₁, s₂, hget, hmatch⟩ := does_bind h
  obtain ⟨rfl, rfl⟩ := does_get hget
  rcases hfound : s₂.find? (s₂.key old condition) with _ | earlier
  · rcases target with _ | target
    · rw [hfound] at hmatch
      obtain ⟨pattern, s₃, hlift, hrest⟩ := does_bind hmatch
      obtain ⟨hgates, rfl⟩ := does_lift hlift
      obtain ⟨hidden, s₄, hhidden, hrecord⟩ := does_bind hrest
      obtain ⟨hkeeps, htransits, hnamed⟩ := does_freshHidden hhidden
      obtain ⟨rfl, hkeeps', hnamed', input, hinput, htransits'⟩ := does_record (hkeeps.numbered hs) hc hrecord
      have hgives := (gives_freshHidden hhidden condition).trans (.of_names (names_record hc hrecord))
      refine .inr (.inr ⟨rfl, ⟨hkeeps.trans hkeeps', key_ne_of_find? hfound, ⟨input, hinput, ?_⟩, fun hstill => ?_⟩, ?_,
        hgates, hgives⟩)
      · rw [htransits', htransits, key_eq hkeeps]
      · rw [hnamed', hnamed] at hstill
        exact absurd hstill (Nat.succ_ne_self _)
      · rw [hnamed', hnamed]
    · rw [hfound] at hmatch
      obtain ⟨rfl, hkeeps, hnamed, input, hinput, htransits⟩ := does_record hs hc hmatch
      exact .inr (.inl ⟨rfl, ⟨hkeeps, key_ne_of_find? hfound, ⟨input, hinput, htransits⟩, fun _ => names_record hc hmatch⟩, hnamed⟩)
  · rcases target with _ | target
    · rw [hfound] at hmatch
      exact absurd hmatch not_does_throw
    · rw [hfound] at hmatch
      dsimp only at hmatch
      by_cases hsame : s₂.sameState earlier.target target = true
      · rw [if_pos hsame] at hmatch
        obtain ⟨rfl, rfl⟩ := does_pure hmatch
        exact .inl ⟨target, rfl, finds_of_find? hfound⟩
      · rw [if_neg hsame] at hmatch
        exact absurd hmatch not_does_throw

/-- A transit is recorded to the given state or to a new one, or it was recorded before with the
given state as its target. -/
theorem does_transit {s later : Sequencer α} (hs : s.network.Numbered) {gates : List Gate} {old next : ControlState α}
    {condition : Option Condition} {target : Option (ControlState α)}
    (h : Does (transit gates old condition target) s next later) :
    (∃ t, target = some t ∧ Finds s later old condition next) ∨
    (target = some next ∧ Adds s later old condition next ∧ later.named = s.named) ∨
    (target = none ∧ Creates s later gates old condition next) := by
  obtain ⟨s₁, s₂, hget, hrest⟩ := does_bind h
  obtain ⟨rfl, rfl⟩ := does_get hget
  obtain ⟨u, s₃, hlift, hbody⟩ := does_bind hrest
  obtain ⟨hcheck, rfl⟩ := does_lift hlift
  have hlayer := layer_of_checkCondition hcheck
  cases condition with
  | none => exact does_complete hs hlayer hbody
  | some c =>
    obtain ⟨s₄, s₅, hget, hclaimed⟩ := does_bind hbody
    obtain ⟨rfl, rfl⟩ := does_get hget
    obtain ⟨v, s₆, hclaim, hcomplete⟩ := does_bind hclaimed
    have hsame := does_claim hclaim
    rcases does_complete (hsame.network ▸ hs) hlayer hcomplete with ⟨t, ht, hfinds⟩ | ⟨ht, hadds, hnamed⟩ | ⟨ht, hcreates⟩
    · exact .inl ⟨t, ht, hsame.finds hfinds⟩
    · exact .inr (.inl ⟨ht, hsame.adds hadds, hnamed.trans hsame.named⟩)
    · exact .inr (.inr ⟨ht, hsame.creates hcreates⟩)

/-- A dispatch is a transit to a new state with the default gates, unless it was recorded before. -/
theorem does_dispatch {s later : Sequencer α} (hs : s.network.Numbered) {old next : ControlState α} {layer : LayerId}
    {token : String} (h : Does (dispatch old layer token) s next later) :
    Finds s later old (some ⟨layer, token⟩) next ∨ Creates s later [] old (some ⟨layer, token⟩) next := by
  obtain ⟨s₁, s₂, hget, hrest⟩ := does_bind h
  obtain ⟨rfl, rfl⟩ := does_get hget
  obtain ⟨u, s₃, hlift, hbody⟩ := does_bind hrest
  obtain ⟨hcheck, rfl⟩ := does_lift hlift
  have hlayer := layer_of_checkCondition hcheck
  obtain ⟨u₁, s₄, hclaim, hclaimed⟩ := does_bind hbody
  have hsame := does_claim hclaim
  obtain ⟨s₅, s₆, hget, hmatch⟩ := does_bind hclaimed
  obtain ⟨rfl, rfl⟩ := does_get hget
  rcases hfound : s₆.find? (s₆.key old (some ⟨layer, token⟩)) with _ | earlier
  · right
    rw [hfound] at hmatch
    obtain ⟨signs, s₇, hoffset, hafter₇⟩ := does_bind hmatch
    obtain ⟨signs', s₈, hcode, hafter₈⟩ := does_bind hafter₇
    obtain ⟨s₉, s₁₀, hget, hafter₉⟩ := does_bind hafter₈
    obtain ⟨rfl, rfl⟩ := does_get hget
    obtain ⟨pattern, s₁₁, hmake, hafter₁₁⟩ := does_bind hafter₉
    obtain ⟨hgates, rfl⟩ := does_lift hmake
    obtain ⟨name, s₁₂, hfresh, hafter₁₂⟩ := does_bind hafter₁₁
    obtain ⟨hnet₁₂, htransits₁₂, hnamed₁₂⟩ := does_freshName hfresh
    obtain ⟨u₂, s₁₃, hnameState, hrecord⟩ := does_bind hafter₁₂
    obtain ⟨hkeeps, htransits, hnamed⟩ := does_nameState hnameState
    have hsigns := (does_offset hoffset).trans (does_code hcode)
    have hnet : s₁₂.network = s₆.network := hnet₁₂.trans hsigns.network
    have hnumbered : s₁₂.network.Numbered := (hnet.trans hsame.network) ▸ hs
    obtain ⟨rfl, hkeeps', hnamed', input, hinput, htransits'⟩ := does_record (hkeeps.numbered hnumbered) hlayer hrecord
    have hgives := (gives_nameState hnumbered hnameState (suits_freshName hfresh (some ⟨layer, token⟩))).trans
      (.of_names (names_record hlayer hrecord))
    unfold hiddenBits at hgives
    rw [hnet] at hgives
    have hstart : s₁₂.names = s₆.names := names_eq (congrArg (Network.layer · gh) hnet)
    refine hsame.creates ⟨⟨hnet ▸ hkeeps.trans hkeeps', key_ne_of_find? hfound, ⟨input, hinput, ?_⟩, fun hstill => ?_⟩, ?_, ?_,
      (Gives.of_names hstart).trans hgives⟩
    · rw [htransits', htransits, htransits₁₂, hsigns.transits, key_eq hkeeps, key_of_network hnet]
    · rw [hnamed', hnamed, hnamed₁₂, hsigns.named] at hstill
      exact absurd hstill (Nat.succ_ne_self _)
    · rw [hnamed', hnamed, hnamed₁₂, hsigns.named]
    · rw [← hsigns.network]
      exact hgates
  · left
    rw [hfound] at hmatch
    obtain ⟨rfl, rfl⟩ := does_pure hmatch
    exact hsame.finds (finds_of_find? hfound)

end

end Sequencer

end Engram
