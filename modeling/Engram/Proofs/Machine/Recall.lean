/-
  Engram.Proofs.Machine.Recall — ticks of a machine whose pathways recall ideally.

  A pathway holds associations: those of the programs and of the pointers, and what was written
  into it while the machine ran, which a log keeps (`Associated`). A machine recalls ideally when at
  a tick every open pathway that is given an input it holds an association for carries the target
  of it, the control layers come to the target of the transit that they are at, and what holds a
  token goes on holding it (`Ideal`).

  Such a machine shows a processor: its layers hold the tokens, and the log leads the tokens of a
  pathway to each other (`Shows`). A tick in a state that opens a transfer shows the processor
  after the transfer, and comes to the next state of the walk (`At.tick`).
-/

import Engram.Proofs.Machine.Reading
import Engram.Proofs.Machine.Transfers

namespace Engram

open LayerId

variable {α : Type} [Scalar α]

/-- Every token can be read off its pattern, other than those of the instruction pointer, where
labels share the patterns of lines. -/
def Network.Legible (n : Network α) : Prop := ∀ l, l ≠ ip → l ≠ gh → ∀ t p, (n.layer l).pattern? t = some p →
  (n.layer l).decode p = t

theorem Network.position_lt_of_pattern? {n : Network α} {l : LayerId} {t : String} {p : Pattern α}
    (h : (n.layer l).pattern? t = some p) : l.position < n.layers.size := by
  by_contra hout
  have habsent : n.layer l = Layer.absent := by
    unfold Network.layer
    rw [Array.getD_eq_getD_getElem?, Array.getElem?_eq_none (Nat.le_of_not_lt hout), Option.getD_none]
  rw [habsent] at h
  cases h

/-- Whether every token of such a layer is read off its pattern. -/
def Network.readsOff (n : Network α) : Bool :=
  n.layerIds.all fun l => l == ip || l == gh || (n.layer l).tokens.all fun t =>
    ((n.layer l).pattern? t).all fun p => (n.layer l).decode p == t

theorem Network.legible_of_readsOff {n : Network α} (h : n.readsOff = true) : n.Legible := by
  intro l hip hgh t p hp
  have hl : l ∈ n.layerIds :=
    List.mem_map.mpr ⟨l.position, List.mem_range.mpr (n.position_lt_of_pattern? hp), congrArg LayerId.mk UInt16.ofNat_toNat⟩
  have ht : t ∈ (n.layer l).tokens := by
    obtain ⟨before, after, heq, -⟩ := List.lookup_eq_some_iff.mp hp
    exact List.mem_map.mpr ⟨(t, p), heq ▸ List.mem_append_right _ List.mem_cons_self, rfl⟩
  have hlayer := List.all_eq_true.mp h l hl
  rw [beq_eq_false_iff_ne.mpr hip, beq_eq_false_iff_ne.mpr hgh, Bool.false_or, Bool.false_or] at hlayer
  have htoken := List.all_eq_true.mp hlayer t ht
  rw [hp] at htoken
  exact beq_iff_eq.mp htoken

omit [Scalar α] in
theorem Network.Numbered.source_of_plastic {n : Network α} (hn : n.Numbered) {p : Pathway} (hp : p ∈ n.plastic) :
    p.source ≠ ip ∧ p.source ≠ gh := by
  have hfixed : ∀ p ∈ plasticPathways [], p.source ≠ ip ∧ p.source ≠ gh := by decide
  have hregister : ∀ r ∈ n.registers, r ≠ ip ∧ r ≠ gh := fun r hr =>
    ⟨fun heq => absurd (heq ▸ (hn.registers r hr).1) (by decide), (hn.ne_control hr).1⟩
  rcases List.mem_append.mp ((plasticPathways_perm n.registers).mem_iff.mp hp) with hp | hp
  · exact hfixed p hp
  · obtain ⟨r, hr, hp⟩ := List.mem_flatMap.mp hp
    simp only [registerPlastic, List.mem_cons, List.not_mem_nil, or_false] at hp
    rcases hp with rfl | rfl | rfl
    · exact (by decide : mf ≠ ip ∧ mf ≠ gh)
    · exact hregister r hr
    · exact hregister r hr

/-- What was written into each pathway at run time, as keys with values, latest first. -/
abbrev Log (α : Type) := Pathway → List (Pattern α × Pattern α)

/-- What a pathway holds associations for. -/
inductive Associated (session : Session α) (slots : Nat) (log : Log α) : Pathway → Pattern α → Pattern α → Prop
  | program {p : Pathway} {x y : Pattern α} (h : session.pairs.target? p x = some y) : Associated session slots log p x y
  | pointer {p : Pathway} {x y : Pattern α} {shift : Pointer.Shift} {t t' : String} (hp : (p, shift) ∈ Pointer.moves)
      (ht : shift.token? slots t = some t') (hx : (session.network.layer p.source).pattern? t = some x)
      (hy : (session.network.layer p.target).pattern? t' = some y) : Associated session slots log p x y
  | written {p : Pathway} {x y : Pattern α} (hp : p ∈ session.network.plastic) (hne : p ≠ ⟨co, ci⟩)
      (h : Pairs.targetIn (log p) x = some y) : Associated session slots log p x y
  /-- The comparison answers `true` to the key that was written last. -/
  | equal {x y value : Pattern α} (h : (log ⟨co, ci⟩).head? = some (x, value))
      (hy : (session.network.layer co).pattern? trueToken = some y) : Associated session slots log ⟨co, ci⟩ x y
  | different {t : String} {x y : Pattern α} (hx : (session.network.layer ci).pattern? t = some x)
      (h : ∀ entry ∈ (log ⟨co, ci⟩).head?, entry.1 ≠ x)
      (hy : (session.network.layer co).pattern? falseToken = some y) : Associated session slots log ⟨co, ci⟩ x y

/-- A pathway that is not taught at run time and moves no pointer holds what the programs associate. -/
theorem Associated.target? {session : Session α} {slots : Nat} {log : Log α} {p : Pathway} {x y : Pattern α}
    (h : Associated session slots log p x y) (hplastic : p ∉ session.network.plastic) (hmoves : ∀ z ∈ Pointer.moves, z.1 ≠ p) :
    session.pairs.target? p x = some y := by
  have hcompared : (⟨co, ci⟩ : Pathway) ∈ session.network.plastic := mem_plasticPathways_fixed (by decide)
  cases h with
  | program h => exact h
  | pointer hp => exact absurd rfl (hmoves _ hp)
  | written hp => exact absurd hp hplastic
  | equal => exact absurd hcompared hplastic
  | different => exact absurd hcompared hplastic

namespace Machine

/-- The activity of a layer that forgets its own and takes up what comes from the given layers. -/
def arriving (m : Machine α) (l : LayerId) (sources : List LayerId) : Pattern α :=
  (m.summed l sources).map (m.network.activator l).squash

/-- The log after a tick. -/
def logged (m : Machine α) (log : Log α) : Log α := fun p =>
  if p ∈ m.network.plastic ∧ Gate.learn p.target p.source ∈ m.openGates then
    (m.active p.source, m.active p.target) :: log p
  else log p

/-- At this tick a machine recalls what it holds associations for. -/
structure Ideal (s : Sequencer α) (m : Machine α) (log : Log α) : Prop where
  /-- What the control layers read together leads to the next state. -/
  control : ∀ old condition next, s.Leads old condition next → m.Holds old condition →
    m.arriving gh (gh :: (condition.map (·.layer)).toList) = next.hidden ∧
      m.arriving go (gh :: (condition.map (·.layer)).toList) = next.gates
  /-- An open pathway into a data layer yields the target of its input. -/
  data : ∀ p ∈ m.network.flows, ¬ p.Controls → Gate.copy p.target p.source ∈ m.openGates → ∀ y,
    Associated m.session m.config.pointerSlots log p (m.active p.source) y → m.arriving p.target [p.source] = y
  /-- Retention fixes what stands for tokens. The hidden layer, whose states may be composed, is never
  retained. -/
  held : ∀ l, l ≠ gh → ∀ t p, (m.network.layer l).pattern? t = some p → p.map (m.network.activator l).hold = p

/-- The layers hold the tokens of a processor, and what was written leads its tokens to each other. -/
structure Shows (m : Machine α) (log : Log α) (v : Processor) : Prop where
  token : ∀ l t, v.token l = some t → (m.network.layer l).pattern? t = some (m.active l)
  control : ∀ l : LayerId, l = gh ∨ l = go → v.token l = none
  link : ∀ p, p ≠ ⟨co, ci⟩ → ∀ t t', v.link p t = some t' → ∃ x y, (m.network.layer p.source).pattern? t = some x ∧
    (m.network.layer p.target).pattern? t' = some y ∧ Pairs.targetIn (log p) x = some y
  against : ∀ t, v.against = some t → ∃ x value, (m.network.layer ci).pattern? t = some x ∧
    (log ⟨co, ci⟩).head? = some (x, value)

end Machine

/-- The wiring is what the pathways of a session are associated with: the plastic ones with nothing,
and the others with patterns of the tokens that the wiring leads to. -/
structure Wiring.Wired (e : Wiring) (session : Session α) (slots : Nat) : Prop where
  plastic : ∀ p, e p = none → p ∈ session.network.plastic
  leads : ∀ p f, e p = some f → ∀ t t' x, f t = some t' → (session.network.layer p.source).pattern? t = some x →
    ∃ y, (session.network.layer p.target).pattern? t' = some y ∧ ∀ log, Associated session slots log p x y

/-! ## Gates -/

namespace Transfer

variable {a : Transfer} {l source : LayerId}

theorem mem_gates {g : Gate} : g ∈ a.gates ↔ (∃ l ∈ a.reads, g = .copy gh l ∨ g = .copy go l) ∨
    (∃ p ∈ a.flows, g = .copy p.target p.source ∨ g = .decay p.target) ∨ ∃ p ∈ a.learns, g = .learn p.target p.source := by
  simp only [gates, Microcode.read, Gate.flow, List.mem_append, List.mem_flatMap, List.mem_map, List.mem_cons,
    List.not_mem_nil, or_false, or_assoc, eq_comm]

/-- The default gates are gates of the control layers. -/
theorem of_mem_defaultGates {g : Gate} (h : g ∈ defaultGates) : (g.target = gh ∨ g.target = go) ∧ g.mode ≠ .learn := by
  have hall : ∀ g ∈ defaultGates, (g.target = gh ∨ g.target = go) ∧ g.mode ≠ .learn := by decide
  exact hall g h

theorem mem_default_iff {g : Gate} (hg : g.target ≠ gh ∧ g.target ≠ go) : g ∈ defaultGates ++ a.gates ↔ g ∈ a.gates := by
  rw [List.mem_append]
  exact or_iff_right fun h => (of_mem_defaultGates h).1.elim hg.1 hg.2

theorem mem_gates_copy (hl : l ≠ gh ∧ l ≠ go) : Gate.copy l source ∈ defaultGates ++ a.gates ↔ ⟨l, source⟩ ∈ a.flows := by
  rw [mem_default_iff hl, mem_gates]
  constructor
  · rintro (⟨x, -, h | h⟩ | ⟨p, hp, h | h⟩ | ⟨p, -, h⟩)
    · exact absurd (congrArg Gate.target h) hl.1
    · exact absurd (congrArg Gate.target h) hl.2
    · cases h
      exact hp
    · cases congrArg Gate.mode h
    · cases congrArg Gate.mode h
  · exact fun hp => .inr (.inl ⟨_, hp, .inl rfl⟩)

theorem mem_gates_decay (hl : l ≠ gh ∧ l ≠ go) : Gate.decay l ∈ defaultGates ++ a.gates ↔ ∃ p ∈ a.flows, p.target = l := by
  rw [mem_default_iff hl, mem_gates]
  constructor
  · rintro (⟨x, -, h | h⟩ | ⟨p, hp, h | h⟩ | ⟨p, -, h⟩)
    · cases congrArg Gate.mode h
    · cases congrArg Gate.mode h
    · cases congrArg Gate.mode h
    · exact ⟨p, hp, (congrArg Gate.target h).symm⟩
    · cases congrArg Gate.mode h
  · rintro ⟨p, hp, rfl⟩
    exact .inr (.inl ⟨p, hp, .inr rfl⟩)

/-- Only what is read comes into the control layers from elsewhere. -/
theorem mem_gates_read {registers : List LayerId} (hlegal : a.Legal registers) (hl : l = gh ∨ l = go)
    (hsource : source ∈ conditions) : Gate.copy l source ∈ defaultGates ++ a.gates ↔ source ∈ a.reads := by
  have hnot : ∀ source ∈ conditions, Gate.copy gh source ∉ defaultGates ∧ Gate.copy go source ∉ defaultGates := by decide
  have hdefault : Gate.copy l source ∉ defaultGates := by
    rcases hl with rfl | rfl
    · exact (hnot source hsource).1
    · exact (hnot source hsource).2
  rw [List.mem_append, or_iff_right hdefault, mem_gates]
  constructor
  · rintro (⟨x, hx, h | h⟩ | ⟨p, hp, h | h⟩ | ⟨p, -, h⟩)
    · obtain rfl : source = x := congrArg Gate.source h
      exact hx
    · obtain rfl : source = x := congrArg Gate.source h
      exact hx
    · have htarget : l = p.target := congrArg Gate.target h
      obtain ⟨-, hgh, hgo⟩ := hlegal.flows p hp
      rcases hl with rfl | rfl
      · exact absurd htarget.symm hgh
      · exact absurd htarget.symm hgo
    · cases congrArg Gate.mode h
    · cases congrArg Gate.mode h
  · intro hread
    rcases hl with rfl | rfl
    · exact .inl ⟨source, hread, .inl rfl⟩
    · exact .inl ⟨source, hread, .inr rfl⟩

theorem mem_gates_learn {p : Pathway} : Gate.learn p.target p.source ∈ defaultGates ++ a.gates ↔ p ∈ a.learns := by
  rw [List.mem_append, or_iff_right fun h => (of_mem_defaultGates h).2 rfl, mem_gates]
  constructor
  · rintro (⟨x, -, h | h⟩ | ⟨q, -, h | h⟩ | ⟨q, hq, h⟩)
    · cases congrArg Gate.mode h
    · cases congrArg Gate.mode h
    · cases congrArg Gate.mode h
    · cases congrArg Gate.mode h
    · have heq : p = q := congrArg (fun g : Gate => Pathway.mk g.target g.source) h
      exact heq ▸ hq
  · exact fun hp => .inr (.inr ⟨p, hp, rfl⟩)

end Transfer

/-! ## What carrying and teaching do -/

namespace Processor

variable {v : Processor} {learns : List Pathway} {p : Pathway} {e : Wiring} {a : Transfer}

theorem foldl_update_of_ne {l : LayerId} (value : Pathway → Option String) {flows : List Pathway}
    (h : ∀ p ∈ flows, p.target ≠ l) (f : LayerId → Option String) :
    flows.foldl (fun f p => Function.update f p.target (value p)) f l = f l := by
  induction flows generalizing f with
  | nil => rfl
  | cons q rest ih =>
    rw [List.foldl_cons, ih fun p hp => h p (List.mem_cons_of_mem _ hp)]
    exact Function.update_of_ne (h q List.mem_cons_self).symm ..

/-- A layer that nothing is carried into holds what it held. -/
theorem token_after_of_ne {l : LayerId} (h : ∀ p ∈ a.flows, p.target ≠ l) : (v.after e a).token l = v.token l :=
  foldl_update_of_ne (v.carry e) h v.token

/-- A layer that is carried into once holds what was carried. -/
theorem token_after_of_mem (honce : (a.flows.map (·.target)).Nodup) (hp : p ∈ a.flows) :
    (v.after e a).token p.target = v.carry e p := by
  have hfold (f : LayerId → Option String) :
      a.flows.foldl (fun f p => Function.update f p.target (v.carry e p)) f p.target = v.carry e p := by
    revert hp honce f
    generalize a.flows = flows
    intro honce hp
    induction flows with
    | nil => cases hp
    | cons q rest ih =>
      intro f
      obtain ⟨hfresh, hrest⟩ := List.nodup_cons.mp honce
      rw [List.foldl_cons]
      rcases List.mem_cons.mp hp with rfl | hmem
      · rw [foldl_update_of_ne (v.carry e) fun q hq heq => hfresh (List.mem_map.mpr ⟨q, hq, heq⟩)]
        exact Function.update_self ..
      · exact ih hrest hmem _
  exact hfold v.token

theorem write_self (f : String → Option String) (k : String) (value : Option String) : write f (some k) value k = value :=
  Function.update_self ..

theorem write_of_ne (f : String → Option String) {k t : String} (h : t ≠ k) (value : Option String) :
    write f (some k) value t = f t := Function.update_of_ne h ..

theorem write_write (f : String → Option String) (key value : Option String) :
    write (write f key value) key value = write f key value := by
  cases key with
  | none => rfl
  | some k => exact Function.update_idem ..

theorem link_teach (q : Pathway) : (v.teach q).link p =
    if p = q ∧ p ≠ ⟨co, ci⟩ then write (v.link p) (v.token p.source) (v.token p.target) else v.link p := by
  unfold teach
  split
  next hq =>
    rw [if_neg]
    rintro ⟨rfl, hp⟩
    exact hp hq
  next hq =>
    unfold enter
    by_cases hpq : p = q
    · subst hpq
      rw [if_pos ⟨rfl, hq⟩]
      exact Function.update_self ..
    · rw [if_neg fun h => hpq h.1]
      exact Function.update_of_ne hpq ..

theorem link_teachAll : (learns.foldl teach v).link p =
    if p ∈ learns ∧ p ≠ ⟨co, ci⟩ then write (v.link p) (v.token p.source) (v.token p.target) else v.link p := by
  induction learns generalizing v with
  | nil => rw [if_neg fun h => List.not_mem_nil h.1]; rfl
  | cons q rest ih =>
    rw [List.foldl_cons, ih, link_teach, token_teach]
    by_cases hp : p = ⟨co, ci⟩
    · rw [if_neg fun h => h.2 hp, if_neg fun h => h.2 hp, if_neg fun h => h.2 hp]
    -- writing the same association twice writes it once
    by_cases hq : p = q
    · rw [if_pos (⟨hq, hp⟩ : p = q ∧ _), if_pos (⟨hq ▸ List.mem_cons_self, hp⟩ : p ∈ q :: rest ∧ _), write_write, ite_self]
    · simp only [List.mem_cons, hq, false_or, false_and, if_false]

theorem against_teachAll : (learns.foldl teach v).against = if ⟨co, ci⟩ ∈ learns then v.token ci else v.against := by
  induction learns generalizing v with
  | nil => rfl
  | cons q rest ih =>
    rw [List.foldl_cons, ih, token_teach]
    unfold teach
    by_cases hq : q = ⟨co, ci⟩
    · simp [hq]
    · have hne : ¬ (⟨co, ci⟩ : Pathway) = q := fun h => hq h.symm
      simp [hq, hne, enter]

end Processor

/-! ## One tick -/

/-- What stays as it is while a machine ticks: the layers and gates of the recorded automaton, the
names of its states, the tokens, and the wiring. -/
structure Setting (s : Sequencer α) (session : Session α) (slots : Nat) (e : Wiring) : Prop where
  keeps : s.network.Keeps (fun l _ => l ≠ ip) session.network
  states : (session.network.layer gh).book.history = (s.network.layer gh).book.history
  numbered : session.network.Numbered
  flows : session.network.flows.Nodup
  gates : session.network.size go = session.network.gates.size
  levels : ∀ bit, (session.network.activator go).isOn ((session.network.activator go).level bit) = bit
  legible : session.network.Legible
  answers : ∀ t ∈ [trueToken, falseToken], ∃ y, (session.network.layer co).pattern? t = some y
  wired : e.Wired session slots

namespace Machine

/-- The machine is in a state that opens a transfer, and shows a processor. -/
structure At (m : Machine α) (log : Log α) (state : ControlState α) (a : Transfer) (v : Processor) : Prop where
  hidden : m.active gh = state.hidden
  gates : m.active go = state.gates
  opens : m.network.Opens state.gates a.gates
  shows : m.Shows log v

variable {s : Sequencer α} {m : Machine α} {log : Log α} {state next : ControlState α} {a b : Transfer} {v : Processor}
  {e : Wiring} {slots : Nat}

theorem At.mem_openGates (h : m.At log state a v) (hset : Setting s m.session slots e) {g : Gate} :
    g ∈ m.openGates ↔ g ∈ defaultGates ++ a.gates := by
  unfold openGates
  rw [h.gates]
  exact Network.mem_openGates_iff hset.gates (hset.levels true) (hset.levels false) h.opens

/-- A layer that nothing is carried into holds what it holds. -/
theorem At.active_held (h : m.At log state a v) (hset : Setting s m.session slots e) (hideal : m.Ideal s log) {l : LayerId}
    (hl : l ≠ gh ∧ l ≠ go) (hnone : ∀ p ∈ a.flows, p.target ≠ l) (hposition : l.position < m.network.layers.size)
    {t : String} (ht : (m.network.layer l).pattern? t = some (m.active l)) : m.tick.value.active l = m.active l := by
  have hclosed : m.Closed l := by
    constructor
    · intro source hopen
      exact hnone ⟨l, source⟩ ((Transfer.mem_gates_copy hl).mp ((h.mem_openGates hset).mp hopen)) rfl
    · intro hopen
      obtain ⟨p, hp, htarget⟩ := (Transfer.mem_gates_decay hl).mp ((h.mem_openGates hset).mp hopen)
      exact hnone p hp htarget
  rw [active_tick_closed hposition hclosed]
  exact hideal.held l hl.1 t _ ht

/-- What is carried into a layer replaces what it held. -/
theorem At.active_moved (h : m.At log state a v) (hset : Setting s m.session slots e)
    (hlegal : a.Legal m.network.registers) {p : Pathway} (hp : p ∈ a.flows) :
    m.tick.value.active p.target = m.arriving p.target [p.source] := by
  obtain ⟨hflow, hcontrol⟩ := hlegal.flows p hp
  have hdecay : Gate.decay p.target ∈ m.openGates := (h.mem_openGates hset).mpr ((Transfer.mem_gates_decay hcontrol).mpr ⟨p, hp, rfl⟩)
  have hcarried : m.network.flows.filter (fun q => q.target == p.target && m.openGates.contains (.copy q.target q.source)) = [p] := by
    have honly : ∀ q ∈ m.network.flows, (q.target == p.target && m.openGates.contains (.copy q.target q.source)) = (q == p) := by
      intro q _
      rw [Bool.eq_iff_iff, Bool.and_eq_true, beq_iff_eq, beq_iff_eq, List.contains_iff_mem, h.mem_openGates hset]
      constructor
      · rintro ⟨htarget, hopen⟩
        have hq : q ∈ a.flows := (Transfer.mem_gates_copy (htarget ▸ hcontrol)).mp hopen
        exact List.inj_on_of_nodup_map hlegal.once hq hp htarget
      · rintro rfl
        exact ⟨rfl, (Transfer.mem_gates_copy hcontrol).mpr hp⟩
    have hcount : m.network.flows.count p = 1 := List.count_eq_one_of_mem hset.flows hflow
    rw [List.filter_congr honly, List.filter_beq, hcount]
    rfl
  rw [active_tick (hset.numbered.ends_of_flow hflow).2, next]
  unfold input arriving summed
  dsimp only
  rw [hcarried, if_pos (List.contains_iff_mem.mpr hdecay)]
  rfl

/-- What a pathway leads to by the processor, it is associated with in the machine. -/
theorem Shows.associated (h : m.Shows log v) (hset : Setting s m.session slots e) {p : Pathway} {t : String}
    (ht : v.carry e p = some t) :
    ∃ y, (m.network.layer p.target).pattern? t = some y ∧ Associated m.session slots log p (m.active p.source) y := by
  unfold Processor.carry at ht
  cases hp : e p with
  | some f =>
    rw [hp] at ht
    obtain ⟨t', ht', hf⟩ := Option.bind_eq_some_iff.mp ht
    obtain ⟨y, hy, hassociated⟩ := hset.wired.leads p f hp t' t _ hf (h.token _ _ ht')
    exact ⟨y, hy, hassociated log⟩
  | none =>
    rw [hp] at ht
    dsimp only at ht
    split at ht
    next hcompare =>
      subst hcompare
      obtain ⟨first, hfirst, hrest⟩ := Option.bind_eq_some_iff.mp ht
      obtain ⟨second, hsecond, houtcome⟩ := Option.bind_eq_some_iff.mp hrest
      obtain ⟨x, value, hx, hwritten⟩ := h.against _ hfirst
      have hactive := h.token _ _ hsecond
      have htoken : t = if first = second then trueToken else falseToken := (Option.some.inj houtcome).symm
      obtain ⟨y, hy⟩ : ∃ y, (m.network.layer co).pattern? t = some y := hset.answers t (by rw [htoken]; split <;> simp)
      refine ⟨y, hy, ?_⟩
      by_cases heq : first = second
      · rw [htoken, if_pos heq] at hy
        rw [heq] at hx
        obtain rfl := Option.some.inj (hx.symm.trans hactive)
        exact .equal hwritten hy
      · rw [htoken, if_neg heq] at hy
        refine .different hactive (fun entry hentry hsame => heq ?_) hy
        obtain rfl := Option.some.inj (hwritten.symm.trans hentry)
        rw [← hset.legible ci (by decide) (by decide) _ _ hx, ← hset.legible ci (by decide) (by decide) _ _ hactive]
        exact congrArg (m.network.layer ci).decode hsame
    next hne =>
      obtain ⟨t', ht', hlink⟩ := Option.bind_eq_some_iff.mp ht
      obtain ⟨x, y, hx, hy, hwritten⟩ := h.link p hne _ _ hlink
      obtain rfl := Option.some.inj (hx.symm.trans (h.token _ _ ht'))
      exact ⟨y, hy, .written (hset.wired.plastic p hp) hne hwritten⟩

/-- The tokens that the layers hold after a tick. -/
theorem At.token (h : m.At log state a v) (hset : Setting s m.session m.config.pointerSlots e) (hideal : m.Ideal s log)
    (hlegal : a.Legal m.network.registers) {l : LayerId} {t : String} (ht : (v.after e a).token l = some t) :
    (m.network.layer l).pattern? t = some (m.tick.value.active l) := by
  by_cases hmoved : ∃ p ∈ a.flows, p.target = l
  · obtain ⟨p, hp, rfl⟩ := hmoved
    obtain ⟨hflow, hcontrol⟩ := hlegal.flows p hp
    rw [Processor.token_after_of_mem hlegal.once hp] at ht
    obtain ⟨y, hy, hassociated⟩ := h.shows.associated hset ht
    have hopen : Gate.copy p.target p.source ∈ m.openGates :=
      (h.mem_openGates hset).mpr ((Transfer.mem_gates_copy hcontrol).mpr hp)
    rw [h.active_moved hset hlegal hp, hideal.data p hflow (not_or.mpr hcontrol) hopen y hassociated]
    exact hy
  · have hnone : ∀ p ∈ a.flows, p.target ≠ l := fun p hp heq => hmoved ⟨p, hp, heq⟩
    rw [Processor.token_after_of_ne hnone] at ht
    have hl : l ≠ gh ∧ l ≠ go := by
      refine not_or.mp fun hcontrol => ?_
      rw [h.shows.control l hcontrol] at ht
      cases ht
    have hpattern := h.shows.token l t ht
    have hposition : l.position < m.network.layers.size := m.network.position_lt_of_pattern? hpattern
    rw [h.active_held hset hideal hl hnone hposition hpattern]
    exact hpattern

/-- What a tick writes, the log leads to. -/
theorem At.link [SameLaws α] (h : m.At log state a v) (hset : Setting s m.session slots e)
    (hexact : ∀ x y : α, Scalar.same x y = true → x = y) (hlegal : a.Legal m.network.registers) {p : Pathway}
    (hne : p ≠ ⟨co, ci⟩) {t t' : String} (ht : (v.after e a).link p t = some t') :
    ∃ x y, (m.network.layer p.source).pattern? t = some x ∧ (m.network.layer p.target).pattern? t' = some y ∧
      Pairs.targetIn (m.logged log p) x = some y := by
  have ht : (a.learns.foldl Processor.teach v).link p t = some t' := ht
  rw [Processor.link_teachAll] at ht
  have hopen : Gate.learn p.target p.source ∈ m.openGates ↔ p ∈ a.learns :=
    (h.mem_openGates hset).trans Transfer.mem_gates_learn
  by_cases hp : p ∈ a.learns
  · rw [if_pos ⟨hp, hne⟩] at ht
    have hplastic := hlegal.learns p hp
    have hlogged : m.logged log p = (m.active p.source, m.active p.target) :: log p := if_pos ⟨hplastic, hopen.mpr hp⟩
    rw [hlogged]
    cases hkey : v.token p.source with
    | none =>
      rw [hkey] at ht
      cases ht
    | some k =>
      rw [hkey] at ht
      have hsource := h.shows.token _ _ hkey
      by_cases htk : t = k
      · subst htk
        have ht' : v.token p.target = some t' := (Processor.write_self ..).symm.trans ht
        refine ⟨_, _, hsource, h.shows.token _ _ ht', ?_⟩
        rw [Pairs.targetIn_cons, if_pos (Pairs.samePattern_refl _)]
      · obtain ⟨x, y, hx, hy, hwritten⟩ := h.shows.link p hne t t' ((Processor.write_of_ne _ htk _).symm.trans ht)
        refine ⟨x, y, hx, hy, ?_⟩
        -- another key has another pattern
        have hother : ¬ Pairs.samePattern (m.active p.source) x = true := by
          intro hsame
          obtain ⟨hip, hgh⟩ := hset.numbered.source_of_plastic hplastic
          have hpatterns := Pairs.eq_of_samePattern hexact hsame
          refine htk ?_
          rw [← hset.legible p.source hip hgh _ _ hx, ← hset.legible p.source hip hgh _ _ hsource]
          exact congrArg (m.network.layer p.source).decode hpatterns.symm
        rw [Pairs.targetIn_cons, if_neg hother]
        exact hwritten
  · rw [if_neg fun hlearns => hp hlearns.1] at ht
    have hlogged : m.logged log p = log p := if_neg fun hlearns => hp (hopen.mp hlearns.2)
    rw [hlogged]
    exact h.shows.link p hne t t' ht

/-- What was compared with last, the log has last. -/
theorem At.against (h : m.At log state a v) (hset : Setting s m.session slots e) (hlegal : a.Legal m.network.registers)
    {t : String} (ht : (v.after e a).against = some t) : ∃ x value, (m.network.layer ci).pattern? t = some x ∧
      (m.logged log ⟨co, ci⟩).head? = some (x, value) := by
  have ht : (a.learns.foldl Processor.teach v).against = some t := ht
  rw [Processor.against_teachAll] at ht
  have hopen : Gate.learn co ci ∈ m.openGates ↔ ⟨co, ci⟩ ∈ a.learns :=
    (h.mem_openGates hset).trans (Transfer.mem_gates_learn (p := ⟨co, ci⟩))
  by_cases hp : ⟨co, ci⟩ ∈ a.learns
  · rw [if_pos hp] at ht
    have hlogged : m.logged log ⟨co, ci⟩ = (m.active ci, m.active co) :: log ⟨co, ci⟩ :=
      if_pos ⟨hlegal.learns _ hp, hopen.mpr hp⟩
    rw [hlogged]
    exact ⟨_, _, h.shows.token _ _ ht, rfl⟩
  · rw [if_neg hp] at ht
    have hlogged : m.logged log ⟨co, ci⟩ = log ⟨co, ci⟩ := if_neg fun hlearns => hp (hopen.mp hlearns.2)
    rw [hlogged]
    exact h.shows.against t ht

/-- The control layers read what the state is keyed on, together with the hidden layer. -/
theorem At.active_control (h : m.At log state a v) (hset : Setting s m.session slots e) (hlegal : a.Legal m.network.registers)
    {condition : Option Condition} (hreads : (condition.map (·.layer)).toList = a.reads)
    (hlayers : ∀ c ∈ condition, c.layer ∈ conditions) {l : LayerId} (hl : l = gh ∨ l = go) :
    m.tick.value.active l = m.arriving l (gh :: (condition.map (·.layer)).toList) := by
  have hself : Gate.decay l ∈ defaultGates ∧ Gate.copy l gh ∈ defaultGates := by
    rcases hl with rfl | rfl <;> decide
  have hopen {g : Gate} (hg : g ∈ defaultGates) : g ∈ m.openGates := (h.mem_openGates hset).mpr (List.mem_append_left _ hg)
  have hposition : l.position < m.network.layers.size := by
    refine Nat.lt_of_lt_of_le ?_ hset.numbered.control
    rcases hl with rfl | rfl <;> decide
  have hread : ∀ source ∈ conditions, m.openGates.contains (.copy l source) = true ↔ ∃ c ∈ condition, c.layer = source := by
    intro source hsource
    rw [List.contains_iff_mem, h.mem_openGates hset, Transfer.mem_gates_read hlegal hl hsource, ← hreads]
    simp [eq_comm]
  rw [active_tick hposition, Machine.next, input_control hset.numbered hl (hopen hself.1), List.filter_cons,
    if_pos (List.contains_iff_mem.mpr (hopen hself.2)), filter_conditions hlayers hread]
  rfl

/-- A tick comes to the next state of the walk, and shows the processor after the transfer. -/
theorem At.tick [SameLaws α] (h : m.At log state a v) (hset : Setting s m.session m.config.pointerSlots e)
    (hexact : ∀ x y : α, Scalar.same x y = true → x = y) (hideal : m.Ideal s log) {condition : Option Condition}
    {alternatives : List (Option Condition)} (hstep : s.Takes state ⟨condition, alternatives, b.gates⟩ next)
    (hlegal : a.Legal m.network.registers) (hreads : (condition.map (·.layer)).toList = a.reads)
    (hholds : ∀ c ∈ condition, v.token c.layer = some c.token) : m.tick.value.At (m.logged log) next b (v.after e a) := by
  obtain ⟨hhidden, hgates⟩ := hideal.control state condition next hstep.leads
    ⟨h.hidden, h.gates, fun c hc => h.shows.token _ _ (hholds c hc)⟩
  have hlayers : ∀ c ∈ condition, c.layer ∈ conditions := by
    obtain ⟨t, -, -, -, hjoint⟩ := hstep.leads
    intro c hc
    rw [Option.mem_def.mp hc] at hjoint
    exact hjoint.1
  refine ⟨?_, ?_, hstep.opens.keeps hset.keeps, ?_⟩
  · rw [h.active_control hset hlegal hreads hlayers (.inl rfl)]
    exact hhidden
  · rw [h.active_control hset hlegal hreads hlayers (.inr rfl)]
    exact hgates
  · refine ⟨fun l t ht => h.token hset hideal hlegal ht, fun l hl => ?_, fun p hne t t' ht => h.link hset hexact hlegal hne ht,
      fun t ht => h.against hset hlegal ht⟩
    have hnone : ∀ p ∈ a.flows, p.target ≠ l := by
      rintro p hp rfl
      exact hl.elim (hlegal.flows p hp).2.1 (hlegal.flows p hp).2.2
    rw [Processor.token_after_of_ne hnone]
    exact h.shows.control l hl

/-- A machine recalls ideally if it does so on what its state opens. -/
theorem At.ideal (h : m.At log state a v) (hset : Setting s m.session m.config.pointerSlots e) {start : ControlState α}
    (htraced : s.Traced start) {step : ControlStep} (hstep : s.Takes state step next)
    (honly : ∀ c ∈ step.alternatives, c = step.condition ∨ ∃ d ∈ c, ∃ t ≠ d.token, v.token d.layer = some t)
    (hhidden : m.arriving gh (gh :: (step.condition.map (·.layer)).toList) = next.hidden)
    (hgates : m.arriving go (gh :: (step.condition.map (·.layer)).toList) = next.gates)
    (hdata : ∀ p ∈ a.flows, ∀ y, Associated m.session m.config.pointerSlots log p (m.active p.source) y →
      m.arriving p.target [p.source] = y)
    (hheld : ∀ l, l ≠ gh → ∀ t p, (m.network.layer l).pattern? t = some p → p.map (m.network.activator l).hold = p) :
    m.Ideal s log := by
  refine ⟨fun old condition other hleads hholds => ?_, fun p _ hcontrols hopen y hy => ?_, hheld⟩
  · obtain rfl : old = state := by
      cases old
      cases state
      exact congr (congrArg ControlState.mk (hholds.gates.symm.trans h.gates)) (hholds.hidden.symm.trans h.hidden)
    obtain ⟨t, ht, hkey, -, hjoint⟩ := id hleads
    obtain ⟨c, hc, hsame⟩ := hstep.only t ht (congrArg TransitKey.hidden hkey)
    obtain rfl : c = condition := congrArg TransitKey.condition (hsame.symm.trans hkey)
    rcases honly c hc with rfl | ⟨d, hd, token, hne, htoken⟩
    · rw [hleads.unique htraced hstep.leads]
      exact ⟨hhidden, hgates⟩
    · -- the layer of the condition holds another token
      rw [Option.mem_def.mp hd] at hjoint
      have hlayers : ∀ l ∈ conditions, l ≠ ip ∧ l ≠ gh := by decide
      obtain ⟨hip, hgh⟩ := hlayers _ hjoint.1
      refine absurd ?_ hne
      rw [← hset.legible d.layer hip hgh _ _ (h.shows.token _ _ htoken)]
      exact hset.legible d.layer hip hgh _ _ (hholds.token d hd)
  · have hflow : p ∈ a.flows := (Transfer.mem_gates_copy (not_or.mp hcontrols)).mp ((h.mem_openGates hset).mp hopen)
    exact hdata p hflow y hy

/-- A state that teaches nothing leaves the weights. -/
theorem At.weights_tick (h : m.At log state a v) (hset : Setting s m.session slots e) (hlearns : a.learns = []) :
    m.tick.value.weights = m.weights := by
  have hnone : m.network.plastic.filter (fun p => m.openGates.contains (.learn p.target p.source)) = [] := by
    refine List.filter_eq_nil_iff.mpr fun p _ hp => ?_
    rw [List.contains_iff_mem, h.mem_openGates hset, Transfer.mem_gates_learn, hlearns] at hp
    cases hp
  have hweights : m.tick.value.weights = (m.learned m.openGates).value := rfl
  rw [hweights, learned, hnone]
  rfl

end Machine

end Engram
