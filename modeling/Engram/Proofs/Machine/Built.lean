/-
  Engram.Proofs.Machine.Built — the parts of a machine that was built.

  A machine is built in four steps: its network, the slots of its pointers, its automaton, and the
  rules of its plastic pathways. Each step only adds tokens to the code books of the one before.
  What is learned at run time, and what the pointers have learned, leads into data layers; so the
  machine starts out with the connections of its automaton into the control layers, and nothing
  writes these again (`BuiltFrom.fenced`, `BuiltFrom.weight`).
-/

import Engram.Proofs.Control.Compiled
import Engram.Proofs.Control.Governing
import Engram.Proofs.Data.Slots
import Engram.Proofs.Machine.Later
import Engram.Proofs.Network.Capacity

namespace Engram

open LayerId

variable {α : Type} [Scalar α]

namespace Network

/-- The tokens of the comparison output get patterns, and only plastic pathways get rules. -/
theorem grows_plasticity (n : Network α) : n.Grows n.plasticity.2 :=
  (n.grows_encode co trueToken).trans (Network.grows_encode _ co falseToken)

/-- How a plastic pathway is written, given the patterns of the two tokens of the comparison output. -/
def plasticRule (on off : Pattern α) (p : Pathway) : Plasticity α := if p = ⟨co, ci⟩ then .dipole on off else .store

/-- The plastic pathways are those with a rule. -/
theorem getElem?_plasticity_eq (n : Network α) (p : Pathway) : n.plasticity.1[p]? = if p ∈ n.plastic then
    some (plasticRule (n.encode co trueToken).1 ((n.encode co trueToken).2.encode co falseToken).1 p) else none := by
  have hfold := Pathway.getElem?_foldl_insert_apply
    (plasticRule (n.encode co trueToken).1 ((n.encode co trueToken).2.encode co falseToken).1) n.plastic {} p
  rw [Std.TreeMap.getElem?_emptyc] at hfold
  exact hfold

theorem getElem?_plasticity {n : Network α} {p : Pathway} (h : p ∉ n.plastic) : n.plasticity.1[p]? = none := by
  rw [getElem?_plasticity_eq, if_neg h]

end Network

/-- Recording only gives patterns to states, and to tokens of other layers that had none; and the
state that it starts from is like those that the routines make. -/
theorem Sequencer.governs_of_records {n : Network α} (hsound : n.Sound) (hgo : n.size go = n.gates.size) (hn : n.Numbered)
    {start : ControlState α} {s : Sequencer α}
    (h : (recordInstructions n.namedRegisters).run.run (Sequencer.new n) = (.ok start, s)) : Governs n s ∧ Fit n start := by
  have hregisters : n.namedRegisters.map (·.1) = n.registers := by
    unfold Network.namedRegisters
    rw [List.map_map]
    exact List.map_id' _
  have hsecures := secures_instructions n n.namedRegisters
    (by rw [hregisters]; exact fun hr => (hn.ne_control hr).1 rfl)
    (by rw [hregisters]; exact fun hr => (hn.ne_control hr).2 rfl)
  obtain ⟨hgoverns, hstart⟩ := hsecures (Sequencer.new n) (governs_new hsound hgo hn)
  rw [h] at hgoverns hstart
  exact ⟨hgoverns, hstart start rfl⟩

namespace Network.Keeps

variable {keep : LayerId → String → Prop} {n later : Network α}

theorem unit (h : n.Keeps keep later) : later.unit = n.unit := by
  have hname : later.name = n.name := funext h.name
  funext g
  unfold Network.unit Network.gateName
  rw [h.gates, hname]

theorem neededGates (h : n.Keeps keep later) : Machine.neededGates later = Machine.neededGates n := by
  unfold Machine.neededGates Network.flows Network.plastic Network.layerIds
  rw [h.registers, h.count]

end Network.Keeps

namespace Machine

omit [Scalar α] in
theorem ok_of_bind {β γ : Type} {x : ExceptT (Fault α) Noted β} {f : β → ExceptT (Fault α) Noted γ} {c : γ}
    (h : (x >>= f).run.value = .ok c) : ∃ b, x.run.value = .ok b ∧ (f b).run.value = .ok c := by
  have hbind : (x >>= f).run.value = (ExceptT.bindCont f x.run.value).value := rfl
  rw [hbind] at h
  cases hx : x.run.value with
  | error e =>
    rw [hx] at h
    cases h
  | ok b =>
    rw [hx] at h
    exact ⟨b, rfl, h⟩

/-- The parts that a machine was built from: the network of the configuration, the network with
the slots of the pointers, and the recorded automaton. -/
structure BuiltFrom (c : Config α) (m : Machine α) (bare n : Network α) (s : Sequencer α) : Prop where
  network : (Network.build c).value = .ok bare
  pointers : ∃ weights errors, (Pointer.flash bare c.pointerSlots).value = (.ok (weights, errors), n) ∧
    m.weights = s.network.plasticity.2.resetPlastic m.plasticity (weights.extend m.automaton.weights)
  automaton : (n.compile false).value = (.ok m.automaton, s.network)
  records : (recordInstructions n.namedRegisters).run.run (Sequencer.new n) = (.ok m.automaton.start, s)
  session : m.session = .new s.network.plasticity.2
  plasticity : m.plasticity = s.network.plasticity.1

omit [Scalar α] in
theorem run_bind_of_ok {β γ : Type} {x : ExceptT (Fault α) Noted β} {f : β → ExceptT (Fault α) Noted γ} {b : β}
    (h : x.run.value = .ok b) : (x >>= f).run.value = (f b).run.value := by
  have hbind : (x >>= f).run.value = (ExceptT.bindCont f x.run.value).value := rfl
  rw [hbind, h]
  rfl

omit [Scalar α] in
theorem run_bind_of_error {β γ : Type} {x : ExceptT (Fault α) Noted β} {f : β → ExceptT (Fault α) Noted γ} {e : Fault α}
    (h : x.run.value = .error e) : (x >>= f).run.value = .error e := by
  have hbind : (x >>= f).run.value = (ExceptT.bindCont f x.run.value).value := rfl
  rw [hbind, h]
  rfl

omit [Scalar α] in
theorem value_of_kept {β σ : Type} {x : Noted (Except (Fault α) β × σ)} {b : β} {t : σ}
    (h : (do let (r, t) ← x; return r.map (·, t) : Noted (Except (Fault α) (β × σ))).value = .ok (b, t)) :
    x.value = (.ok b, t) := by
  rw [Noted.value_bind] at h
  rcases hx : x.value with ⟨e | v, u⟩
  · rw [hx] at h
    cases h
  · rw [hx] at h
    cases h
    rfl

omit [Scalar α] in
theorem run_of_kept {β σ : Type} {x : Noted (Except (Fault α) β × σ)} {b : β} {t : σ} (h : x.value = (.ok b, t)) :
    (ExceptT.mk do let (r, t) ← x; return r.map (·, t) : ExceptT (Fault α) Noted (β × σ)).run.value = .ok (b, t) := by
  have hvalue : (do let (r, t) ← x; return r.map (·, t) : Noted (Except (Fault α) (β × σ))).value = .ok (b, t) := by
    rw [Noted.value_bind, h]
    rfl
  exact hvalue

omit [Scalar α] in
theorem run_of_lost {β σ : Type} {x : Noted (Except (Fault α) β × σ)} {e : Fault α} {t : σ} (h : x.value = (.error e, t)) :
    (ExceptT.mk do let (r, t) ← x; return r.map (·, t) : ExceptT (Fault α) Noted (β × σ)).run.value = .error e := by
  have hvalue : (do let (r, t) ← x; return r.map (·, t) : Noted (Except (Fault α) (β × σ))).value = .error e := by
    rw [Noted.value_bind, h]
    rfl
  exact hvalue

theorem exists_builtFrom {c : Config α} {m : Machine α} (h : (build c).value = .ok m) :
    (∃ bare n s, m.BuiltFrom c bare n s) ∧ m.config = c ∧ m.activity = blank m.network ∧
      ∃ units, (neededGates m.network).mapM m.network.unit = .ok units := by
  obtain ⟨bare, hbare, h⟩ := ok_of_bind h
  obtain ⟨⟨⟨weights, errors⟩, n⟩, hpointers, h⟩ := ok_of_bind h
  obtain ⟨⟨a, later⟩, hcompile, h⟩ := ok_of_bind h
  have hcompile : (n.compile false).value = (.ok a, later) := value_of_kept hcompile
  obtain ⟨s, hdoes, rfl, -, -⟩ := Network.does_of_compile hcompile
  have hm : ∃ ticks errors, m = ⟨c, .new s.network.plasticity.2,
      s.network.plasticity.2.resetPlastic s.network.plasticity.1 (weights.extend a.weights),
      s.network.plasticity.1, blank s.network.plasticity.2, a, errors, ticks⟩ ∧
      ∃ units, (neededGates s.network.plasticity.2).mapM s.network.plasticity.2.unit = .ok units := by
    dsimp only at h
    split at h
    · obtain ⟨_, -, h⟩ := ok_of_bind h
      obtain ⟨_, -, h⟩ := ok_of_bind h
      obtain ⟨units, hunits, h⟩ := ok_of_bind h
      cases h
      exact ⟨_, _, rfl, units, hunits⟩
    · obtain ⟨_, -, h⟩ := ok_of_bind h
      obtain ⟨units, hunits, h⟩ := ok_of_bind h
      cases h
      exact ⟨_, _, rfl, units, hunits⟩
  obtain ⟨ticks, errors', rfl, hunits⟩ := hm
  exact ⟨⟨bare, n, s, hbare, ⟨weights, errors, value_of_kept hpointers, rfl⟩, hcompile, hdoes, rfl, rfl⟩, rfl, rfl, hunits⟩

theorem builtFrom_of_build {c : Config α} {m : Machine α} (h : (build c).value = .ok m) :
    ∃ bare n s, m.BuiltFrom c bare n s := (exists_builtFrom h).1

theorem config_of_build {c : Config α} {m : Machine α} (h : (build c).value = .ok m) : m.config = c := (exists_builtFrom h).2.1

/-- Every layer of a machine that was built is at rest. -/
theorem activity_of_build {c : Config α} {m : Machine α} (h : (build c).value = .ok m) : m.activity = blank m.network :=
  (exists_builtFrom h).2.2.1

/-- A machine is built when each of its parts is, and knows the gates it looks at. -/
theorem exists_build {c : Config α} {bare n later : Network α} {pointers : Weights α × Nat} {a : Automaton α}
    {units : List Nat} {keep : LayerId → String → Prop} (hbare : (Network.build c).value = .ok bare)
    (hpointers : (Pointer.flash bare c.pointerSlots).value = (.ok pointers, n))
    (hcompile : (n.compile false).value = (.ok a, later)) (hkeeps : bare.Keeps keep later)
    (hunits : (neededGates bare).mapM bare.unit = .ok units) : ∃ m, (build c).value = .ok m := by
  have hunits : (neededGates later.plasticity.2).mapM later.plasticity.2.unit = .ok units := by
    rw [later.grows_plasticity.neededGates, later.grows_plasticity.unit, hkeeps.neededGates, hkeeps.unit, hunits]
  have h₁ : (ExceptT.mk (Network.build c)).run.value = .ok bare := hbare
  have h₂ := run_of_kept hpointers
  have h₃ := run_of_kept hcompile
  have h₄ : (liftM ((neededGates later.plasticity.2).mapM later.plasticity.2.unit) :
      ExceptT (Fault α) Noted (List Nat)).run.value = .ok units := by
    rw [hunits]
    rfl
  unfold build
  rw [run_bind_of_ok h₁, run_bind_of_ok h₂]
  dsimp only
  rw [run_bind_of_ok h₃]
  dsimp only
  split
  · rw [run_bind_of_ok (b := ()) rfl, run_bind_of_ok (b := ()) rfl, run_bind_of_ok h₄]
    exact ⟨_, rfl⟩
  · rw [run_bind_of_ok (b := ()) rfl, run_bind_of_ok h₄]
    exact ⟨_, rfl⟩

namespace BuiltFrom

variable {c : Config α} {m : Machine α} {bare n : Network α} {s : Sequencer α}

theorem slots (h : m.BuiltFrom c bare n s) :
    n = (Pointer.encodeSlots ((List.range c.pointerSlots).map Pointer.slotToken) bare Pointer.layers).2 := by
  obtain ⟨weights, errors, hflash, -⟩ := h.pointers
  rw [← Pointer.network_flash, hflash]

/-- What a machine was built from is determined. -/
theorem unique {bare' n' : Network α} {s' : Sequencer α} (h : m.BuiltFrom c bare n s) (h' : m.BuiltFrom c bare' n' s') :
    bare = bare' ∧ n = n' ∧ s = s' := by
  obtain rfl : bare = bare' := Except.ok.inj (h.network.symm.trans h'.network)
  obtain rfl : n = n' := h.slots.trans h'.slots.symm
  exact ⟨rfl, rfl, (Prod.mk.inj (h.records.symm.trans h'.records)).2⟩

theorem grows (h : m.BuiltFrom c bare n s) : bare.Grows n := by
  rw [h.slots]
  exact Pointer.grows_encodeSlots _ _ _

theorem sound (h : m.BuiltFrom c bare n s) : n.Sound := by
  rw [h.slots]
  exact Pointer.sound_encodeSlots _ (Network.builtFrom_of_build h.network).sound _

theorem numbered (h : m.BuiltFrom c bare n s) : n.Numbered :=
  h.grows.numbered (Network.builtFrom_of_build h.network).numbered

theorem size_go (h : m.BuiltFrom c bare n s) : n.size go = n.gates.size := by
  rw [h.grows.size, h.grows.gates]
  exact (Network.builtFrom_of_build h.network).size_go

theorem records_fit (h : m.BuiltFrom c bare n s) : Sequencer.Governs n s ∧ Sequencer.Fit n m.automaton.start :=
  Sequencer.governs_of_records h.sound h.size_go h.numbered h.records

theorem governs (h : m.BuiltFrom c bare n s) : Sequencer.Governs n s := h.records_fit.1

/-- What came after recording only added tokens. -/
theorem grows_network (h : m.BuiltFrom c bare n s) : s.network.Grows m.network := by
  unfold Machine.network
  rw [h.session]
  exact s.network.grows_plasticity

/-- The machine has the layers of the network that it was built on. -/
theorem keeps_bare (h : m.BuiltFrom c bare n s) : bare.Keeps (fun _ _ => False) m.network :=
  ((h.grows.mono fun _ _ _ => trivial).trans (h.governs.keeps.mono fun _ _ hf => hf.elim)).trans
    (h.grows_network.mono fun _ _ _ => trivial)

/-- Nothing has been encoded on the instruction pointer. -/
theorem layer_ip (h : m.BuiltFrom c bare n s) : m.network.layer ip = bare.layer ip := by
  have hplastic : m.network.layer ip = s.network.layer ip := by
    unfold Machine.network
    rw [h.session]
    exact (Network.layer_encode_of_ne _ (by decide) _).trans (Network.layer_encode_of_ne _ (by decide) _)
  rw [hplastic, h.governs.others ip (by decide) (by decide), h.slots]
  exact Pointer.layer_encodeSlots_of_not_mem _ _ (by decide)

/-- Nothing writes the control layers of a machine that was built. -/
theorem fenced (h : m.BuiltFrom c bare n s) : m.Fenced := by
  refine ⟨h.grows_network.numbered h.governs.numbered, fun p _ => ?_, fun p hp => ?_⟩
  · rw [h.session]
    exact Std.TreeMap.getElem?_emptyc
  · rw [h.plasticity]
    exact Network.getElem?_plasticity fun hplastic => h.governs.numbered.not_controls_plastic hplastic hp

theorem flashed (h : m.BuiltFrom c bare n s) : m.automaton = ⟨(s.flash false).value.weights,
    (s.flash false).value.errors, (s.flash false).value.transits, m.automaton.start⟩ :=
  Except.ok.inj (Prod.mk.inj (h.automaton.symm.trans (Network.value_compile h.records false))).1

/-- The machine has every block of both joint connections. -/
theorem weight (h : m.BuiltFrom c bare n s) {p : Pathway} {b : Connection α}
    (hmem : (p, b) ∈ Sequencer.split s.network gh s.recurrent.connection ++
      Sequencer.split s.network go s.readout.connection) : m.weights[p]? = some b := by
  have hcontrols : p.Controls := by
    have hkeys : p ∈ (gh :: conditions).map (Pathway.mk gh) ++ (gh :: conditions).map (Pathway.mk go) :=
      List.mem_map_of_mem (f := (·.1)) hmem
    rcases List.mem_append.mp hkeys with hp | hp <;> obtain ⟨l, -, rfl⟩ := List.mem_map.mp hp
    · exact .inl rfl
    · exact .inr rfl
  obtain ⟨weights, errors, -, hweights⟩ := h.pointers
  rw [hweights, Network.getElem?_resetPlastic _ (h.fenced.plasticity p hcontrols), h.flashed]
  exact Weights.getElem?_extend_of_some weights (Sequencer.getElem?_flash s false hmem)

/-- The control errors are those of both joint connections. -/
theorem errors (h : m.BuiltFrom c bare n s) : m.automaton.errors = s.recurrent.errors + s.readout.errors := by
  rw [h.flashed, ← Sequencer.errors_flash s false]

theorem sound_network (h : m.BuiltFrom c bare n s) : m.network.Sound := by
  unfold Machine.network
  rw [h.session]
  exact (h.governs.sound.encode co trueToken).encode co falseToken

theorem numbered_network (h : m.BuiltFrom c bare n s) : m.network.Numbered := h.grows_network.numbered h.governs.numbered

theorem layer_hidden (h : m.BuiltFrom c bare n s) : m.network.layer gh = s.network.layer gh := by
  unfold Machine.network
  rw [h.session]
  exact (Network.layer_encode_of_ne _ (by decide) _).trans (Network.layer_encode_of_ne _ (by decide) _)

/-- Both answers of a comparison have patterns. -/
theorem knows_answers (h : m.BuiltFrom c bare n s) : ∀ t ∈ [trueToken, falseToken], (m.network.layer co).knows t = true := by
  have hposition : co.position < s.network.layers.size := Nat.lt_of_lt_of_le (by decide) h.governs.numbered.control
  have htrue := s.network.pattern?_encode_self hposition trueToken
  have hgrows := (s.network.encode co trueToken).2.grows_encode co falseToken
  have hfalse := (s.network.encode co trueToken).2.pattern?_encode_self
    ((s.network.grows_encode co trueToken).count.symm ▸ hposition) falseToken
  unfold Machine.network
  rw [h.session]
  intro t ht
  rcases List.mem_pair.mp ht with rfl | rfl
  · exact Option.isSome_iff_exists.mpr ⟨_, hgrows.pattern _ _ _ trivial htrue⟩
  · exact Option.isSome_iff_exists.mpr ⟨_, hfalse⟩

/-- All slots have patterns on all layers of the pointers. -/
theorem knows_slots (h : m.BuiltFrom c bare n s) : ∀ l ∈ Pointer.layers, ∀ k < c.pointerSlots, (m.network.layer l).knows (Pointer.slotToken k) = true := by
  have hbuilt := Network.builtFrom_of_build h.network
  obtain ⟨weights, errors, hflash, -⟩ := h.pointers
  unfold Pointer.flash at hflash
  rcases hslots : Pointer.encodeSlots ((List.range c.pointerSlots).map Pointer.slotToken) bare Pointer.layers with
    ⟨e | patterns, later⟩
  · rw [hslots] at hflash
    cases hflash
  have hlayers : ∀ l ∈ Pointer.layers, IsControl l ∧ l ≠ gh := by decide
  have hn : n = later := h.slots.trans (congrArg Prod.snd hslots)
  intro l hl k hk
  have hknown := Pointer.knows_encodeSlots hbuilt.sound
    (fun l hl => Nat.lt_of_lt_of_le (hlayers l hl).1 hbuilt.numbered.control) hslots l hl _
    (List.mem_map_of_mem (List.mem_range.mpr hk))
  rw [← hn] at hknown
  exact h.grows_network.knows trivial (h.governs.keeps.knows (hlayers l hl).2 hknown)

end BuiltFrom

/-- There are numbers for all layers of a machine that was built: it found a decay gate for each. -/
theorem length_le_of_build {c : Config α} {m : Machine α} (h : (build c).value = .ok m) : c.registers.length ≤ 65522 := by
  obtain ⟨⟨bare, n, s, hparts⟩, -, -, units, hunits⟩ := exists_builtFrom h
  have hkeeps := hparts.keeps_bare
  refine (Network.builtFrom_of_build hparts.network).length_registers_le fun l hl => ?_
  have hneeded : Gate.decay l ∈ neededGates bare :=
    List.mem_append_left _ (List.mem_append_right _ (List.mem_map_of_mem hl))
  rw [← hkeeps.neededGates] at hneeded
  obtain ⟨u, hu⟩ := Network.unit?_of_units hunits hneeded
  rw [hkeeps.gates] at hu
  exact GateMap.mem_of_unit? hu

end Machine

end Engram
