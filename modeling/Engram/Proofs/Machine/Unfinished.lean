/-
  Engram.Proofs.Machine.Unfinished — what loading leaves when it fails.

  A program that is not there is refused before anything is done. Registers are looked at one by one
  while the machine is being brought to the program: all layers have been set back by then, and the
  registers before the one that is not there hold their tokens, which got patterns if they were new.
  So a load that fails at a register leaves the machine to which the registers before it load, but
  with its connections and its ticks as they were (`load_unfinished`). That is the machine it was
  only if it was there already (`reset_by_failed_load`).
-/

import Engram.Proofs.Machine.Shapes

namespace Engram

open LayerId

variable {α : Type} [Scalar α]

namespace Network

variable {n : Network α}

/-- Encoding a known token leaves the network. -/
theorem encode_of_known {l : LayerId} {token : String} (h : (n.layer l).knows token = true) : (n.encode l token).2 = n := by
  obtain ⟨p, hp⟩ := Option.isSome_iff_exists.mp h
  have hlayer : (n.layer l).encode token = (p, n.layer l) := by
    unfold Layer.encode
    rw [CodeBook.encode_of_known hp]
  unfold encode
  rw [hlayer]
  exact modifyLayer_self n l

end Network

namespace Machine

variable {m later : Machine α}

/-! ## Tokens that registers hold -/

theorem network_hold (m : Machine α) (l : LayerId) (token : String) : (m.hold l token).network = (m.network.encode l token).2 := rfl

theorem network_holdAll_of_known {layers : List LayerId} {token : String} (h : ∀ l ∈ layers, (m.network.layer l).knows token = true) :
    (layers.foldl (fun m l => m.hold l token) m).network = m.network := by
  induction layers generalizing m with
  | nil => rfl
  | cons l rest ih =>
    have hhold : (m.hold l token).network = m.network := Network.encode_of_known (h l List.mem_cons_self)
    refine (ih fun x hx => ?_).trans hhold
    rw [hhold]
    exact h x (List.mem_cons_of_mem _ hx)

/-- Rewinding leaves the code books: the tokens that layers hold at first are known since the machine
was built. -/
theorem network_rewind_of_build {c : Config α} {m₀ : Machine α} (hbuild : (build c).value = .ok m₀) (hm : Later m₀ m)
    (entry : Pattern α) : (m.rewind entry).network = m.network := by
  obtain ⟨bare, n, s, hbuilt⟩ := builtFrom_of_build hbuild
  have hkeeps := (Later.governing hbuilt.fenced hm).network
  have hslots : 0 < c.pointerSlots :=
    Nat.lt_of_lt_of_le Nat.two_pos (Config.pointerSlots_of_validate (Network.builtFrom_of_build hbuilt.network).valid).1
  have hco : (m.network.layer co).knows falseToken = true := hkeeps.knows (by decide) (hbuilt.knows_answers falseToken (by simp))
  have hne : ∀ l ∈ Pointer.layers, l ≠ ip := by decide
  have hpointers : ∀ l ∈ Pointer.layers, (m.network.layer l).knows (Pointer.slotToken 0) = true :=
    fun l hl => hkeeps.knows (hne l hl) (hbuilt.knows_slots l hl 0 hslots)
  obtain ⟨activity, heq⟩ := m.exists_rewind entry
  have hhold : ({ m with activity }.hold co falseToken).network = m.network := Network.encode_of_known hco
  rw [show m.rewind entry = _ from heq m.weights m.ticks m.activity]
  refine (network_holdAll_of_known fun l hl => ?_).trans hhold
  rw [hhold]
  exact hpointers l hl

/-- Registers are set up to the first that is not there. -/
theorem holdRegisters_of_error {registers : List (String × String)} {e : Fault α}
    (h : m.holdRegisters registers = (.error e, later)) : ∃ earlier register token rest,
      registers = earlier ++ (register, token) :: rest ∧ m.network.isRegister register = false ∧
        e = .unknownLayer register ∧ m.holdRegisters earlier = (.ok (), later) := by
  induction registers generalizing m with
  | nil => cases h
  | cons r rest ih =>
    have hisRegister : m.network.isRegister r.1 = (m.network.id? r.1).any m.network.registers.contains := by
      unfold Network.isRegister
      cases m.network.id? r.1 <;> rfl
    unfold holdRegisters at h
    cases hid : m.network.id? r.1 with
    | none =>
      rw [hid] at h hisRegister
      cases h
      exact ⟨[], r.1, r.2, rest, rfl, hisRegister, rfl, rfl⟩
    | some l =>
      rw [hid] at h hisRegister
      dsimp only at h
      cases hcontains : m.network.registers.contains l with
      | false =>
        rw [hcontains, if_neg Bool.false_ne_true] at h
        cases h
        exact ⟨[], r.1, r.2, rest, rfl, hisRegister.trans hcontains, rfl, rfl⟩
      | true =>
        rw [hcontains, if_pos rfl] at h
        obtain ⟨earlier, register, token, rest', rfl, hnot, rfl, hheld⟩ := ih h
        refine ⟨r :: earlier, register, token, rest', rfl, ?_, rfl, ?_⟩
        · rw [← hnot]
          exact (Network.isRegister_congr (Network.names_encode _ _ _) (Network.grows_encode _ _ _).registers register).symm
        · unfold holdRegisters
          rw [hid]
          dsimp only
          rw [hcontains, if_pos rfl]
          exact hheld

/-- Setting registers leaves the code books exactly if these know all the tokens. -/
theorem network_holdRegisters_eq_iff (hn : m.network.Numbered) {registers : List (String × String)}
    (h : m.holdRegisters registers = (.ok (), later)) : later.network = m.network ↔
      ∀ x ∈ registers, ∀ l, m.network.id? x.1 = some l → (m.network.layer l).knows x.2 = true := by
  induction registers generalizing m with
  | nil =>
    cases h
    exact iff_of_true rfl fun x hx => (List.not_mem_nil hx).elim
  | cons r rest ih =>
    unfold holdRegisters at h
    cases hid : m.network.id? r.1 with
    | none =>
      rw [hid] at h
      cases h
    | some l =>
      rw [hid] at h
      dsimp only at h
      split at h
      swap
      · cases h
      next hcontains =>
      have hl := (hn.registers l (List.contains_iff_mem.mp hcontains)).2
      have hgrows := m.network.grows_encode l r.2
      have hrest := ih (m := m.hold l r.2) (hgrows.numbered hn) h
      rw [network_hold] at hrest
      have hhead : (∀ l', m.network.id? r.1 = some l' → (m.network.layer l').knows r.2 = true) ↔
          (m.network.layer l).knows r.2 = true := by rw [hid]; exact ⟨fun h => h l rfl, fun h l' hl' => by cases hl'; exact h⟩
      rw [List.forall_mem_cons, hhead]
      constructor
      · intro heq
        -- the token is known afterwards, so it was before
        have hlater : (m.hold l r.2).network.Grows later.network := by
          have hrests := (m.hold l r.2).rests_holdRegisters rest
          rw [h] at hrests
          exact hrests.network
        have hknown : (m.network.layer l).knows r.2 = true := by
          rw [← heq]
          exact hlater.knows trivial (Option.isSome_iff_exists.mpr ⟨_, m.network.pattern?_encode_self hl r.2⟩)
        have hsame := Network.encode_of_known hknown
        rw [hsame] at hrest
        exact ⟨hknown, hrest.mp heq⟩
      · rintro ⟨hknown, hall⟩
        rw [Network.encode_of_known hknown] at hrest
        exact hrest.mpr hall

/-! ## Loads that fail -/

/-- What a load that fails leaves. A program that is not there leaves the machine. A register that is
not there leaves the machine that the registers before it load to, with the connections and the
ticks from before; that is the machine from before exactly if its activities are those already and
the registers know their tokens. -/
theorem load_unfinished {c : Config α} {m₀ : Machine α} (hbuild : (build c).value = .ok m₀) (hm : Later m₀ m) {program : String}
    {registers : List (String × String)} {e : Fault α} (h : (m.load program registers).value = (.error e, later)) :
    (m.entry? program = none ∧ e = .unknownProgram program ∧ later = m) ∨
    ∃ earlier register token rest, registers = earlier ++ (register, token) :: rest ∧
      m.network.isRegister register = false ∧ e = .unknownLayer register ∧
      (m.load program earlier).value.1 = .ok () ∧
      later = { (m.load program earlier).value.2 with weights := m.weights, ticks := m.ticks } ∧
      (later = m ↔ later.activity = m.activity ∧
        ∀ x ∈ earlier, ∀ l, m.network.id? x.1 = some l → (m.network.layer l).knows x.2 = true) := by
  obtain ⟨_, _, _, hbuilt⟩ := builtFrom_of_build hbuild
  have hnumbered := (Later.governing hbuilt.fenced hm).network.numbered hbuilt.numbered_network
  cases hentry : m.entry? program with
  | none =>
    unfold load at h
    rw [hentry] at h
    cases h
    exact .inl ⟨rfl, rfl, rfl⟩
  | some entry =>
    have hrewind := network_rewind_of_build hbuild hm entry
    have hfails : (m.rewind entry).holdRegisters registers = (.error e, later) := by
      unfold load at h
      rw [hentry] at h
      dsimp only at h
      rcases hrun : (m.rewind entry).holdRegisters registers with ⟨e' | u, held⟩
      · rw [hrun] at h
        cases h
        rfl
      · rw [hrun] at h
        cases h
    obtain ⟨earlier, register, token, rest, rfl, hnot, rfl, hheld⟩ := holdRegisters_of_error hfails
    have hrests : m.Rests later := by
      have hholds := (m.rewind entry).rests_holdRegisters earlier
      rw [hheld] at hholds
      exact (m.rests_rewind entry).trans hholds
    have hknows := network_holdRegisters_eq_iff (by rw [hrewind]; exact hnumbered) hheld
    rw [hrewind] at hnot hknows
    have hload : (m.load program earlier).value = (.ok (),
        { later with weights := later.network.resetPlastic later.plasticity later.weights, ticks := 0 }) := by
      unfold load
      rw [hentry]
      dsimp only
      rw [hheld]
      rfl
    refine .inr ⟨earlier, register, token, rest, rfl, hnot, rfl, by rw [hload], ?_, ?_⟩
    · rw [hload]
      show later = { later with weights := m.weights, ticks := m.ticks }
      rw [← hrests.weights, ← hrests.ticks]
    · rw [← hknows]
      refine ⟨fun heq => ⟨congrArg activity heq, congrArg Machine.network heq⟩, fun ⟨hactivity, hnetwork⟩ => ?_⟩
      rw [hrests.rest, hactivity, hnetwork]
      rfl

/-- Before a register that is not there, a load only rewinds. -/
theorem load_of_stray {program register : String} {entry : Pattern α} (hentry : m.entry? program = some entry)
    (hnot : m.network.isRegister register = false) (token : String) (rest : List (String × String)) :
    (m.load program ((register, token) :: rest)).value = (.error (.unknownLayer register), m.rewind entry) := by
  obtain ⟨hnames, hregisters⟩ := m.network_rewind entry
  have hrewound : (m.rewind entry).network.isRegister register = false :=
    (Network.isRegister_congr hnames hregisters register).trans hnot
  have hheld : (m.rewind entry).holdRegisters ((register, token) :: rest) = (.error (.unknownLayer register), m.rewind entry) := by
    unfold holdRegisters
    unfold Network.isRegister at hrewound
    cases hid : (m.rewind entry).network.id? register with
    | none => rfl
    | some l =>
      rw [hid] at hrewound
      dsimp only at hrewound ⊢
      rw [hrewound, if_neg Bool.false_ne_true]
  unfold load
  rw [hentry]
  dsimp only
  rw [hheld]
  rfl

theorem active_hold_of_ne {l other : LayerId} (h : other ≠ l) (token : String) : (m.hold l token).active other = m.active other :=
  (active_setActive _ l _ other).trans (if_neg fun heq => h heq.1)

theorem active_holdAll_of_not_mem {layers : List LayerId} {other : LayerId} (h : other ∉ layers) (token : String) :
    (layers.foldl (fun m l => m.hold l token) m).active other = m.active other := by
  induction layers generalizing m with
  | nil => rfl
  | cons l rest ih =>
    rw [List.mem_cons, not_or] at h
    exact (ih h.2).trans (active_hold_of_ne h.1 token)

/-- Rewinding sets the registers back. -/
theorem active_rewind_of_data {r : LayerId} (hr : ¬ IsControl r) (entry : Pattern α) :
    (m.rewind entry).active r = (blank m.network).getD r.position #[] := by
  have hne : ∀ l : LayerId, IsControl l → r ≠ l := fun l hl heq => hr (heq ▸ hl)
  have hset : ∀ (m : Machine α) (l : LayerId), IsControl l → ∀ p, (m.setActive l p).active r = m.active r :=
    fun m l hl p => (active_setActive m l p r).trans (if_neg fun heq => hne l hl heq.1)
  have hpointers : ∀ l ∈ Pointer.layers, IsControl l := by decide
  unfold rewind
  rw [active_holdAll_of_not_mem fun h => hr (hpointers r h)]
  dsimp only
  rw [active_hold_of_ne (hne co (by decide)), hset _ ip (by decide), hset _ go (by decide), hset _ gh (by decide)]
  rfl

/-- The small machine with a program of one line. -/
theorem exists_small_program : ∃ m₀ : Machine Fixed, (build smallConfig).value = .ok m₀ ∧
    ∃ errors m, (m₀.assemble "nop" "a").value = (.ok errors, m) ∧ Later m₀ m ∧ m.Formed smallConfig ∧
      (m.entry? "a").isSome = true ∧ smallNetwork.Keeps (fun _ _ => False) m.network := by
  obtain ⟨m₀, hbuild⟩ := exists_small
  have hsession := overfills_smallSession
  rw [← session_of_build hbuild, Bool.and_eq_true] at hsession
  obtain ⟨errors, m, hadds, -, -⟩ := exists_adds (config_of_build hbuild) hsession.2
  have hlater : m = (m₀.assemble "nop" "a").value.2 := by rw [hadds]
  have hload := ((ledger_of_attempts hbuild (Attempts.none.more (.inl ⟨_, hadds⟩))).load_ok_iff "a").mpr
    ⟨⟨"a", m₀, .ok errors⟩, by simp, rfl, .inl ⟨errors, rfl⟩⟩
  obtain ⟨bare, n, s, hbuilt⟩ := builtFrom_of_build hbuild
  have hbare : bare = smallNetwork := Except.ok.inj (hbuilt.network.symm.trans build_smallConfig)
  have hkeeps := (Later.governing hbuilt.fenced (hlater ▸ Later.here.assemble "nop" "a")).network
  refine ⟨m₀, hbuild, errors, m, hadds, hlater ▸ Later.here.assemble "nop" "a",
    hlater ▸ (formed_of_build hbuild (by decide)).assemble "nop" "a", (m.isSome_entry? "a").mpr ((m.load_ok_iff "a").mp hload), ?_⟩
  exact hbare ▸ hbuilt.keeps_bare.trans (hkeeps.mono fun _ _ h => h.elim)

theorem smallNetwork_names : smallNetwork.isRegister "r0" = true ∧ smallNetwork.isRegister "r1" = false ∧
    smallNetwork.id? "r0" = some (.register 0) ∧ smallNetwork.layers.size ≤ 65536 ∧
    (smallNetwork.layer (.register 0)).blank = Array.replicate 8 0 := by decide +kernel

/-- The load that fails leaves the tokens of the registers before. -/
theorem small_load_unfinished : ∃ m₀ : Machine Fixed, (build smallConfig).value = .ok m₀ ∧
    ∃ errors m, (m₀.assemble "nop" "a").value = (.ok errors, m) ∧
      ∃ later, (m.load "a" [("r0", "x"), ("r1", "y")]).value = (.error (.unknownLayer "r1"), later) ∧
        (m.load "a" [("r0", "x")]).value.1 = .ok () ∧
        later = { (m.load "a" [("r0", "x")]).value.2 with weights := m.weights, ticks := m.ticks } := by
  obtain ⟨m₀, hbuild, errors, m, hadds, hlater, -, hentry, hkeeps⟩ := exists_small_program
  obtain ⟨hr₀, hr₁, -, hroom, -⟩ := smallNetwork_names
  have hregister : ∀ name, m.network.isRegister name = smallNetwork.isRegister name :=
    Network.isRegister_congr (hkeeps.names hroom) hkeeps.registers
  have hfst : (m.load "a" [("r0", "x"), ("r1", "y")]).value.1 = .error (.unknownLayer "r1") := by
    rw [fst_load, hentry, if_pos rfl, Network.checkRegisters, Network.checkRegisters, hregister, hregister, hr₀, hr₁, if_pos rfl,
      if_neg Bool.false_ne_true]
  have h : (m.load "a" [("r0", "x"), ("r1", "y")]).value = (.error (.unknownLayer "r1"),
      (m.load "a" [("r0", "x"), ("r1", "y")]).value.2) := Prod.ext hfst rfl
  refine ⟨m₀, hbuild, errors, m, hadds, _, h, ?_⟩
  rcases load_unfinished hbuild hlater h with ⟨hnone, -, -⟩ | ⟨earlier, register, token, rest, heq, hnot, -, hload, hleft, -⟩
  · rw [hnone] at hentry
    cases hentry
  cases earlier with
  | nil =>
    -- the first register is there
    obtain ⟨⟨rfl, -⟩, -⟩ := List.cons.inj heq |>.imp_left Prod.mk.inj
    rw [hregister, hr₀] at hnot
    cases hnot
  | cons first earlier =>
    obtain ⟨rfl, heq⟩ := List.cons.inj heq
    cases earlier with
    | nil => exact ⟨hload, hleft⟩
    | cons second earlier => simp at heq

/-- A load that fails sets back a register that it was not asked to set. -/
theorem reset_by_failed_load : ∃ m₀ : Machine Fixed, (build smallConfig).value = .ok m₀ ∧
    ∃ errors m, (m₀.assemble "nop" "a").value = (.ok errors, m) ∧
      ∃ set, m.setActivity "r0" (Array.replicate 8 1) = .ok set ∧ set.active (.register 0) = Array.replicate 8 1 ∧
        ∃ later, (set.load "a" [("r1", "y")]).value = (.error (.unknownLayer "r1"), later) ∧
          later.active (.register 0) = Array.replicate 8 0 := by
  obtain ⟨m₀, hbuild, errors, m, hadds, -, hformed, hentry, hkeeps⟩ := exists_small_program
  obtain ⟨-, hr₁, hid, hroom, hblank⟩ := smallNetwork_names
  have hids := Network.id?_congr (hkeeps.names hroom)
  have hsize : m.network.size (.register 0) = 8 := (hkeeps.size _).trans (by decide +kernel)
  have hposition : (LayerId.register 0).position < m.network.layers.size := by
    rw [hkeeps.count]
    decide +kernel
  have hset : m.setActivity "r0" (Array.replicate 8 1) = .ok (m.setActive (.register 0) (Array.replicate 8 1)) := by
    unfold setActivity Network.id
    rw [hids, hid]
    show (if (Array.replicate 8 (1 : Fixed)).size = m.network.size (.register 0) then _ else _) = _
    rw [hsize]
    rfl
  refine ⟨m₀, hbuild, errors, m, hadds, _, hset, ?_, ?_⟩
  · rw [active_setActive, if_pos ⟨rfl, hformed.shaped.count ▸ hposition⟩]
  obtain ⟨entry, hentry⟩ := Option.isSome_iff_exists.mp hentry
  have hnot : m.network.isRegister "r1" = false :=
    (Network.isRegister_congr (hkeeps.names hroom) hkeeps.registers "r1").trans hr₁
  have hentry' : entry? (m.setActive (.register 0) (Array.replicate 8 1)) "a" = some entry := hentry
  refine ⟨_, load_of_stray hentry' hnot "y" [], ?_⟩
  rw [active_rewind_of_data (by decide), ← hblank]
  refine (getD_blank m.network hposition).trans ?_
  show Array.replicate (m.network.size (.register 0)) (m.network.activator (.register 0)).midpoint = _
  rw [hkeeps.size, hkeeps.activator]
  rfl

end Machine

end Engram
