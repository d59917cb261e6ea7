/-
  Engram.Proofs.Control.Compiled — the recorded automaton is the one of the table.

  The opcodes are recorded one after the other, each as a way from `ready`: back at once, into a
  state that stays, or along its plan (`grown_of_opcode`). With the way from `start` to `ready`
  before them these are the rounds of the table, and nothing else is recorded.
-/

import Engram.Proofs.Control.Recording
import Engram.Proofs.Network.Built
import Engram.Proofs.Scalar.Fixed

namespace Engram

open LayerId

namespace Sequencer

variable {α : Type} [Scalar α] {start state ready next : ControlState α} {s t later : Sequencer α}
  {registers : List (LayerId × String)}

omit [Scalar α] in
/-- A name of its own suits every state. -/
theorem suits_none {name : String} (h : name ∉ "start" :: Opcode.all.map Opcode.mnemonic) : Suits none name := by
  rw [List.mem_cons, not_or] at h
  exact ⟨h.1, fun op hop => absurd (hop ▸ List.mem_map_of_mem (Opcode.mem_all op)) h.2⟩

/-- Naming a new state. -/
theorem Creates.named_later {gates : List Gate} {condition : Option Condition} {name : String} {v : Unit}
    (h : Creates s t gates state condition next) (hs : s.network.Numbered) (hname : Suits condition name)
    (hn : Does (nameState next name) t v later) : Creates s later gates state condition next := by
  obtain ⟨hkeeps, htransits, hnamed⟩ := does_nameState hn
  obtain ⟨input, hinput, hadded⟩ := h.transits
  have hgives := gives_nameState (h.network.numbered hs) hn hname
  refine ⟨⟨h.network.trans hkeeps, h.unrecorded, ⟨input, hinput.of_keeps hkeeps, htransits.trans hadded⟩, fun hstill => ?_⟩,
    hnamed.trans h.named, h.opens, h.gives.trans (hgives.mono fun _ _ hg => ⟨hg.1.trans (hiddenBits_eq h.network _), hg.2⟩)⟩
  rw [hnamed, h.named] at hstill
  exact absurd hstill (Nat.succ_ne_self _)

omit [Scalar α] in
theorem suits_mnemonic (op : Opcode) : Suits (some ⟨opc, op.mnemonic⟩) op.mnemonic :=
  ⟨by cases op <;> decide, fun _ _ => rfl⟩

/-- A state that was just named is called so. -/
theorem stateName_of_named {name : String} {v : Unit} (hs : s.network.Numbered) (h : Does (nameState state name) s v later) :
    later.stateName state = name := by
  have hbits : (later.network.layer gh).bits state.hidden = s.hiddenBits state := hiddenBits_eq (does_nameState h).1 state
  show (later.names.lookup ((later.network.layer gh).bits state.hidden)).getD unknownToken = name
  rw [hbits, names_nameState hs h, List.lookup_cons_self]
  rfl

/-! ## One opcode -/

/-- The state in which the walks of an opcode end. -/
def lastState (start halted : ControlState α) (op : Opcode) : ControlState α := if op = .exit then halted else start

/-- What recording an opcode does first. -/
theorem does_opcode {op : Opcode} {v : Unit} (h : Does (op.record registers start ready) s v later) :
    ∃ t, Same s t ∧ match op.routine with
      | .skip => ∃ next, Does (transit [] ready (some ⟨opc, op.mnemonic⟩) (some start)) t next later
      | .halt => ∃ halted next t₁ t₂ u, Does (transit [] ready (some ⟨opc, op.mnemonic⟩) none) t halted t₁ ∧
          Does (nameState halted op.mnemonic) t₁ u t₂ ∧ Does (transit [] halted none (some halted)) t₂ next later
      | .run gates plan => ∃ entered t₁ t₂ u w, Does (transit gates ready (some ⟨opc, op.mnemonic⟩) none) t entered t₁ ∧
          Does (nameState entered op.mnemonic) t₁ u t₂ ∧ Does (plan.record registers start entered) t₂ w later := by
  obtain ⟨u, t, hcontext, hrest⟩ := does_bind h
  refine ⟨t, does_setContext hcontext, ?_⟩
  cases hroutine : op.routine with
  | skip =>
    rw [hroutine] at hrest
    obtain ⟨next, t₁, htransit, hpure⟩ := does_bind hrest
    obtain ⟨-, rfl⟩ := does_pure hpure
    exact ⟨next, htransit⟩
  | halt =>
    rw [hroutine] at hrest
    obtain ⟨halted, t₁, htransit, hafter⟩ := does_bind hrest
    obtain ⟨w, t₂, hname, hloop⟩ := does_bind hafter
    obtain ⟨next, t₃, hself, hpure⟩ := does_bind hloop
    obtain ⟨-, rfl⟩ := does_pure hpure
    exact ⟨halted, next, t₁, t₂, w, htransit, hname, hself⟩
  | run gates plan =>
    rw [hroutine] at hrest
    obtain ⟨entered, t₁, htransit, hafter⟩ := does_bind hrest
    obtain ⟨w, t₂, hname, hrecord⟩ := does_bind hafter
    exact ⟨entered, t₁, t₂, w, v, htransit, hname, hrecord⟩

theorem advances_of_opcode {op : Opcode} {v : Unit} (h : Does (op.record registers start ready) s v later)
    (hs : s.Traced start) (hready : s.hiddenBits ready ∈ s.seen start) : Advances start s later := by
  obtain ⟨t, hsame, hop⟩ := does_opcode h
  have hcont := hsame.advances hs
  refine hcont.trans ?_
  have hready' := hcont.seen hready
  cases hroutine : op.routine with
  | skip =>
    rw [hroutine] at hop
    obtain ⟨next, htransit⟩ := hop
    exact (advances_of_transit htransit hcont.traced hready' fun x hx => by cases hx; exact start_mem_seen).1
  | halt =>
    rw [hroutine] at hop
    obtain ⟨halted, next, t₁, t₂, u, htransit, hname, hself⟩ := hop
    have hc := (creates_of_transit htransit hcont.traced).named_later hcont.traced.numbered (suits_mnemonic op) hname
    obtain ⟨hcont', hseen⟩ := hc.advances hcont.traced hready'
    exact hcont'.trans (advances_of_transit hself hcont'.traced hseen fun x hx => by cases hx; exact hseen).1
  | run gates plan =>
    rw [hroutine] at hop
    obtain ⟨entered, t₁, t₂, u, w, htransit, hname, hrecord⟩ := hop
    have hc := (creates_of_transit htransit hcont.traced).named_later hcont.traced.numbered (suits_mnemonic op) hname
    obtain ⟨hcont', hseen⟩ := hc.advances hcont.traced hready'
    exact hcont'.trans (advances_of_record plan hrecord hcont'.traced hseen)

/-- The ways of an opcode from `ready`. -/
def opcodeWays (registers : List (LayerId × String)) (start halted : ControlState α) (op : Opcode)
    (c : Option Condition) (gates : List Gate) (rest : List ControlStep) (fin : ControlState α) : Prop :=
  c = some ⟨opc, op.mnemonic⟩ ∧ op.Path registers (.enter op gates :: rest) ∧ fin = lastState start halted op

/-- The only opcode that halts is `exit`. -/
theorem routine_eq_halt_iff (op : Opcode) : op.routine = .halt ↔ op = .exit := by
  constructor
  · intro h
    cases op <;> first | rfl | cases h
  · rintro rfl
    rfl

/-- Recording an opcode grows its ways from `ready`. -/
theorem grown_of_opcode (hne : registers ≠ []) (hnames : (registers.map (·.2)).Nodup) {op : Opcode} {v : Unit}
    {ways : Option Condition → List Gate → List ControlStep → ControlState α → Prop}
    (h : Does (op.record registers start ready) t v later) (hready : s.hiddenBits ready ∈ s.seen start)
    (hst : Extends start s t) (ht : t.Traced start) (hstart : t.network.Opens start.gates [])
    (hgrown : Grown start start ready ways s t) (hnew : ∀ c g rest e, ways c g rest e → c ≠ some ⟨opc, op.mnemonic⟩)
    (hlater : later.Apart start) :
    ∃ halted, (op = .exit → later.Leads ready (some ⟨opc, op.mnemonic⟩) halted ∧ later.stateName halted = op.mnemonic) ∧
      ∀ halted', (op = .exit → halted' = halted) → Grown start start ready
        (fun c g rest e => ways c g rest e ∨ opcodeWays registers start halted' op c g rest e) s later := by
  obtain ⟨t', hsame, hop⟩ := does_opcode h
  have hcont := hsame.advances ht
  have hst' := hst.trans hcont.extension
  have hready' : t'.hiddenBits ready ∈ t'.seen start := by
    rw [hiddenBits_eq hst'.network]
    exact hst'.seen_subset hready
  have hstart' := hstart.keeps hcont.extension.network
  have hgrown' := hgrown.of_extends hcont.extension hsame.transits
  -- no transit is keyed on the opcode yet
  have hfresh : ∀ x ∈ t'.transits, x.key ≠ t'.key ready (some ⟨opc, op.mnemonic⟩) := by
    intro x hx heq
    obtain ⟨c, g, rest, e, hw, hkey⟩ := hgrown'.only x hx (by rw [heq]; rfl)
    rw [hkey] at heq
    exact hnew c g rest e hw (congrArg TransitKey.condition heq)
  have hhalt := routine_eq_halt_iff op
  cases hroutine : op.routine with
  | skip =>
    rw [hroutine] at hop hhalt
    obtain ⟨next, htransit⟩ := hop
    have hne : op ≠ .exit := fun heq => by cases hhalt.mpr heq
    obtain ⟨hadds, hext⟩ := adds_of_transit htransit hcont.traced hfresh start_mem_seen
    refine ⟨start, fun heq => absurd heq hne, fun halted' _ => ?_⟩
    refine (hgrown'.back hready hst' hadds hext (hstart'.keeps hext.network)).congr fun c g rest e => or_congr_right ?_
    unfold opcodeWays Opcode.Path lastState
    rw [hroutine, if_neg hne]
    constructor
    · rintro ⟨rfl, rfl, rfl, rfl⟩
      exact ⟨rfl, rfl, rfl⟩
    · rintro ⟨rfl, heq, rfl⟩
      cases heq
      exact ⟨rfl, rfl, rfl, rfl⟩
  | halt =>
    rw [hroutine] at hop hhalt
    obtain ⟨halted, next, t₁, t₂, u, htransit, hname, hself⟩ := hop
    have hexit : op = .exit := hhalt.mp rfl
    have hc := (creates_of_transit htransit hcont.traced).named_later hcont.traced.numbered (suits_mnemonic op) hname
    obtain ⟨hcont₂, hseen₂⟩ := hc.advances hcont.traced hready'
    obtain ⟨hcont₃, -⟩ := advances_of_transit hself hcont₂.traced hseen₂ fun x hx => by cases hx; exact hseen₂
    have ht₂ := hcont₃.extension.apart hcont₂.traced hlater
    have hunused := hc.unused hcont.traced hready' ht₂
    obtain ⟨hadds, hext⟩ := adds_of_transit hself hcont₂.traced (hunused.key_ne none) hseen₂
    have hopens := (hc.gates_open hcont.traced).keeps (hcont₂.trans hcont₃).extension.network
    have hd := drawn_of_back start hseen₂ hunused hadds hext hopens
    have hcalled : later.stateName halted = op.mnemonic := by
      rw [hcont₃.stateName hlater hseen₂]
      exact stateName_of_named ((creates_of_transit htransit hcont.traced).network.numbered hcont.traced.numbered) hname
    refine ⟨halted, fun _ => ⟨hext.leads hc.leads, hcalled⟩, fun halted' hsame' => ?_⟩
    rw [hsame' hexit]
    refine (hgrown'.new hready hst' hcont.traced hc hext hd ⟨_, _, rfl, rfl⟩ ht₂
      (hc.ne_start hcont.traced ht₂)).congr fun c g rest e => or_congr_right ?_
    unfold opcodeWays Opcode.Path lastState
    rw [hroutine, if_pos hexit]
    constructor
    · rintro ⟨rfl, rfl, rfl, rfl⟩
      exact ⟨rfl, rfl, rfl⟩
    · rintro ⟨rfl, heq, rfl⟩
      cases heq
      exact ⟨rfl, rfl, rfl, rfl⟩
  | run gates plan =>
    rw [hroutine] at hop hhalt
    obtain ⟨entered, t₁, t₂, u, w, htransit, hname, hrecord⟩ := hop
    have hexit : op ≠ .exit := fun heq => by cases hhalt.mpr heq
    have hc := (creates_of_transit htransit hcont.traced).named_later hcont.traced.numbered (suits_mnemonic op) hname
    obtain ⟨hext, ht₂, hentered, hd⟩ := draws_then (draws hne hnames plan) hc hrecord hcont.traced hready' hstart' hlater
    refine ⟨start, fun heq => absurd heq hexit, fun halted' _ => ?_⟩
    refine (hgrown'.new hready hst' hcont.traced hc hext hd (exists_pathsTo hne start plan) ht₂
      hentered).congr fun c g rest e => or_congr_right ?_
    unfold opcodeWays Opcode.Path lastState pathsTo
    rw [hroutine, if_neg hexit]
    constructor
    · rintro ⟨rfl, rfl, hpath, rfl⟩
      exact ⟨rfl, ⟨rest, hpath, rfl⟩, rfl⟩
    · rintro ⟨rfl, ⟨more, hpath, heq⟩, rfl⟩
      cases heq
      exact ⟨rfl, rfl, hpath, rfl⟩

theorem advances_of_opcodes (l : List Opcode) {v : Unit}
    (h : Does (l.forM (Opcode.record registers start ready)) s v later) (hs : s.Traced start)
    (hready : s.hiddenBits ready ∈ s.seen start) : Advances start s later := by
  induction l generalizing s v with
  | nil =>
    obtain ⟨-, rfl⟩ := does_pure h
    exact .refl hs
  | cons op l ih =>
    obtain ⟨w, t, hop, hrest⟩ := does_bind h
    have hcont := advances_of_opcode hop hs hready
    exact hcont.trans (ih hrest hcont.traced (hcont.seen hready))

omit [Scalar α] in
/-- Where the halting state is matters to the halting opcode only. -/
theorem opcodeWays_of_ne {op : Opcode} (hop : op ≠ .exit) {halted halted' : ControlState α} {c : Option Condition}
    {g : List Gate} {rest : List ControlStep} {e : ControlState α} (h : opcodeWays registers start halted op c g rest e) :
    opcodeWays registers start halted' op c g rest e := by
  unfold opcodeWays lastState at h ⊢
  rw [if_neg hop] at h ⊢
  exact h

theorem mnemonic_injective : Function.Injective Opcode.mnemonic := by
  intro a b h
  have := congrArg Opcode.ofMnemonic? h
  rw [Opcode.ofMnemonic?_mnemonic, Opcode.ofMnemonic?_mnemonic] at this
  exact Option.some.inj this

/-- Recording opcodes one after the other. -/
theorem grown_of_opcodes (hne : registers ≠ []) (hnames : (registers.map (·.2)).Nodup) (l : List Opcode) (hl : l.Nodup)
    {ways : Option Condition → List Gate → List ControlStep → ControlState α → Prop} {t : Sequencer α} {v : Unit}
    (h : Does (l.forM (Opcode.record registers start ready)) t v later) (hready : s.hiddenBits ready ∈ s.seen start)
    (hst : Extends start s t) (ht : t.Traced start) (hstart : t.network.Opens start.gates [])
    (hgrown : Grown start start ready ways s t)
    (hnew : ∀ c g rest e, ways c g rest e → ∀ op ∈ l, c ≠ some ⟨opc, op.mnemonic⟩) (hlater : later.Apart start) :
    ∃ halted, (.exit ∈ l → later.Leads ready (some ⟨opc, Opcode.exit.mnemonic⟩) halted ∧
        later.stateName halted = Opcode.exit.mnemonic) ∧
      Grown start start ready (fun c g rest e => ways c g rest e ∨
        ∃ op ∈ l, opcodeWays registers start halted op c g rest e) s later := by
  induction l generalizing ways t v with
  | nil =>
    obtain ⟨-, rfl⟩ := does_pure h
    exact ⟨start, fun hmem => absurd hmem List.not_mem_nil, by simpa using hgrown⟩
  | cons op l ih =>
    obtain ⟨w, u, hop, hrest⟩ := does_bind h
    rw [List.nodup_cons] at hl
    have hready' : t.hiddenBits ready ∈ t.seen start := by
      rw [hiddenBits_eq hst.network]
      exact hst.seen_subset hready
    have hcont := advances_of_opcode hop ht hready'
    have hlast := advances_of_opcodes l hrest hcont.traced (hcont.seen hready')
    have hu := hlast.extension.apart hcont.traced hlater
    obtain ⟨halted, hleads, hgrow⟩ := grown_of_opcode hne hnames hop hready hst ht hstart hgrown
      (fun c g rest e hw => hnew c g rest e hw op List.mem_cons_self) hu
    have hnew' : ∀ c g rest e, (ways c g rest e ∨ opcodeWays registers start halted op c g rest e) →
        ∀ q ∈ l, c ≠ some ⟨opc, q.mnemonic⟩ := by
      rintro c g rest e (hw | ⟨rfl, -, -⟩) q hq heq
      · exact hnew c g rest e hw q (List.mem_cons_of_mem _ hq) heq
      · have hname : op.mnemonic = q.mnemonic := congrArg Condition.token (Option.some.inj heq)
        exact hl.1 (mnemonic_injective hname ▸ hq)
    obtain ⟨halted', hleads', hall⟩ := ih hl.2 hrest (hst.trans hcont.extension) hcont.traced
      (hstart.keeps hcont.extension.network) (hgrow halted fun _ => rfl) hnew'
    refine ⟨if op = .exit then halted else halted', fun hmem => ?_, hall.congr fun c g rest e => ?_⟩
    · by_cases hexit : op = .exit
      · rw [if_pos hexit, ← hexit]
        obtain ⟨hlead, hcalled⟩ := hleads hexit
        obtain ⟨x, hx, -, rfl, -⟩ := hlead
        exact ⟨hlast.extension.leads (hleads hexit).1, (hlast.stateName hlater (target_mem_seen hx)).trans hcalled⟩
      · rw [if_neg hexit]
        exact hleads' ((List.mem_cons.mp hmem).resolve_left fun heq => hexit heq.symm)
    rw [or_assoc]
    refine or_congr_right ?_
    simp only [List.mem_cons, exists_eq_or_imp]
    by_cases hexit : op = .exit
    · rw [if_pos hexit]
      refine or_congr_right (exists_congr fun q => and_congr_right fun hq => ?_)
      have hne' : q ≠ .exit := fun heq => hl.1 (by rw [hexit, ← heq]; exact hq)
      exact ⟨opcodeWays_of_ne hne', opcodeWays_of_ne hne'⟩
    · rw [if_neg hexit]
      exact or_congr_left ⟨opcodeWays_of_ne hexit, opcodeWays_of_ne hexit⟩

/-! ## The whole automaton -/

omit [Scalar α] in
theorem does_of_mem_forM {β : Type} {l : List β} {f : β → Sequencing α Unit} {v : Unit} (h : Does (l.forM f) s v later)
    {x : β} (hx : x ∈ l) : ∃ t w u, Does (f x) t w u := by
  induction l generalizing s v with
  | nil => cases hx
  | cons y l ih =>
    obtain ⟨w, t, hy, hrest⟩ := does_bind h
    rcases List.mem_cons.mp hx with rfl | hx
    · exact ⟨s, w, t, hy⟩
    · exact ih hrest hx

/-- Branches that meet need a register. -/
theorem registers_ne_nil {v : Unit} (h : Does (Opcode.all.forM (Opcode.record registers start ready)) s v later) :
    registers ≠ [] := by
  rintro rfl
  obtain ⟨t, w, u, hmref⟩ := does_of_mem_forM h (Opcode.mem_all .mref)
  obtain ⟨t', -, entered, t₁, t₂, v₁, v₂, -, -, hrecord⟩ := does_opcode hmref
  obtain ⟨m, t₃, hfold, -⟩ := does_gather hrecord
  obtain ⟨hnone, -⟩ := does_pure hfold
  cases hnone

theorem does_initial {name : String} {state : ControlState α} (h : Does (initial name) s state later) :
    s.network.Keeps (fun l _ => l ≠ gh) later.network ∧ later.transits = s.transits ∧ later.named = s.named + 1 ∧
      makeGates s.network [] = .ok state.gates := by
  obtain ⟨s₁, s₂, hget, hrest⟩ := does_bind h
  obtain ⟨rfl, rfl⟩ := does_get hget
  obtain ⟨gates, s₃, hlift, hafter⟩ := does_bind hrest
  obtain ⟨hgates, rfl⟩ := does_lift hlift
  obtain ⟨hidden, s₄, hhidden, hname⟩ := does_bind hafter
  obtain ⟨hkeeps, htransits, hnamed⟩ := does_freshHidden hhidden
  obtain ⟨u, s₅, hnameState, hpure⟩ := does_bind hname
  obtain ⟨hkeeps', htransits', hnamed'⟩ := does_nameState hnameState
  obtain ⟨rfl, rfl⟩ := does_pure hpure
  exact ⟨hkeeps.trans hkeeps', htransits'.trans htransits, hnamed'.trans hnamed, hgates⟩

/-- The first state has a fresh name and the given one. -/
theorem names_initial {name : String} {state : ControlState α} (hs : s.network.Numbered)
    (h : Does (initial name) s state later) : later.stateName state = name ∧
      Gives (fun bits x => bits = s.hiddenBits state ∧ (x = name ∨ Suits none x)) s later := by
  obtain ⟨s₁, s₂, hget, hrest⟩ := does_bind h
  obtain ⟨rfl, rfl⟩ := does_get hget
  obtain ⟨gates, s₃, hlift, hafter⟩ := does_bind hrest
  obtain ⟨hgates, rfl⟩ := does_lift hlift
  obtain ⟨hidden, s₄, hhidden, hname⟩ := does_bind hafter
  obtain ⟨hkeeps, -, -⟩ := does_freshHidden hhidden
  have hgives := gives_freshHidden hhidden none
  obtain ⟨u, s₅, hnameState, hpure⟩ := does_bind hname
  obtain ⟨rfl, rfl⟩ := does_pure hpure
  have hnumbered := hkeeps.numbered hs
  refine ⟨stateName_of_named hnumbered hnameState, (hgives.mono fun _ _ hg => ⟨hg.1, .inr hg.2⟩).trans ⟨[_],
    names_nameState hnumbered hnameState, fun e he => ?_⟩⟩
  obtain rfl := List.mem_singleton.mp he
  exact ⟨hiddenBits_eq hkeeps _, .inl rfl⟩

/-- The rounds of the table, with the states in which they end. -/
def rounds (registers : List (LayerId × String)) (start halted : ControlState α) (steps : List ControlStep)
    (fin : ControlState α) : Prop :=
  ∃ op rest, Opcode.Path registers op rest ∧ steps = .tick Microcode.fetch :: .tick (Microcode.read opc) :: rest ∧
    fin = lastState start halted op

omit [Scalar α] in
/-- The walks of an opcode begin by entering it. -/
theorem exists_enter {op : Opcode} {steps : List ControlStep} (h : op.Path registers steps) :
    ∃ gates rest, steps = .enter op gates :: rest := by
  unfold Opcode.Path at h
  split at h
  · exact ⟨_, _, h⟩
  · exact ⟨_, _, h⟩
  · obtain ⟨rest, -, rfl⟩ := h
    exact ⟨_, _, rfl⟩

/-- All opcodes, from `ready` on. -/
theorem drawn_of_opcodes (hnames : (registers.map (·.2)).Nodup) {v : Unit}
    (h : Does (Opcode.all.forM (Opcode.record registers start ready)) s v later) (hs : s.Traced start)
    (hready : s.hiddenBits ready ∈ s.seen start) (hunused : s.Unused ready) (hstart : s.network.Opens start.gates [])
    (hlater : later.Apart start) :
    ∃ halted, (later.Leads ready (some ⟨opc, Opcode.exit.mnemonic⟩) halted ∧
      later.stateName halted = Opcode.exit.mnemonic) ∧ Drawn start start ready
      (fun steps e => ∃ op : Opcode, op.Path registers steps ∧ e = lastState start halted op) s later := by
  obtain ⟨halted, hleads, hgrown⟩ := grown_of_opcodes (registers_ne_nil h) hnames Opcode.all (by decide) h hready (.refl _)
    hs hstart (.nil hunused) (fun _ _ _ _ hw => hw.elim) hlater
  refine ⟨halted, hleads (Opcode.mem_all _),
    (hgrown.drawn (Opcode.all.map fun op => some ⟨opc, op.mnemonic⟩) ?_).congr fun steps fin => ?_⟩
  · rintro c g r e (hw | ⟨op, hop, rfl, -, -⟩)
    · exact hw.elim
    · exact List.mem_map.mpr ⟨op, hop, rfl⟩
  · constructor
    · rintro ⟨c, g, r, hw | ⟨op, -, rfl, hpath, hfin⟩, rfl⟩
      · exact hw.elim
      · exact ⟨op, hpath, hfin⟩
    · rintro ⟨op, hpath, hfin⟩
      obtain ⟨gates, rest, rfl⟩ := exists_enter hpath
      exact ⟨_, gates, rest, .inr ⟨op, Opcode.mem_all op, rfl, hpath, hfin⟩, rfl⟩

/-- The parts of a recorded automaton. -/
structure Recorded (registers : List (LayerId × String)) (start load ready halted : ControlState α) (s : Sequencer α) :
    Prop where
  inhabited : registers ≠ []
  traced : s.Traced start
  opens : s.network.Opens start.gates []
  toLoad : s.Leads start none load
  toReady : s.Leads load none ready
  toHalted : s.Leads ready (some ⟨opc, Opcode.exit.mnemonic⟩) halted
  startName : s.stateName start = "start"
  haltedName : s.stateName halted = Opcode.exit.mnemonic
  names : ∀ e ∈ s.names, (e.2 = "start" → e.1 = s.hiddenBits start) ∧
    ∀ op : Opcode, e.2 = op.mnemonic → ∃ x ∈ s.transits, x.key.condition = some ⟨opc, e.2⟩ ∧ e.1 = s.hiddenBits x.target
  drawn : ∃ s₀ : Sequencer α, s₀.transits = [] ∧ Drawn start start start (rounds registers start halted) s₀ s

/-- A sequencer with its first state. -/
theorem traced_of_initial {n : Network α} (hgates : n.size go = n.gates.size) (hnumbered : n.Numbered)
    {context name : String} {u : Unit} (hcontext : Does (setContext context) (Sequencer.new n) u s)
    (hinitial : Does (initial name) s start later) :
    later.Traced start ∧ later.Unused start ∧ later.network.Opens start.gates [] ∧ later.transits = [] := by
  have hsame := does_setContext hcontext
  obtain ⟨hkeeps, htransits, hnamed, hmake⟩ := does_initial hinitial
  have htransits' : later.transits = [] := by
    rw [htransits, hsame.transits]
    rfl
  have hnamed' : later.named = 1 := by
    rw [hnamed, hsame.named]
    rfl
  have hnet : s.network = n := hsame.network
  rw [hnet] at hkeeps hmake
  have hseen : later.seen start = {later.hiddenBits start} := by
    unfold seen
    rw [htransits']
    rfl
  refine ⟨⟨by rw [hseen, hnamed']; rfl, ?_, ?_, ?_, hkeeps.numbered hnumbered⟩, fun x hx => ?_,
    (Network.opens_makeGates hgates hmake).keeps hkeeps, htransits'⟩
  · rw [htransits']
    exact fun x hx => by cases hx
  · rw [htransits']
    exact List.nodup_nil
  · rw [hkeeps.size go, hkeeps.gates]
    exact hgates
  · rw [htransits'] at hx
    cases hx

/-- Recording the instructions draws the rounds of the table and nothing else. -/
theorem recorded_of_apart {n : Network α} (hgates : n.size go = n.gates.size) (hnumbered : n.Numbered)
    (hblank : (n.layer gh).book.history = []) (hnames : (registers.map (·.2)).Nodup) (h : Does (recordInstructions registers) (Sequencer.new n) start s)
    (hapart : s.Apart start) : ∃ load ready halted, Recorded registers start load ready halted s := by
  obtain ⟨u₀, s₀, hcontext, h₀⟩ := does_bind h
  obtain ⟨start', s₁, hinitial, h₁⟩ := does_bind h₀
  obtain ⟨load, s₂, hload, h₂⟩ := does_bind h₁
  obtain ⟨u₂, s₃, hnameLoad, h₃⟩ := does_bind h₂
  obtain ⟨ready, s₄, hready, h₄⟩ := does_bind h₃
  obtain ⟨u₄, s₅, hnameReady, h₅⟩ := does_bind h₄
  obtain ⟨v, s₆, hall, hpure⟩ := does_bind h₅
  obtain ⟨rfl, rfl⟩ := does_pure hpure
  obtain ⟨ht₁, hunused₁, hstart, htransits₁⟩ := traced_of_initial hgates hnumbered hcontext hinitial
  have hc₁ := (creates_of_transit hload ht₁).named_later ht₁.numbered (suits_none (by decide)) hnameLoad
  obtain ⟨hcont₁, hseenLoad⟩ := hc₁.advances ht₁ start_mem_seen
  have hc₂ := (creates_of_transit hready hcont₁.traced).named_later hcont₁.traced.numbered
    (suits_none (by decide)) hnameReady
  obtain ⟨hcont₂, hseenReady⟩ := hc₂.advances hcont₁.traced hseenLoad
  have hcont₃ := advances_of_opcodes Opcode.all hall hcont₂.traced hseenReady
  have happ₂ := hcont₃.extension.apart hcont₂.traced hapart
  have happ₁ := hcont₂.extension.apart hcont₁.traced happ₂
  have hne := registers_ne_nil hall
  have hext₂ := hcont₂.extension.trans hcont₃.extension
  obtain ⟨halted, hleads, hd₃⟩ := drawn_of_opcodes hnames hall hcont₂.traced hseenReady
    (hc₂.unused hcont₁.traced hseenLoad happ₂) (hstart.keeps (hcont₁.trans hcont₂).extension.network) hapart
  obtain ⟨rest₀, hrest₀⟩ : ∃ rest, Opcode.Path registers .nop rest := ⟨_, rfl⟩
  have hd₂ := drawn_of_new hcont₁.traced hseenLoad (hc₁.unused ht₁ start_mem_seen happ₁) hc₂ hcont₃.extension hd₃
    ⟨rest₀, _, .nop, hrest₀, rfl⟩ happ₂ (hc₂.ne_start hcont₁.traced happ₂)
  have hd₁ := drawn_of_new ht₁ start_mem_seen hunused₁ hc₁ hext₂ hd₂ ⟨_, _, rest₀, ⟨.nop, hrest₀, rfl⟩, rfl⟩ happ₁
    (hc₁.ne_start ht₁ happ₁)
  have hall₁ := hcont₁.trans (hcont₂.trans hcont₃)
  -- only `start` was named before
  have hsame := does_setContext hcontext
  obtain ⟨hstartName, hgives₁⟩ := names_initial (hsame.network ▸ hnumbered) hinitial
  have hnames₁ : ∀ e ∈ s₁.names, e.1 = s₀.hiddenBits start ∧ (e.2 = "start" ∨ Suits none e.2) := by
    obtain ⟨news, hnews, hall⟩ := hgives₁
    have hnone : s₀.names = [] := (hsame.names : s₀.names = (Sequencer.new n).names).trans hblank
    rw [hnews, hnone, List.append_nil]
    exact hall
  have hbits : s.hiddenBits start = s₀.hiddenBits start :=
    (hall₁.hiddenBits start).trans (hiddenBits_eq (does_initial hinitial).1 start)
  refine ⟨load, ready, halted, hne, hcont₃.traced, hstart.keeps hall₁.extension.network,
    hext₂.leads hc₁.leads, hcont₃.extension.leads hc₂.leads, hleads.1, (hall₁.stateName hapart start_mem_seen).trans hstartName,
    hleads.2, fun e he => ?_, s₁, htransits₁, hd₁.congr fun steps fin => ?_⟩
  · obtain ⟨news, hnews, hgiven⟩ := hall₁.gives
    rw [hnews, List.mem_append] at he
    rcases he with he | he
    · exact ⟨fun heq => absurd heq (hgiven e he).2.1, (hgiven e he).2.2⟩
    · obtain ⟨hstartBits, hname⟩ := hnames₁ e he
      refine ⟨fun _ => hstartBits.trans hbits.symm, fun op hop => ?_⟩
      rcases hname with hname | hname
      · rw [hname] at hop
        exact absurd hop (by cases op <;> decide)
      · cases hname.opcode op hop
  constructor
  · rintro ⟨more, ⟨rest, ⟨op, hpath, hfin⟩, rfl⟩, rfl⟩
    exact ⟨op, rest, hpath, rfl, hfin⟩
  · rintro ⟨op, rest, hpath, rfl, hfin⟩
    exact ⟨_, ⟨rest, ⟨op, hpath, hfin⟩, rfl⟩, rfl⟩

/-! ## Walks of the recorded automaton -/

/-- The recorded transits are a partial function. -/
theorem Leads.unique (hs : s.Traced start) {old a b : ControlState α} {condition : Option Condition}
    (ha : s.Leads old condition a) (hb : s.Leads old condition b) : a = b := by
  obtain ⟨x, hx, hxkey, rfl, -⟩ := ha
  obtain ⟨y, hy, hykey, rfl, -⟩ := hb
  rw [List.inj_on_of_nodup_map hs.keys hx hy (hxkey.trans hykey.symm)]

theorem Walk.head_eq (hs : s.Traced start) {step : ControlStep} {steps : List ControlStep} {states : List (ControlState α)}
    (h : s.Walk state (step :: steps) states) (hnext : s.Leads state step.condition next) :
    ∃ rest, states = next :: rest ∧ s.Walk next steps rest := by
  cases states with
  | nil => exact h.elim
  | cons x rest =>
    obtain rfl := h.1.leads.unique hs hnext
    exact ⟨rest, rfl, h.2⟩

namespace Recorded

variable {load halted : ControlState α}

/-- Every round of the table is a walk. -/
theorem walk_round (h : Recorded registers start load ready halted s) (op : Opcode) {o : Readings}
    (ho : o.Valid registers) : ∃ states, s.Walk start (op.round registers o) (load :: ready :: states) ∧
      (load :: ready :: states).getLast? = some (lastState start halted op) := by
  obtain ⟨s₀, -, hd⟩ := h.drawn
  obtain ⟨states, hwalk, -⟩ := hd.walks (op.round registers o) _ ⟨op, _, op.path_steps ho, rfl, rfl⟩
  obtain ⟨rest, heq, hrest⟩ := hwalk.head_eq h.traced h.toLoad
  obtain ⟨rest', rfl, -⟩ := hrest.head_eq h.traced h.toReady
  refine ⟨rest', heq ▸ hwalk, ?_⟩
  rw [← heq, List.getLast?_append, List.getLast?_singleton, Option.some_or]

/-- The last state of an instruction that goes round is `start`. -/
theorem walk_home (h : Recorded registers start load ready halted s) {op : Opcode} (hop : op ≠ .exit) {o : Readings}
    (ho : o.Valid registers) : ∃ states, s.Walk start (op.round registers o) (load :: ready :: (states ++ [start])) := by
  obtain ⟨states, hwalk, hlast⟩ := h.walk_round op ho
  rcases List.eq_nil_or_concat states with rfl | ⟨init, last, rfl⟩
  · -- some state follows `ready`
    obtain ⟨gates, rest, hsteps⟩ := exists_enter (op.path_steps ho)
    unfold Opcode.round at hwalk
    rw [hsteps] at hwalk
    exact hwalk.2.2.elim
  · rw [List.concat_eq_append] at hwalk hlast
    refine ⟨init, ?_⟩
    have hfin : last = lastState start halted op := by
      rw [← List.cons_append, ← List.cons_append, List.getLast?_concat] at hlast
      exact Option.some.inj hlast
    rw [hfin] at hwalk
    unfold lastState at hwalk
    rwa [if_neg hop] at hwalk

/-- After `exit` the automaton stays where it is. -/
theorem walk_exit (h : Recorded registers start load ready halted s) {o : Readings} (ho : o.Valid registers) :
    s.Walk start (Opcode.exit.round registers o) [load, ready, halted, halted] := by
  obtain ⟨states, hwalk, hlast⟩ := h.walk_round .exit ho
  obtain ⟨rest, rfl, hrest⟩ := hwalk.2.2.head_eq h.traced h.toHalted
  cases rest with
  | nil => exact hrest.elim
  | cons x rest =>
    cases rest with
    | nil =>
      obtain rfl : x = halted := Option.some.inj hlast
      exact hwalk
    | cons y rest => exact hrest.2.elim

/-- Every transit is a step of some round. -/
theorem passes (h : Recorded registers start load ready halted s) : ∀ x ∈ s.transits,
    ∃ (op : Opcode) (o : Readings), o.Valid registers ∧ ∃ states, s.Walk start (op.round registers o) states ∧ s.Passes x start (op.round registers o) states := by
  obtain ⟨s₀, hnone, hd⟩ := h.drawn
  intro x hx
  rcases hd.covers x hx with hold | ⟨steps, fin, ⟨op, rest, hpath, rfl, -⟩, states, hwalk, -, hpass⟩
  · rw [hnone] at hold
    cases hold
  · obtain ⟨o, ho, rfl⟩ := Opcode.exists_readings h.inhabited hpath
    exact ⟨op, o, ho, _, hwalk, hpass⟩

end Recorded

end Sequencer

namespace Network

open Sequencer

variable {α : Type} [Scalar α]

/-- The registers of a network with their names. -/
def namedRegisters (n : Network α) : List (LayerId × String) := n.registers.map fun r => (r, n.name r)

theorem transits_flash (s : Sequencer α) (verbose : Bool) :
    (s.flash verbose).value.transits = s.transits.length := by
  unfold Sequencer.flash
  rw [Noted.value_bind, Noted.value_bind]
  dsimp only
  split
  · rfl
  · split <;> rfl

/-- What compiling does. -/
theorem does_of_compile {n later : Network α} {verbose : Bool} {a : Automaton α}
    (h : (n.compile verbose).value = (.ok a, later)) : ∃ s : Sequencer α,
      Does (recordInstructions n.namedRegisters) (Sequencer.new n) a.start s ∧ s.network = later ∧
      a.transits = s.transits.length ∧ a.weights = (s.flash verbose).value.weights := by
  unfold compile at h
  dsimp only at h
  rcases hrecord : (recordInstructions (n.registers.map fun r => (r, n.name r))).run.run (Sequencer.new n) with ⟨e | start, s⟩
  · rw [hrecord] at h
    cases h
  · rw [hrecord] at h
    cases h
    exact ⟨s, hrecord, rfl, transits_flash s verbose, rfl⟩

/-- What compiling records. When the states it creates have different hidden bits, the recorded
transits are a partial function from states and conditions to states. From `start` it takes the
rounds of the table for every opcode and every choice of registers: each state is keyed on what
the table says and on nothing else, opens the default gates and those that the table lists, and
the last one is `start` again, after eleven ticks at most; `exit` leads to a state that leads to
itself. Every transit is a step of one of these rounds. -/
theorem compiled_rounds {config : Config α} {n : Network α} (hbuild : (Network.build config).value = .ok n)
    {verbose : Bool} {a : Automaton α} {later : Network α} (hcompile : (n.compile verbose).value = (.ok a, later)) :
    ∃ s : Sequencer α, (recordInstructions n.namedRegisters).run.run (Sequencer.new n) = (.ok a.start, s) ∧
      s.network = later ∧ a.transits = s.transits.length ∧ a.weights = (s.flash verbose).value.weights ∧
      (s.Apart a.start →
        (s.transits.map (·.key)).Nodup ∧ s.network.Opens a.start.gates [] ∧ ∃ load ready halted,
          (∀ (op : Opcode) (o : Readings), op ≠ .exit → o.Valid n.namedRegisters →
            ∃ states, s.Walk a.start (op.round n.namedRegisters o) (load :: ready :: (states ++ [a.start]))) ∧
          (∀ o : Readings, o.Valid n.namedRegisters →
            s.Walk a.start (Opcode.exit.round n.namedRegisters o) [load, ready, halted, halted]) ∧
          (∀ (op : Opcode) (o : Readings), (op.round n.namedRegisters o).length ≤ 11) ∧
          ∀ x ∈ s.transits, ∃ (op : Opcode) (o : Readings), o.Valid n.namedRegisters ∧ ∃ states,
            s.Walk a.start (op.round n.namedRegisters o) states ∧
            s.Passes x a.start (op.round n.namedRegisters o) states) := by
  have hbuilt := builtFrom_of_build hbuild
  obtain ⟨s, hdoes, hnet, hcount, hweights⟩ := does_of_compile hcompile
  have hnames : (n.namedRegisters.map (·.2)).Nodup := by
    unfold namedRegisters
    rw [List.map_map]
    exact hbuilt.nodup_names
  refine ⟨s, hdoes, hnet, hcount, hweights, fun hapart => ?_⟩
  obtain ⟨load, ready, halted, h⟩ := recorded_of_apart hbuilt.size_go hbuilt.numbered hbuilt.history_gh hnames hdoes hapart
  exact ⟨h.traced.keys, h.opens, load, ready, halted, fun op o hop ho => h.walk_home hop ho, fun o ho => h.walk_exit ho,
    Opcode.length_round n.namedRegisters, h.passes⟩

theorem value_compile {n : Network α} {start : ControlState α} {s : Sequencer α}
    (h : (recordInstructions n.namedRegisters).run.run (Sequencer.new n) = (.ok start, s)) (verbose : Bool) :
    (n.compile verbose).value = (.ok ⟨(s.flash verbose).value.weights, (s.flash verbose).value.errors,
      (s.flash verbose).value.transits, start⟩, s.network) := by
  unfold namedRegisters at h
  unfold compile
  dsimp only
  rw [h]
  rfl

/-- Whether a network compiles to states with different hidden bits. -/
def compilesApart (n : Network α) : Bool :=
  match (recordInstructions n.namedRegisters).run.run (Sequencer.new n) with
  | (.error _, _) => false
  | (.ok start, s) => decide ((s.seen start).card = s.named)

theorem apart_of_compilesApart {n : Network α} (h : n.compilesApart = true) (verbose : Bool) :
    ∃ (a : Automaton α) (later : Network α), (n.compile verbose).value = (.ok a, later) ∧
      ∀ s, (recordInstructions n.namedRegisters).run.run (Sequencer.new n) = (.ok a.start, s) → s.Apart a.start := by
  unfold compilesApart at h
  rcases hrecord : (recordInstructions n.namedRegisters).run.run (Sequencer.new n) with ⟨e | start, s⟩
  · rw [hrecord] at h
    cases h
  · rw [hrecord] at h
    refine ⟨_, _, value_compile hrecord verbose, fun s' h' => ?_⟩
    cases h'
    have hcard : (s.seen start).card = s.named := of_decide_eq_true h
    exact hcard

theorem compilesApart_smallNetwork : smallNetwork.compilesApart = true := by decide +kernel

/-- The one register of the small network, on both sides of a comparison that fails. -/
def smallReadings : Readings := ⟨(register 0, "r0"), (register 0, "r0"), false⟩

theorem valid_smallReadings : smallReadings.Valid smallNetwork.namedRegisters := by
  have hregisters : smallNetwork.namedRegisters = [(register 0, "r0")] := by decide +kernel
  rw [hregisters]
  exact ⟨List.mem_singleton.mpr rfl, List.mem_singleton.mpr rfl⟩

/-- What the small network compiles to goes round on every opcode and halts on `exit`. -/
theorem small_compiled_rounds : ∃ (a : Automaton Fixed) (s : Sequencer Fixed) (load ready halted : ControlState Fixed),
    (smallNetwork.compile false).value = (.ok a, s.network) ∧ s.Apart a.start ∧ (s.transits.map (·.key)).Nodup ∧
    (∃ states, s.Walk a.start (Opcode.cmpd.round smallNetwork.namedRegisters smallReadings)
      (load :: ready :: (states ++ [a.start]))) ∧
    s.Walk a.start (Opcode.exit.round smallNetwork.namedRegisters smallReadings) [load, ready, halted, halted] := by
  obtain ⟨a, later, hcompile, hapart⟩ := apart_of_compilesApart compilesApart_smallNetwork false
  obtain ⟨s, hrecord, rfl, -, -, h⟩ := compiled_rounds build_smallConfig hcompile
  obtain ⟨hkeys, -, load, ready, halted, hhome, hexit, -⟩ := h (hapart s hrecord)
  exact ⟨a, s, load, ready, halted, hcompile, hapart s hrecord, hkeys,
    hhome .cmpd smallReadings (by decide) valid_smallReadings, hexit smallReadings valid_smallReadings⟩

end Network

end Engram
