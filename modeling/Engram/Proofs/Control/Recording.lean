/-
  Engram.Proofs.Control.Recording — recording a plan draws its paths.

  By induction on the plan: from a state that no transit leaves yet, recording it adds exactly the
  walks of its paths (`draws`). The branches on a register are grown one by one, for the
  names of the registers differ; where branches meet, all of them are drawn to the meeting state
  before the plan goes on from there. That states are told apart is only known of the end, and
  so the first part shows that any recording extends what was there, whatever the states.
-/

import Engram.Proofs.Control.Walks

namespace Engram

open LayerId

namespace Sequencer

variable {α : Type} [Scalar α] {start state next : ControlState α} {s later : Sequencer α}
  {registers : List (LayerId × String)}

/-! ## What any recording leaves -/

/-- The recording went on from there. -/
structure Continues (start : ControlState α) (s later : Sequencer α) : Prop where
  extension : Extends start s later
  traced : later.Traced start

theorem Continues.trans {t : Sequencer α} (h : Continues start s t) (h' : Continues start t later) :
    Continues start s later :=
  ⟨h.extension.trans h'.extension, h'.traced⟩

theorem Continues.hiddenBits (h : Continues start s later) (state : ControlState α) :
    later.hiddenBits state = s.hiddenBits state := hiddenBits_eq h.extension.network state

theorem Continues.seen (h : Continues start s later) (hstate : s.hiddenBits state ∈ s.seen start) :
    later.hiddenBits state ∈ later.seen start := by
  rw [h.hiddenBits]
  exact h.extension.seen_subset hstate

/-- The recording went on from there and gave names to states that it created: none that was there before, and no
name of an opcode but to the state that the opcode leads to. -/
structure Advances (start : ControlState α) (s later : Sequencer α) : Prop extends Continues start s later where
  gives : Gives (fun bits name => (later.Apart start → bits ∉ s.seen start) ∧ name ≠ "start" ∧
    ∀ op : Opcode, name = op.mnemonic → ∃ x ∈ later.transits, x.key.condition = some ⟨opc, name⟩ ∧
      bits = later.hiddenBits x.target) s later

theorem Advances.refl (hs : s.Traced start) : Advances start s s := ⟨⟨.refl _, hs⟩, .refl _⟩

theorem Advances.trans {t : Sequencer α} (h : Advances start s t) (h' : Advances start t later) : Advances start s later := by
  refine ⟨h.toContinues.trans h'.toContinues, (h.gives.mono fun bits name hg => ?_).trans (h'.gives.mono fun bits name hg => ?_)⟩
  · refine ⟨fun hapart => hg.1 (h'.extension.apart h.traced hapart), hg.2.1, fun op hop => ?_⟩
    obtain ⟨x, hx, hkey, rfl⟩ := hg.2.2 op hop
    exact ⟨x, h'.extension.transits.subset hx, hkey, (hiddenBits_eq h'.extension.network _).symm⟩
  · exact ⟨fun hapart hmem => hg.1 hapart (h.extension.seen_subset hmem), hg.2⟩

/-- A state that was there before is still called what it was called. -/
theorem Advances.stateName (h : Advances start s later) (hapart : later.Apart start)
    (hstate : s.hiddenBits state ∈ s.seen start) : later.stateName state = s.stateName state := by
  obtain ⟨news, hnames, hnews⟩ := h.gives
  have hbits : (later.network.layer gh).bits state.hidden = s.hiddenBits state := h.hiddenBits state
  have hnone : news.lookup (s.hiddenBits state) = none := by
    rw [List.lookup_eq_none_iff]
    intro e he
    rw [bne_iff_ne]
    exact fun heq => (hnews e he).1 hapart (heq ▸ hstate)
  show (later.names.lookup ((later.network.layer gh).bits state.hidden)).getD unknownToken =
    (s.names.lookup (s.hiddenBits state)).getD unknownToken
  rw [hbits, hnames, List.lookup_append, hnone, Option.none_or]

theorem Same.advances (h : Same s later) (hs : s.Traced start) : Advances start s later := by
  refine ⟨?_, .of_names h.names⟩
  have hkeeps : s.network.Keeps (fun l _ => l ≠ gh) later.network := h.keeps
  have hseen : later.seen start = s.seen start := by
    ext bits
    rw [mem_seen, mem_seen, h.transits]
    simp only [hiddenBits_eq hkeeps]
  refine ⟨⟨hkeeps, h.transits ▸ List.prefix_rfl, by rw [hseen, h.named]⟩, ⟨?_, ?_, ?_, ?_, ?_⟩⟩
  · rw [hseen, h.named]
    exact hs.counted
  · rw [hseen, h.transits]
    exact hs.sources
  · rw [h.transits]
    exact hs.keys
  · rw [h.network]
    exact hs.gates
  · rw [h.network]
    exact hs.numbered

theorem Finds.advances {old : ControlState α} {condition : Option Condition} (h : Finds s later old condition next)
    (hs : s.Traced start) : Advances start s later ∧ later.hiddenBits next ∈ later.seen start := by
  have hcont : Advances start s later := Same.advances ⟨h.network, h.transits, h.named⟩ hs
  obtain ⟨x, hx, -, rfl⟩ := h.recorded
  exact ⟨hcont, hcont.seen (target_mem_seen hx)⟩

theorem Creates.advances {gates : List Gate} {old : ControlState α} {condition : Option Condition}
    (h : Creates s later gates old condition next) (hs : s.Traced start) (hold : s.hiddenBits old ∈ s.seen start) :
    Advances start s later ∧ later.hiddenBits next ∈ later.seen start := by
  refine ⟨⟨⟨h.extends, h.traced hs hold⟩, h.gives.mono fun bits name hg => ?_⟩, ?_⟩
  · obtain ⟨rfl, hsuits⟩ := hg
    refine ⟨h.not_seen hs, hsuits.start, fun op hop => ?_⟩
    obtain ⟨input, -, htransits⟩ := h.transits
    exact ⟨⟨s.key old condition, input, next⟩, by rw [htransits]; simp, hsuits.opcode op hop, (hiddenBits_eq h.network _).symm⟩
  · rw [h.seen, hiddenBits_eq h.network]
    exact Finset.mem_insert_self _ _

theorem advances_of_transit {gates : List Gate} {condition : Option Condition} {target : Option (ControlState α)}
    (h : Does (transit gates state condition target) s next later) (hs : s.Traced start)
    (hstate : s.hiddenBits state ∈ s.seen start) (htarget : ∀ t ∈ target, s.hiddenBits t ∈ s.seen start) :
    Advances start s later ∧ later.hiddenBits next ∈ later.seen start := by
  rcases does_transit hs.numbered h with ⟨t, -, hfinds⟩ | ⟨rfl, hadds, hnamed⟩ | ⟨rfl, hcreates⟩
  · exact hfinds.advances hs
  · have hnext := htarget next rfl
    have hcont : Advances start s later :=
      ⟨⟨hadds.extends_of_seen hnamed hnext, hadds.traced_of_seen hnamed hnext hs hstate⟩, .of_names (hadds.still hnamed)⟩
    exact ⟨hcont, hcont.seen hnext⟩
  · exact hcreates.advances hs hstate

theorem advances_of_dispatch {layer : LayerId} {token : String} (h : Does (dispatch state layer token) s next later)
    (hs : s.Traced start) (hstate : s.hiddenBits state ∈ s.seen start) :
    Advances start s later ∧ later.hiddenBits next ∈ later.seen start := by
  rcases does_dispatch hs.numbered h with hfinds | hcreates
  · exact hfinds.advances hs
  · exact hcreates.advances hs hstate

theorem advances_of_settle {ticks : Nat} (h : Does (settle state ticks) s next later) (hs : s.Traced start)
    (hstate : s.hiddenBits state ∈ s.seen start) :
    Advances start s later ∧ later.hiddenBits next ∈ later.seen start := by
  induction ticks generalizing state s with
  | zero =>
    obtain ⟨rfl, rfl⟩ := does_pure h
    exact ⟨.refl hs, hstate⟩
  | succ ticks ih =>
    obtain ⟨x, t, htransit, hsettle⟩ := does_bind h
    obtain ⟨hcont, hx⟩ := advances_of_transit htransit hs hstate (fun t ht => by cases ht)
    obtain ⟨hcont', hnext⟩ := ih hsettle hcont.traced hx
    exact ⟨hcont.trans hcont', hnext⟩

/-- One branch that runs into the state where branches meet. -/
def meetBranch (state : ControlState α) (layer : LayerId) (branch : LayerId → List Gate) (meet : List Gate)
    (meeting : Option (ControlState α)) (r : LayerId × String) : Sequencing α (Option (ControlState α)) := do
  let chosen ← dispatch state layer r.2
  let acting ← transit (branch r.1) chosen none none
  let reached ← transit meet acting none meeting
  return some (meeting.getD reached)

/-- The parts of a recording. -/
theorem does_meetBranch {layer : LayerId} {branch : LayerId → List Gate} {meet : List Gate}
    {meeting result : Option (ControlState α)} {r : LayerId × String}
    (h : Does (meetBranch state layer branch meet meeting r) s result later) :
    ∃ chosen acting reached t u, Does (dispatch state layer r.2) s chosen t ∧
      Does (transit (branch r.1) chosen none none) t acting u ∧
      Does (transit meet acting none meeting) u reached later ∧ result = some (meeting.getD reached) := by
  obtain ⟨chosen, t, hchosen, hrest⟩ := does_bind h
  obtain ⟨acting, u, hacting, hrest'⟩ := does_bind hrest
  obtain ⟨reached, v, hreached, hpure⟩ := does_bind hrest'
  obtain ⟨rfl, rfl⟩ := does_pure hpure
  exact ⟨chosen, acting, reached, t, u, hchosen, hacting, hreached, rfl⟩

theorem does_home {v : Unit} (h : Does (Plan.home.record registers start state) s v later) :
    ∃ next, Does (transit [] state none (some start)) s next later := by
  obtain ⟨next, t, htransit, hpure⟩ := does_bind h
  obtain ⟨-, rfl⟩ := does_pure hpure
  exact ⟨next, htransit⟩

theorem does_gather {layer : LayerId} {branch : LayerId → List Gate} {meet : List Gate} {rest : Plan} {v : Unit}
    (h : Does ((Plan.gather layer branch meet rest).record registers start state) s v later) :
    ∃ meeting t, Does (registers.foldlM (meetBranch state layer branch meet) none) s (some meeting) t ∧
      Does (rest.record registers start meeting) t v later := by
  obtain ⟨meeting, t, hfold, hrest⟩ := does_bind h
  cases meeting with
  | none => exact absurd hrest not_does_throw
  | some meeting => exact ⟨meeting, t, hfold, hrest⟩

theorem advances_of_meetBranch {layer : LayerId} {branch : LayerId → List Gate} {meet : List Gate}
    {meeting result : Option (ControlState α)} {r : LayerId × String}
    (h : Does (meetBranch state layer branch meet meeting r) s result later) (hs : s.Traced start)
    (hstate : s.hiddenBits state ∈ s.seen start) (hmeeting : ∀ m ∈ meeting, s.hiddenBits m ∈ s.seen start) :
    Advances start s later ∧ ∀ m ∈ result, later.hiddenBits m ∈ later.seen start := by
  obtain ⟨chosen, acting, reached, t, u, hchosen, hacting, hreached, rfl⟩ := does_meetBranch h
  obtain ⟨hc₁, hseen₁⟩ := advances_of_dispatch hchosen hs hstate
  obtain ⟨hc₂, hseen₂⟩ := advances_of_transit hacting hc₁.traced hseen₁ (fun t ht => by cases ht)
  obtain ⟨hc₃, hseen₃⟩ := advances_of_transit hreached hc₂.traced hseen₂ fun m hm =>
    (hc₁.trans hc₂).seen (hmeeting m hm)
  have hcont := hc₁.trans (hc₂.trans hc₃)
  refine ⟨hcont, fun m hm => ?_⟩
  obtain rfl := Option.some.inj hm
  cases meeting with
  | none => exact hseen₃
  | some m => exact hcont.seen (hmeeting m rfl)

theorem advances_of_meetBranches {layer : LayerId} {branch : LayerId → List Gate} {meet : List Gate}
    {meeting result : Option (ControlState α)}
    (h : Does (registers.foldlM (meetBranch state layer branch meet) meeting) s result later) (hs : s.Traced start)
    (hstate : s.hiddenBits state ∈ s.seen start) (hmeeting : ∀ m ∈ meeting, s.hiddenBits m ∈ s.seen start) :
    Advances start s later ∧ ∀ m ∈ result, later.hiddenBits m ∈ later.seen start := by
  induction registers generalizing meeting s with
  | nil =>
    obtain ⟨rfl, rfl⟩ := does_pure h
    exact ⟨.refl hs, hmeeting⟩
  | cons r rest ih =>
    obtain ⟨m, t, hbranch, hrest⟩ := does_bind h
    obtain ⟨hcont, hm⟩ := advances_of_meetBranch hbranch hs hstate hmeeting
    obtain ⟨hcont', hresult⟩ := ih hrest hcont.traced (hcont.seen hstate) hm
    exact ⟨hcont.trans hcont', hresult⟩

theorem advances_of_each {layer : LayerId} {branch : LayerId → Plan}
    (hbranch : ∀ r (state : ControlState α) (s later : Sequencer α) (v : Unit),
      Does ((branch r).record registers start state) s v later → s.Traced start → s.hiddenBits state ∈ s.seen start →
        Advances start s later) (l : List (LayerId × String)) {v : Unit}
    (h : Does (l.forM fun (r, name) => do
      let chosen ← dispatch state layer name
      (branch r).record registers start chosen) s v later)
    (hs : s.Traced start) (hstate : s.hiddenBits state ∈ s.seen start) : Advances start s later := by
  induction l generalizing s v with
  | nil =>
    obtain ⟨-, rfl⟩ := does_pure h
    exact .refl hs
  | cons r l ih =>
    obtain ⟨w, t, hdoes, hrest⟩ := does_bind h
    obtain ⟨chosen, t', hchosen, hrecord⟩ := does_bind hdoes
    obtain ⟨hcont, hseen⟩ := advances_of_dispatch hchosen hs hstate
    have hcont' := hcont.trans (hbranch r.1 _ _ _ _ hrecord hcont.traced hseen)
    exact hcont'.trans (ih hrest hcont'.traced (hcont'.seen hstate))

/-- Recording a plan goes on from what was there. -/
theorem advances_of_record (plan : Plan) {v : Unit} (h : Does (plan.record registers start state) s v later)
    (hs : s.Traced start) (hstate : s.hiddenBits state ∈ s.seen start) : Advances start s later := by
  induction plan generalizing state s v later with
  | home =>
    obtain ⟨next, htransit⟩ := does_home h
    exact (advances_of_transit htransit hs hstate fun t ht => by cases ht; exact start_mem_seen).1
  | act gates rest ih =>
    obtain ⟨next, t, htransit, hrest⟩ := does_bind h
    obtain ⟨hcont, hnext⟩ := advances_of_transit htransit hs hstate (fun t ht => by cases ht)
    exact hcont.trans (ih hrest hcont.traced hnext)
  | settle ticks rest ih =>
    obtain ⟨next, t, hsettle, hrest⟩ := does_bind h
    obtain ⟨hcont, hnext⟩ := advances_of_settle hsettle hs hstate
    exact hcont.trans (ih hrest hcont.traced hnext)
  | each layer branch ih =>
    exact advances_of_each (fun r _ _ _ _ => ih r) registers h hs hstate
  | gather layer branch meet rest ih =>
    obtain ⟨meeting, t, hfold, hrest⟩ := does_gather h
    obtain ⟨hcont, hseen⟩ := advances_of_meetBranches hfold hs hstate (fun m hm => by cases hm)
    exact hcont.trans (ih hrest hcont.traced (hseen meeting rfl))
  | choose layer idle taken gates rest ih =>
    obtain ⟨back, t, hback, hrest⟩ := does_bind h
    obtain ⟨hcont, -⟩ := advances_of_transit hback hs hstate fun t ht => by cases ht; exact start_mem_seen
    obtain ⟨next, u, htransit, hrecord⟩ := does_bind hrest
    obtain ⟨hcont', hnext⟩ := advances_of_transit htransit hcont.traced (hcont.seen hstate) (fun t ht => by cases ht)
    exact hcont.trans (hcont'.trans (ih hrecord hcont'.traced hnext))

/-! ## Transits from a state that is not used yet -/

theorem Unused.key_ne (h : s.Unused state) (condition : Option Condition) :
    ∀ x ∈ s.transits, x.key ≠ s.key state condition := by
  intro x hx heq
  refine h x hx ?_
  rw [heq]
  rfl

/-- A new state is not used yet. -/
theorem Creates.unused {gates : List Gate} {old : ControlState α} {condition : Option Condition}
    (h : Creates s later gates old condition next) (hs : s.Traced start) (hold : s.hiddenBits old ∈ s.seen start)
    (hlater : later.Apart start) : later.Unused next := by
  have hnext := h.not_seen hs hlater
  obtain ⟨input, -, htransits⟩ := h.transits
  intro x hx heq
  rw [hiddenBits_eq h.network] at heq
  rw [htransits, List.mem_append, List.mem_singleton] at hx
  rcases hx with hx | rfl
  · exact hnext (heq ▸ hs.sources x hx)
  · exact hnext (heq ▸ hold)

theorem adds_of_transit {gates : List Gate} {condition : Option Condition} {target : ControlState α}
    (h : Does (transit gates state condition (some target)) s next later) (hs : s.Traced start)
    (hnew : ∀ x ∈ s.transits, x.key ≠ s.key state condition) (htarget : s.hiddenBits target ∈ s.seen start) :
    Adds s later state condition target ∧ Extends start s later := by
  rcases does_transit hs.numbered h with ⟨t, -, hfinds⟩ | ⟨heq, hadds, hnamed⟩ | ⟨heq, -⟩
  · obtain ⟨x, hx, hkey, -⟩ := hfinds.recorded
    exact absurd hkey (hnew x hx)
  · obtain rfl := Option.some.inj heq
    exact ⟨hadds, hadds.extends_of_seen hnamed htarget⟩
  · cases heq

theorem creates_of_transit {gates : List Gate} {condition : Option Condition}
    (h : Does (transit gates state condition none) s next later) (hs : s.Traced start) :
    Creates s later gates state condition next := by
  rcases does_transit hs.numbered h with ⟨t, heq, -⟩ | ⟨heq, -⟩ | ⟨-, hcreates⟩
  · cases heq
  · cases heq
  · exact hcreates

theorem creates_of_dispatch {layer : LayerId} {token : String} (h : Does (dispatch state layer token) s next later)
    (hs : s.Traced start) (hnew : ∀ x ∈ s.transits, x.key ≠ s.key state (some ⟨layer, token⟩)) :
    Creates s later [] state (some ⟨layer, token⟩) next := by
  rcases does_dispatch hs.numbered h with hfinds | hcreates
  · obtain ⟨x, hx, hkey, -⟩ := hfinds.recorded
    exact absurd hkey (hnew x hx)
  · exact hcreates

/-- The only way from a state goes back. -/
theorem drawn_of_back (spare : ControlState α) {fin : ControlState α} {gates : List Gate} {condition : Option Condition}
    (hstate : s.hiddenBits state ∈ s.seen start) (hunused : s.Unused state) (ha : Adds s later state condition fin)
    (he : Extends start s later) (ho : later.network.Opens fin.gates gates) :
    Drawn start spare state (fun steps e => steps = [⟨condition, [condition], gates⟩] ∧ e = fin) s later := by
  refine (((Grown.nil hunused).back hstate (.refl _) ha he ho).drawn [condition] ?_).congr ?_
  · rintro c g r e (hw | ⟨rfl, -, -, -⟩)
    · exact hw.elim
    · exact List.mem_singleton_self _
  · intro steps e
    constructor
    · rintro ⟨c, g, r, hw | ⟨rfl, rfl, rfl, rfl⟩, rfl⟩
      · exact hw.elim
      · exact ⟨rfl, rfl⟩
    · rintro ⟨rfl, rfl⟩
      exact ⟨_, _, _, .inr ⟨rfl, rfl, rfl, rfl⟩, rfl⟩

/-- The only way from a state goes over a new one. -/
theorem drawn_of_new {spare : ControlState α} {gates : List Gate} {condition : Option Condition} {t : Sequencer α}
    {paths : List ControlStep → ControlState α → Prop} (hs : s.Traced start) (hstate : s.hiddenBits state ∈ s.seen start)
    (hunused : s.Unused state) (hc : Creates s t gates state condition next) (he : Extends start t later)
    (hd : Drawn start spare next paths t later) (hpaths : ∃ steps fin, paths steps fin) (ht : t.Apart start)
    (hne : s.hiddenBits next ≠ s.hiddenBits spare) :
    Drawn start spare state (fun steps e => ∃ rest, paths rest e ∧ steps = ⟨condition, [condition], gates⟩ :: rest)
      s later := by
  refine (((Grown.nil hunused).new hstate (.refl _) hs hc he hd hpaths ht hne).drawn
    [condition] ?_).congr ?_
  · rintro c g r e (hw | ⟨rfl, -, -⟩)
    · exact hw.elim
    · exact List.mem_singleton_self _
  · intro steps e
    constructor
    · rintro ⟨c, g, r, hw | ⟨rfl, rfl, hpath⟩, rfl⟩
      · exact hw.elim
      · exact ⟨r, hpath, rfl⟩
    · rintro ⟨rest, hpath, rfl⟩
      exact ⟨_, _, _, .inr ⟨rfl, rfl, hpath⟩, rfl⟩

/-! ## Recording a plan -/

theorem exists_path (hne : registers ≠ []) (plan : Plan) : ∃ steps, plan.Path registers steps := by
  obtain ⟨r, hr⟩ := List.exists_mem_of_ne_nil registers hne
  induction plan with
  | home => exact ⟨_, .home⟩
  | act gates rest ih =>
    obtain ⟨steps, h⟩ := ih
    exact ⟨_, .act h⟩
  | settle ticks rest ih =>
    obtain ⟨steps, h⟩ := ih
    exact ⟨_, .settle h⟩
  | each layer branch ih =>
    obtain ⟨steps, h⟩ := ih r.1
    exact ⟨_, .each r hr h⟩
  | gather layer branch meet rest ih =>
    obtain ⟨steps, h⟩ := ih
    exact ⟨_, .gather r hr h⟩
  | choose layer idle taken gates rest ih => exact ⟨_, .idle⟩

/-- The paths of a plan, which all end in `start`. -/
def pathsTo (registers : List (LayerId × String)) (start : ControlState α) (plan : Plan) (steps : List ControlStep)
    (fin : ControlState α) : Prop :=
  plan.Path registers steps ∧ fin = start

omit [Scalar α] in
theorem exists_pathsTo (hne : registers ≠ []) (start : ControlState α) (plan : Plan) :
    ∃ steps fin, pathsTo registers start plan steps fin := by
  obtain ⟨steps, h⟩ := exists_path hne plan
  exact ⟨steps, start, h, rfl⟩

/-- What recording the plan from a state draws, whatever was recorded before. -/
def Draws (registers : List (LayerId × String)) (start : ControlState α) (plan : Plan) : Prop :=
  ∀ {state : ControlState α} {s later : Sequencer α} {v : Unit}, Does (plan.record registers start state) s v later →
    s.Traced start → s.hiddenBits state ∈ s.seen start → s.Unused state → s.network.Opens start.gates [] →
    later.Apart start → Drawn start start state (pathsTo registers start plan) s later

/-- No new state is `start`. -/
theorem Creates.ne_start {gates : List Gate} {old : ControlState α} {condition : Option Condition}
    (h : Creates s later gates old condition next) (hs : s.Traced start) (hlater : later.Apart start) :
    s.hiddenBits next ≠ s.hiddenBits start := by
  intro heq
  refine h.not_seen hs hlater ?_
  rw [heq]
  exact start_mem_seen

theorem draws_home : Draws registers start .home := by
  intro state s later v h hs hstate hunused hstart hlater
  obtain ⟨next, htransit⟩ := does_home h
  obtain ⟨hadds, hext⟩ := adds_of_transit htransit hs (hunused.key_ne none) start_mem_seen
  refine (drawn_of_back start hstate hunused hadds hext (hstart.keeps hext.network)).congr fun steps fin => ?_
  exact ⟨fun h => ⟨h.1 ▸ .home, h.2⟩, fun h => ⟨h.1.of_home, h.2⟩⟩

/-- A tick on a way that goes on. -/
theorem draws_then {rest : Plan} (ih : Draws registers start rest) {gates : List Gate}
    {condition : Option Condition} {t : Sequencer α} {v : Unit} (hc : Creates s t gates state condition next)
    (hrest : Does (rest.record registers start next) t v later) (hs : s.Traced start)
    (hstate : s.hiddenBits state ∈ s.seen start) (hstart : s.network.Opens start.gates []) (hlater : later.Apart start) :
    Extends start t later ∧ t.Apart start ∧ s.hiddenBits next ≠ s.hiddenBits start ∧
      Drawn start start next (pathsTo registers start rest) t later := by
  obtain ⟨hcont, hnext⟩ := hc.advances hs hstate
  have hcont' := advances_of_record rest hrest hcont.traced hnext
  have ht := hcont'.extension.apart hcont.traced hlater
  exact ⟨hcont'.extension, ht, hc.ne_start hs ht, ih hrest hcont.traced hnext (hc.unused hs hstate ht)
    (hstart.keeps hcont.extension.network) hlater⟩

theorem draws_act (hne : registers ≠ []) {gates : List Gate} {rest : Plan} (ih : Draws registers start rest) :
    Draws registers start (.act gates rest) := by
  intro state s later v h hs hstate hunused hstart hlater
  obtain ⟨next, t, htransit, hrest⟩ := does_bind h
  have hc := creates_of_transit htransit hs
  obtain ⟨hext, ht, hnext, hd⟩ := draws_then ih hc hrest hs hstate hstart hlater
  refine (drawn_of_new hs hstate hunused hc hext hd (exists_pathsTo hne start rest) ht hnext).congr fun steps fin => ?_
  constructor
  · rintro ⟨more, ⟨hmore, hfin⟩, rfl⟩
    exact ⟨.act hmore, hfin⟩
  · rintro ⟨h, hfin⟩
    obtain ⟨more, hmore, rfl⟩ := h.of_act
    exact ⟨more, ⟨hmore, hfin⟩, rfl⟩

theorem draws_settle (hne : registers ≠ []) {rest : Plan} (ih : Draws registers start rest) (ticks : Nat) :
    Draws registers start (.settle ticks rest) := by
  induction ticks with
  | zero =>
    intro state s later v h hs hstate hunused hstart hlater
    obtain ⟨next, t, hsettle, hrest⟩ := does_bind h
    obtain ⟨rfl, rfl⟩ := does_pure hsettle
    refine (ih hrest hs hstate hunused hstart hlater).congr fun steps fin => ?_
    constructor
    · exact fun h => ⟨.settle h.1, h.2⟩
    · rintro ⟨h, hfin⟩
      obtain ⟨more, hmore, rfl⟩ := h.of_settle
      exact ⟨hmore, hfin⟩
  | succ ticks ihticks =>
    intro state s later v h hs hstate hunused hstart hlater
    obtain ⟨last, t, hsettle, hrest⟩ := does_bind h
    obtain ⟨next, u, htransit, hsettle'⟩ := does_bind hsettle
    -- the remaining ticks are a plan of their own
    have hrest' : Does ((Plan.settle ticks rest).record registers start next) u v later := does_of_bind hsettle' hrest
    have hc := creates_of_transit htransit hs
    obtain ⟨hext, ht, hnext, hd⟩ := draws_then ihticks hc hrest' hs hstate hstart hlater
    refine (drawn_of_new hs hstate hunused hc hext hd (exists_pathsTo hne start _) ht hnext).congr fun steps fin => ?_
    constructor
    · rintro ⟨more, ⟨hmore, hfin⟩, rfl⟩
      obtain ⟨last, hlast, rfl⟩ := hmore.of_settle
      exact ⟨.settle hlast, hfin⟩
    · rintro ⟨h, hfin⟩
      obtain ⟨more, hmore, rfl⟩ := h.of_settle
      exact ⟨_, ⟨.settle hmore, hfin⟩, rfl⟩

theorem draws_choose (hne : registers ≠ []) {layer : LayerId} {idle taken : String} {gates : List Gate} {rest : Plan}
    (ih : Draws registers start rest) : Draws registers start (.choose layer idle taken gates rest) := by
  intro state s later v h hs hstate hunused hstart hlater
  obtain ⟨back, t, hback, hafter⟩ := does_bind h
  obtain ⟨next, u, htransit, hrest⟩ := does_bind hafter
  obtain ⟨hadds, hext⟩ := adds_of_transit hback hs (hunused.key_ne _) start_mem_seen
  obtain ⟨hcont, -⟩ := advances_of_transit hback hs hstate fun t ht => by cases ht; exact start_mem_seen
  have hc := creates_of_transit htransit hcont.traced
  obtain ⟨hext', hu, hnext, hd⟩ := draws_then ih hc hrest hcont.traced (hcont.seen hstate)
    (hstart.keeps hext.network) hlater
  have hgrown := ((Grown.nil hunused).back hstate (.refl _) hadds hext (hstart.keeps hext.network)).new hstate hext
    hcont.traced hc hext' hd (exists_pathsTo hne start rest) hu hnext
  refine (hgrown.drawn [some ⟨layer, idle⟩, some ⟨layer, taken⟩] ?_).congr fun steps fin => ?_
  · rintro c g r e ((hw | ⟨rfl, -, -, -⟩) | ⟨rfl, -, -⟩)
    · exact hw.elim
    · simp
    · simp
  · constructor
    · rintro ⟨c, g, r, (hw | ⟨rfl, rfl, rfl, hfin⟩) | ⟨rfl, rfl, hpath, hfin⟩, rfl⟩
      · exact hw.elim
      · exact ⟨.idle, hfin⟩
      · exact ⟨.taken hpath, hfin⟩
    · rintro ⟨h, hfin⟩
      rcases h.of_choose with rfl | ⟨more, hmore, rfl⟩
      · exact ⟨_, _, _, .inl (.inr ⟨rfl, rfl, rfl, hfin⟩), rfl⟩
      · exact ⟨_, _, _, .inr ⟨rfl, rfl, hmore, hfin⟩, rfl⟩

/-! ## Branches on a register -/

/-- Branches on registers are grown one after the other. -/
theorem grown_of_each (hne : registers ≠ []) {layer : LayerId} {branch : LayerId → Plan}
    (ih : ∀ r, Draws registers start (branch r)) (l : List (LayerId × String)) (hl : (l.map (·.2)).Nodup)
    {ways : Option Condition → List Gate → List ControlStep → ControlState α → Prop} {t : Sequencer α} {v : Unit}
    (hnew : ∀ c g rest e, ways c g rest e → ∀ r ∈ l, c ≠ some ⟨layer, r.2⟩)
    (h : Does (l.forM fun (r, name) => do
      let chosen ← dispatch state layer name
      (branch r).record registers start chosen) t v later)
    (hstate : s.hiddenBits state ∈ s.seen start) (hst : Extends start s t) (ht : t.Traced start)
    (hgrown : Grown start start state ways s t) (hstart : t.network.Opens start.gates []) (hlater : later.Apart start) :
    Grown start start state (fun c g rest e => ways c g rest e ∨
      ∃ r ∈ l, c = some ⟨layer, r.2⟩ ∧ g = [] ∧ pathsTo registers start (branch r.1) rest e) s later := by
  induction l generalizing ways t v with
  | nil =>
    obtain ⟨-, rfl⟩ := does_pure h
    simpa using hgrown
  | cons r l ihl =>
    obtain ⟨w, u, hbranch, hrest⟩ := does_bind h
    obtain ⟨chosen, t₁, hchosen, hrecord⟩ := does_bind hbranch
    rw [List.map_cons, List.nodup_cons] at hl
    have hstate' : t.hiddenBits state ∈ t.seen start := by
      rw [hiddenBits_eq hst.network]
      exact hst.seen_subset hstate
    -- no earlier branch was for this register
    have hfresh : ∀ x ∈ t.transits, x.key ≠ t.key state (some ⟨layer, r.2⟩) := by
      intro x hx heq
      obtain ⟨c, g, rest, e, hw, hkey⟩ := hgrown.only x hx (by rw [heq]; rfl)
      rw [hkey] at heq
      exact hnew c g rest e hw r List.mem_cons_self (congrArg TransitKey.condition heq)
    have hc := creates_of_dispatch hchosen ht hfresh
    obtain ⟨hcont₁, hseen₁⟩ := hc.advances ht hstate'
    have hcont₂ := advances_of_record _ hrecord hcont₁.traced hseen₁
    have hcont := hcont₁.trans hcont₂
    have hlast := (advances_of_each (fun r _ _ _ _ => advances_of_record (branch r)) l hrest hcont.traced
      (hcont.seen hstate')).extension
    have hu := hlast.apart hcont.traced hlater
    obtain ⟨hext, ht₁, hnext, hd⟩ := draws_then (ih r.1) hc hrecord ht hstate' hstart hu
    have hgrown' := hgrown.new hstate hst ht hc hext hd (exists_pathsTo hne start _) ht₁ hnext
    have hnew' : ∀ c g rest e, (ways c g rest e ∨ (c = some ⟨layer, r.2⟩ ∧ g = [] ∧
        pathsTo registers start (branch r.1) rest e)) → ∀ q ∈ l, c ≠ some ⟨layer, q.2⟩ := by
      rintro c g rest e (hw | ⟨rfl, -, -⟩) q hq heq
      · exact hnew c g rest e hw q (List.mem_cons_of_mem _ hq) heq
      · have hname : r.2 = q.2 := congrArg Condition.token (Option.some.inj heq)
        exact hl.1 (hname ▸ List.mem_map_of_mem hq)
    refine (ihl hl.2 hnew' hrest (hst.trans hcont.extension) hcont.traced hgrown'
      (hstart.keeps hcont.extension.network)).congr fun c g rest e => ?_
    simp only [List.mem_cons, exists_eq_or_imp, or_assoc]

theorem draws_each (hne : registers ≠ []) (hnames : (registers.map (·.2)).Nodup) {layer : LayerId}
    {branch : LayerId → Plan} (ih : ∀ r, Draws registers start (branch r)) :
    Draws registers start (.each layer branch) := by
  intro state s later v h hs hstate hunused hstart hlater
  have hgrown := grown_of_each hne ih registers hnames (fun _ _ _ _ hw => hw.elim) h hstate (.refl _) hs (.nil hunused)
    hstart hlater
  refine (hgrown.drawn (registers.map fun r => some ⟨layer, r.2⟩) ?_).congr fun steps fin => ?_
  · rintro c g rest e (hw | ⟨r, hr, rfl, -, -⟩)
    · exact hw.elim
    · exact List.mem_map.mpr ⟨r, hr, rfl⟩
  · constructor
    · rintro ⟨c, g, rest, hw | ⟨r, hr, rfl, rfl, hpath, hfin⟩, rfl⟩
      · exact hw.elim
      · exact ⟨.each r hr hpath, hfin⟩
    · rintro ⟨h, hfin⟩
      obtain ⟨r, hr, more, hpath, rfl⟩ := h.of_each
      exact ⟨_, _, _, .inr ⟨r, hr, rfl, rfl, hpath, hfin⟩, rfl⟩

/-! ## Branches that meet -/

/-- One branch draws the walk over its two states to the meeting state, which is the given one or
else a new one. -/
theorem drawn_of_meetBranch {layer : LayerId} {branch : LayerId → List Gate} {meet : List Gate}
    {meeting result : Option (ControlState α)} {r : LayerId × String}
    (h : Does (meetBranch state layer branch meet meeting r) s result later) (hs : s.Traced start)
    (hstate : s.hiddenBits state ∈ s.seen start) (hnew : ∀ x ∈ s.transits, x.key ≠ s.key state (some ⟨layer, r.2⟩))
    (hmeeting : ∀ m ∈ meeting, s.hiddenBits m ∈ s.seen start ∧ s.network.Opens m.gates meet)
    (hlater : later.Apart start) :
    ∃ m chosen t, result = some m ∧ (meeting = some m ∨ (meeting = none ∧ s.hiddenBits m ∉ s.seen start)) ∧
      later.network.Opens m.gates meet ∧ Creates s t [] state (some ⟨layer, r.2⟩) chosen ∧ Extends start t later ∧
      t.Apart start ∧ s.hiddenBits chosen ≠ s.hiddenBits m ∧
      Drawn start m chosen (fun steps e => steps = [.tick (branch r.1), .tick meet] ∧ e = m) t later := by
  obtain ⟨chosen, acting, reached, t, u, hchosen, hacting, hreached, rfl⟩ := does_meetBranch h
  have hc₁ := creates_of_dispatch hchosen hs hnew
  obtain ⟨hcont₁, hseen₁⟩ := hc₁.advances hs hstate
  have hc₂ := creates_of_transit hacting hcont₁.traced
  obtain ⟨hcont₂, hseen₂⟩ := hc₂.advances hcont₁.traced hseen₁
  obtain ⟨hcont₃, -⟩ := advances_of_transit hreached hcont₂.traced hseen₂ fun m hm =>
    (hcont₁.trans hcont₂).seen (hmeeting m hm).1
  have hu := hcont₃.extension.apart hcont₂.traced hlater
  have ht := hcont₂.extension.apart hcont₁.traced hu
  have hunused₁ := hc₁.unused hs hstate ht
  have hunused₂ := hc₂.unused hcont₁.traced hseen₁ hu
  have hbits₁ : ∀ st, t.hiddenBits st = s.hiddenBits st := hcont₁.hiddenBits
  have hbits₂ : ∀ st, u.hiddenBits st = t.hiddenBits st := hcont₂.hiddenBits
  -- the walk from the branch, once the way from its second state is known
  have hwalk : ∀ m, t.hiddenBits acting ≠ t.hiddenBits m →
      Drawn start m acting (fun steps e => steps = [.tick meet] ∧ e = m) u later →
      Drawn start m chosen (fun steps e => steps = [.tick (branch r.1), .tick meet] ∧ e = m) t later := by
    intro m hne hd
    refine (drawn_of_new hcont₁.traced hseen₁ hunused₁ hc₂ hcont₃.extension hd ⟨_, _, rfl, rfl⟩ hu hne).congr
      fun steps e => ?_
    constructor
    · rintro ⟨rest, ⟨rfl, hfin⟩, rfl⟩
      exact ⟨rfl, hfin⟩
    · rintro ⟨rfl, hfin⟩
      exact ⟨_, ⟨rfl, hfin⟩, rfl⟩
  cases meeting with
  | none =>
    have hc₃ := creates_of_transit hreached hcont₂.traced
    have hfresh := hc₃.not_seen hcont₂.traced hlater
    have hne₁ : s.hiddenBits chosen ≠ s.hiddenBits reached := by
      rw [← hbits₁, ← hbits₁, ← hbits₂, ← hbits₂]
      exact fun heq => hfresh (heq ▸ hcont₂.seen hseen₁)
    have hne₂ : t.hiddenBits acting ≠ t.hiddenBits reached := by
      rw [← hbits₂, ← hbits₂]
      exact fun heq => hfresh (heq ▸ hseen₂)
    have hopens := (hc₃.gates_open hcont₂.traced).keeps hc₃.network
    have hd := drawn_of_back reached hseen₂ hunused₂ hc₃.toAdds hc₃.extends hopens
    refine ⟨reached, chosen, t, rfl, .inr ⟨rfl, fun hmem => hfresh ?_⟩, hopens, hc₁, hcont₂.extension.trans
      hcont₃.extension, ht, hne₁, hwalk reached hne₂ hd⟩
    exact (hcont₁.trans hcont₂).seen hmem
  | some m =>
    obtain ⟨hm, hopens⟩ := hmeeting m rfl
    have hm₂ := (hcont₁.trans hcont₂).seen hm
    obtain ⟨hadds, hext⟩ := adds_of_transit hreached hcont₂.traced (hunused₂.key_ne none) hm₂
    have hne₁ : s.hiddenBits chosen ≠ s.hiddenBits m := fun heq => hc₁.not_seen hs ht (heq ▸ hm)
    have hne₂ : t.hiddenBits acting ≠ t.hiddenBits m := fun heq =>
      hc₂.not_seen hcont₁.traced hu (heq ▸ hcont₁.seen hm)
    have hopens' := hopens.keeps (hcont₁.trans (hcont₂.trans hcont₃)).extension.network
    have hd := drawn_of_back m hseen₂ hunused₂ hadds hext hopens'
    exact ⟨m, chosen, t, rfl, .inl rfl, hopens', hc₁, hcont₂.extension.trans hcont₃.extension, ht, hne₁,
      hwalk m hne₂ hd⟩

/-- More branches to a meeting state. -/
theorem grown_of_meetBranches {layer : LayerId} {branch : LayerId → List Gate} {meet : List Gate} {m : ControlState α}
    {result : Option (ControlState α)} (l : List (LayerId × String)) (hl : (l.map (·.2)).Nodup)
    {ways : Option Condition → List Gate → List ControlStep → ControlState α → Prop} {t : Sequencer α}
    (hnew : ∀ c g rest e, ways c g rest e → ∀ r ∈ l, c ≠ some ⟨layer, r.2⟩)
    (h : Does (l.foldlM (meetBranch state layer branch meet) (some m)) t result later)
    (hstate : s.hiddenBits state ∈ s.seen start) (hst : Extends start s t) (ht : t.Traced start)
    (hgrown : Grown start m state ways s t) (hm : t.hiddenBits m ∈ t.seen start) (hopens : t.network.Opens m.gates meet)
    (hlater : later.Apart start) :
    result = some m ∧ Extends start t later ∧ later.network.Opens m.gates meet ∧
      Grown start m state (fun c g rest e => ways c g rest e ∨
        ∃ r ∈ l, c = some ⟨layer, r.2⟩ ∧ g = [] ∧ rest = [.tick (branch r.1), .tick meet] ∧ e = m) s later := by
  induction l generalizing ways t with
  | nil =>
    obtain ⟨rfl, rfl⟩ := does_pure h
    exact ⟨rfl, .refl _, hopens, by simpa using hgrown⟩
  | cons r l ihl =>
    obtain ⟨m', u, hbranch, hrest⟩ := does_bind h
    rw [List.map_cons, List.nodup_cons] at hl
    have hstate' : t.hiddenBits state ∈ t.seen start := by
      rw [hiddenBits_eq hst.network]
      exact hst.seen_subset hstate
    have hfresh : ∀ x ∈ t.transits, x.key ≠ t.key state (some ⟨layer, r.2⟩) := by
      intro x hx heq
      obtain ⟨c, g, rest, e, hw, hkey⟩ := hgrown.only x hx (by rw [heq]; rfl)
      rw [hkey] at heq
      exact hnew c g rest e hw r List.mem_cons_self (congrArg TransitKey.condition heq)
    obtain ⟨hcont, hseen⟩ := advances_of_meetBranch hbranch ht hstate' fun x hx => by
      obtain rfl := Option.some.inj hx
      exact hm
    have hlast := (advances_of_meetBranches hrest hcont.traced (hcont.seen hstate') hseen).1.extension
    have hu := hlast.apart hcont.traced hlater
    obtain ⟨x, chosen, t₁, rfl, hsame, hopens', hc, hext, ht₁, hne, hd⟩ := drawn_of_meetBranch hbranch ht hstate' hfresh
      (fun x hx => by obtain rfl := Option.some.inj hx; exact ⟨hm, hopens⟩) hu
    obtain rfl : m = x := by
      rcases hsame with hsame | ⟨hnone, -⟩
      · exact Option.some.inj hsame
      · cases hnone
    have hgrown' := hgrown.new hstate hst ht hc hext hd ⟨_, _, rfl, rfl⟩ ht₁ hne
    have hnew' : ∀ c g rest e, (ways c g rest e ∨ (c = some ⟨layer, r.2⟩ ∧ g = [] ∧
        rest = [.tick (branch r.1), .tick meet] ∧ e = m)) → ∀ q ∈ l, c ≠ some ⟨layer, q.2⟩ := by
      rintro c g rest e (hw | ⟨rfl, -, -⟩) q hq heq
      · exact hnew c g rest e hw q (List.mem_cons_of_mem _ hq) heq
      · have hname : r.2 = q.2 := congrArg Condition.token (Option.some.inj heq)
        exact hl.1 (hname ▸ List.mem_map_of_mem hq)
    obtain ⟨hresult, hext', hopens'', hfinal⟩ := ihl hl.2 hnew' hrest (hst.trans hcont.extension) hcont.traced hgrown'
      (hcont.seen hm) hopens'
    refine ⟨hresult, hcont.extension.trans hext', hopens'', hfinal.congr fun c g rest e => ?_⟩
    simp only [List.mem_cons, exists_eq_or_imp, or_assoc]

/-- All branches are drawn to the meeting state, from which nothing leads on yet. -/
theorem drawn_of_meetBranches (hne : registers ≠ []) (hnames : (registers.map (·.2)).Nodup) {layer : LayerId}
    {branch : LayerId → List Gate} {meet : List Gate} {m : ControlState α}
    (h : Does (registers.foldlM (meetBranch state layer branch meet) none) s (some m) later) (hs : s.Traced start)
    (hstate : s.hiddenBits state ∈ s.seen start) (hunused : s.Unused state) (hlater : later.Apart start) :
    s.hiddenBits m ∉ s.seen start ∧ Drawn start m state (fun steps e => (∃ r ∈ registers, steps =
      [.on registers layer r, .tick (branch r.1), .tick meet]) ∧ e = m) s later := by
  obtain ⟨r, l, hregisters⟩ := List.exists_cons_of_ne_nil hne
  rw [hregisters] at h
  obtain ⟨m', u, hbranch, hrest⟩ := does_bind h
  obtain ⟨hcont, hseen⟩ := advances_of_meetBranch hbranch hs hstate (fun x hx => by cases hx)
  have hlast := (advances_of_meetBranches hrest hcont.traced (hcont.seen hstate) hseen).1.extension
  have hu := hlast.apart hcont.traced hlater
  obtain ⟨x, chosen, t₁, rfl, hfirst, hopens, hc, hext, ht₁, hchosen, hd⟩ := drawn_of_meetBranch hbranch hs hstate
    (hunused.key_ne _) (fun x hx => by cases hx) hu
  have hfresh : s.hiddenBits x ∉ s.seen start := by
    rcases hfirst with hsome | ⟨-, hfresh⟩
    · cases hsome
    · exact hfresh
  rw [hregisters, List.map_cons, List.nodup_cons] at hnames
  have hgrown := (Grown.nil hunused).new hstate (.refl _) hs hc hext hd ⟨_, _, rfl, rfl⟩ ht₁ hchosen
  have hnew : ∀ (c : Option Condition) (g : List Gate) (rest : List ControlStep) (e : ControlState α),
      (False ∨ (c = some ⟨layer, r.2⟩ ∧ g = [] ∧ rest = [.tick (branch r.1), .tick meet] ∧ e = x)) →
      ∀ q ∈ l, c ≠ some ⟨layer, q.2⟩ := by
    rintro c g rest e (hw | ⟨rfl, -, -⟩) q hq heq
    · exact hw
    · have hname : r.2 = q.2 := congrArg Condition.token (Option.some.inj heq)
      exact hnames.1 (hname ▸ List.mem_map_of_mem hq)
  obtain ⟨hresult, -, -, hall⟩ := grown_of_meetBranches l hnames.2 hnew hrest hstate hcont.extension hcont.traced hgrown
    (hseen x rfl) hopens hlater
  obtain rfl := Option.some.inj hresult
  refine ⟨hfresh, (hall.drawn (registers.map fun r => some ⟨layer, r.2⟩) ?_).congr fun steps e => ?_⟩
  · rw [hregisters]
    rintro c g rest e ((hw | ⟨rfl, -, -⟩) | ⟨q, hq, rfl, -, -⟩)
    · exact hw.elim
    · simp
    · exact List.mem_map.mpr ⟨q, List.mem_cons_of_mem _ hq, rfl⟩
  · rw [hregisters]
    constructor
    · rintro ⟨c, g, rest, (hw | ⟨rfl, rfl, rfl, hfin⟩) | ⟨q, hq, rfl, rfl, rfl, hfin⟩, rfl⟩
      · exact hw.elim
      · exact ⟨⟨r, List.mem_cons_self, rfl⟩, hfin⟩
      · exact ⟨⟨q, List.mem_cons_of_mem _ hq, rfl⟩, hfin⟩
    · rintro ⟨⟨q, hq, rfl⟩, hfin⟩
      rcases List.mem_cons.mp hq with rfl | hq
      · exact ⟨_, _, _, .inl (.inr ⟨rfl, rfl, rfl, hfin⟩), rfl⟩
      · exact ⟨_, _, _, .inr ⟨q, hq, rfl, rfl, rfl, hfin⟩, rfl⟩

/-- Nothing leads on from the meeting state yet. -/
theorem unused_of_meetBranches (hne : registers ≠ []) (hnames : (registers.map (·.2)).Nodup) {layer : LayerId}
    {branch : LayerId → List Gate} {meet : List Gate} {m : ControlState α}
    (h : Does (registers.foldlM (meetBranch state layer branch meet) none) s (some m) later) (hs : s.Traced start)
    (hstate : s.hiddenBits state ∈ s.seen start) (hunused : s.Unused state) (hlater : later.Apart start) :
    later.hiddenBits m ∉ s.seen start ∧ later.Unused m := by
  obtain ⟨hcont, -⟩ := advances_of_meetBranches h hs hstate (fun x hx => by cases hx)
  obtain ⟨hfresh, hd⟩ := drawn_of_meetBranches hne hnames h hs hstate hunused hlater
  have hfresh' : later.hiddenBits m ∉ s.seen start := by
    rw [hcont.hiddenBits]
    exact hfresh
  refine ⟨hfresh', fun x hx heq => ?_⟩
  rcases hd.frame x hx with hx | hx | hx
  · exact hfresh' (heq ▸ hs.sources x hx)
  · refine hfresh' ?_
    rw [← heq, hx, hcont.hiddenBits]
    exact hstate
  · exact hx.2 heq

theorem draws_gather (hne : registers ≠ []) (hnames : (registers.map (·.2)).Nodup) {layer : LayerId}
    {branch : LayerId → List Gate} {meet : List Gate} {rest : Plan} (ih : Draws registers start rest) :
    Draws registers start (.gather layer branch meet rest) := by
  intro state s later v h hs hstate hunused hstart hlater
  obtain ⟨m, t, hfold, hrest⟩ := does_gather h
  obtain ⟨hcont, hseen⟩ := advances_of_meetBranches hfold hs hstate (fun x hx => by cases hx)
  have hm := hseen m rfl
  have hcont' := advances_of_record rest hrest hcont.traced hm
  have ht := hcont'.extension.apart hcont.traced hlater
  obtain ⟨-, hd⟩ := drawn_of_meetBranches hne hnames hfold hs hstate hunused ht
  obtain ⟨hfresh', hunused'⟩ := unused_of_meetBranches hne hnames hfold hs hstate hunused ht
  have hnew : New start start s t m := by
    refine ⟨hm, hfresh', fun heq => hfresh' ?_⟩
    rw [heq, hcont.hiddenBits]
    exact start_mem_seen
  have hd' := ih hrest hcont.traced hm hunused' (hstart.keeps hcont.extension.network) hlater
  obtain ⟨r, hr⟩ := List.exists_mem_of_ne_nil registers hne
  refine (hd.andThen hd' hcont.extension hcont'.extension hstate hnew start_mem_seen ⟨_, r, hr, rfl⟩
    (exists_pathsTo hne start rest)).congr fun steps fin => ?_
  constructor
  · rintro ⟨p, q, ⟨r, hr, rfl⟩, ⟨hq, hfin⟩, rfl⟩
    exact ⟨.gather r hr hq, hfin⟩
  · rintro ⟨h, hfin⟩
    obtain ⟨r, hr, more, hmore, rfl⟩ := h.of_gather
    exact ⟨_, _, ⟨r, hr, rfl⟩, ⟨hmore, hfin⟩, rfl⟩

/-- Recording a plan from a state that is not used yet draws the paths of the plan. -/
theorem draws (hne : registers ≠ []) (hnames : (registers.map (·.2)).Nodup) (plan : Plan) :
    Draws registers start plan := by
  induction plan with
  | home => exact draws_home
  | act gates rest ih => exact draws_act hne ih
  | settle ticks rest ih => exact draws_settle hne ih ticks
  | each layer branch ih => exact draws_each hne hnames ih
  | gather layer branch meet rest ih => exact draws_gather hne hnames ih
  | choose layer idle taken gates rest ih => exact draws_choose hne ih

end Sequencer

end Engram
