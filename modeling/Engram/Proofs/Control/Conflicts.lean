/-
  Engram.Proofs.Control.Conflicts — recording the instruction set fails only at states that are not
  told apart.

  The gates of legal plans are there, what a state reads is what it is keyed on, and no two routines
  use a condition layer in different ways. So recording stops at a conflict if it stops at all. A
  conflict is with a transit of the same key. From a state that is told apart from all others only
  its own plan leads on, and a plan records nothing twice; so where recording stops, there are two
  states with the same hidden bits (`stops`, `clash_of_instructions`).
-/

import Engram.Proofs.Control.Compiled
import Engram.Proofs.Control.Keying

namespace Engram

open LayerId

namespace Sequencer

variable {α : Type} [Scalar α] {start ready state next : ControlState α} {s t later : Sequencer α}
  {registers : List (LayerId × String)} {n : Network α} {units gates : List Gate} {read read' : Option LayerId}
  {condition : Option Condition} {e : Fault α}

/-- Nothing is recorded from the state under the condition. -/
def Vacant (s : Sequencer α) (state : ControlState α) (condition : Option Condition) : Prop :=
  ∀ x ∈ s.transits, x.key ≠ s.key state condition

/-- A state from which a plan is to be recorded, and what it reads. -/
structure Poised (n : Network α) (units : List Gate) (ready start : ControlState α) (read : Option LayerId)
    (s : Sequencer α) (state : ControlState α) : Prop where
  traced : s.Traced start
  seen : s.hiddenBits state ∈ s.seen start
  legible : Legible units s.network
  ordered : Ordered n ready s
  opens : ∃ gates, s.network.Opens state.gates gates ∧ LetsIn gates read

/-- Recording from the state stopped at a conflict. If nothing led on from the state before, then
two states have the same hidden bits. -/
structure Clash (start state : ControlState α) (s later : Sequencer α) (e : Fault α) : Prop where
  conflict : e.IsConflict
  continues : Continues start s later
  apart : s.Unused state → ¬ later.Apart start

namespace Poised

theorem size_go (h : Poised n units ready start read s state) : n.size go = n.gates.size := by
  rw [← h.ordered.keeps.size, ← h.ordered.keeps.gates]
  exact h.traced.gates

theorem keyed (h : Poised n units ready start read s state) (condition : Option Condition)
    (hread : condition.map (·.layer) = read) (hlayer : ∀ c ∈ condition, c.layer ∈ conditions) : Keyed s.network state condition := by
  obtain ⟨gates, hopens, hreads⟩ := h.opens
  exact keyed_of_opens h.legible hopens hlayer (hread ▸ hreads)

/-- The state is still there when recording has gone on. -/
theorem still (h : Poised n units ready start read s state) (hcont : Continues start s t) (hordered : Ordered n ready t) :
    Poised n units ready start read t state := by
  obtain ⟨gates, hopens, hreads⟩ := h.opens
  exact ⟨hcont.traced, hcont.seen h.seen, h.legible.keeps hcont.extension.network, hordered, gates,
    hopens.keeps hcont.extension.network, hreads⟩

/-- A state that is created opens what it is to read. -/
theorem created (h : Poised n units ready start read s state) (hc : Creates s t gates state condition next)
    (hordered : Ordered n ready t) (hallowed : Allowed units gates read') : Poised n units ready start read' t next := by
  obtain ⟨hcont, hseen⟩ := hc.advances h.traced h.seen
  exact ⟨hcont.traced, hseen, h.legible.keeps hc.network, hordered, gates,
    (hc.gates_open h.traced).keeps hc.network, hallowed.reads⟩

/-- A transit fails only if there is one already. -/
theorem fails_transit (h : Poised n units ready start read s state) (condition : Option Condition)
    (hread : condition.map (·.layer) = read) (hlayer : ∀ c ∈ condition, c.layer ∈ conditions)
    (hclaim : ∀ c ∈ condition, ∀ k, s.keying.lookup c.layer = some k → k = .select (s.hiddenBits state))
    (hgates : gates ⊆ units) {target : Option (ControlState α)} (hfails : Fails (transit gates state condition target) s e later) :
    e.IsConflict ∧ Continues start s later ∧ ¬ s.Vacant state condition := by
  obtain ⟨hconflict, hsame, x, hx, hkey⟩ := fails_of_transit h.legible hgates (h.keyed condition hread hlayer) hclaim hfails
  exact ⟨hconflict, (hsame.advances h.traced).toContinues, fun hvacant => hvacant x hx hkey⟩

theorem clash_plain (h : Poised n units ready start none s state) (hgates : gates ⊆ units)
    {target : Option (ControlState α)} (hfails : Fails (transit gates state none target) s e later) :
    Clash start state s later e := by
  obtain ⟨hconflict, hcont, hfound⟩ := h.fails_transit none rfl (fun c hc => (Option.not_mem_none c hc).elim)
    (fun c hc => (Option.not_mem_none c hc).elim) hgates hfails
  exact ⟨hconflict, hcont, fun hunused => absurd (hunused.key_ne none) hfound⟩

/-- A way that goes over a new state stops where the way from that state stops. -/
theorem clash_created (h : Poised n units ready start read s state) (hc : Creates s t gates state condition next)
    (hclash : Clash start next t later e) : e.IsConflict ∧ Continues start s later ∧ ¬ later.Apart start := by
  obtain ⟨hcont, -⟩ := hc.advances h.traced h.seen
  exact ⟨hclash.conflict, hcont.toContinues.trans hclash.continues, fun hapart =>
    hclash.apart (hc.unused h.traced h.seen (hclash.continues.extension.apart hcont.traced hapart)) hapart⟩

/-- A plain transit to a new state. -/
theorem does_plain (h : Poised n units ready start none s state) (hallowed : Allowed units gates read')
    (hdoes : Does (transit gates state none none) s next t) :
    Creates s t gates state none next ∧ Poised n units ready start read' t next := by
  have hc := creates_of_transit hdoes h.traced
  exact ⟨hc, h.created hc ((ordered_plain gates state none).of_does hdoes h.ordered).1 hallowed⟩

theorem not_fails_dispatch {layer : LayerId} (h : Poised n units ready start (some layer) s state)
    (hlayer : layer ∈ operandLayers) {token : String} : ¬ Fails (dispatch state layer token) s e later := by
  have hconditions : ∀ l ∈ operandLayers, l ∈ conditions := by decide
  exact Sequencer.not_fails_dispatch h.legible (h.keyed (some ⟨layer, token⟩) rfl fun c hc =>
    Option.some.inj hc ▸ hconditions layer hlayer) (h.ordered.operand layer hlayer)

/-- A dispatch leads to a state that reads nothing, be it new or not. -/
theorem dispatched {layer : LayerId} (h : Poised n units ready start (some layer) s state)
    (hlayer : layer ∈ operandLayers) {token : String} (hdoes : Does (dispatch state layer token) s next t) :
    Continues start s t ∧ Poised n units ready start none t next := by
  obtain ⟨hcont, hseen⟩ := advances_of_dispatch hdoes h.traced h.seen
  obtain ⟨hordered, hopens⟩ := (ordered_dispatch h.size_go hlayer state token).of_does hdoes h.ordered
  exact ⟨hcont.toContinues, hcont.traced, hseen, h.legible.keeps hcont.extension.network, hordered, [], hopens.keeps hordered.keeps,
    letsIn_nil⟩

end Poised

/-! ## Where plans stop -/

/-- Recording the plan stops only at a conflict. -/
def Stops (n : Network α) (units : List Gate) (ready start : ControlState α) (registers : List (LayerId × String))
    (plan : Plan) : Prop :=
  ∀ {first : Bool} {read : Option LayerId} {state : ControlState α} {s later : Sequencer α} {e : Fault α},
    plan.Legal units (registers.map (·.1)) first read → (first = true → ¬ plan.Avoids co → s.Unclaimed co) →
    Poised n units ready start read s state → Fails (plan.record registers start state) s e later →
    Clash start state s later e

theorem stops_home : Stops n units ready start registers .home := by
  intro first read state s later e hlegal _ hp hfails
  obtain rfl : read = none := hlegal
  rcases of_fails_bind hfails with htransit | ⟨v, t, -, hpure⟩
  · exact hp.clash_plain (List.nil_subset units) htransit
  · exact absurd hpure (sure_pure _).not_fails

theorem stops_act {gates : List Gate} {rest : Plan} (ih : Stops n units ready start registers rest) :
    Stops n units ready start registers (.act gates rest) := by
  intro first read state s later e hlegal _ hp hfails
  obtain ⟨rfl, next, hallowed, hrest⟩ := hlegal
  rcases of_fails_bind hfails with htransit | ⟨st, t, htransit, hafter⟩
  · exact hp.clash_plain hallowed.known htransit
  · obtain ⟨hc, hnext⟩ := hp.does_plain hallowed htransit
    obtain ⟨hconflict, hcont, hapart⟩ := hp.clash_created hc (ih hrest (fun h => nomatch h) hnext hafter)
    exact ⟨hconflict, hcont, fun _ => hapart⟩

theorem allowed_nil : Allowed units [] none :=
  ⟨List.nil_subset units, letsIn_nil⟩

theorem stops_settle {rest : Plan} (ih : Stops n units ready start registers rest) (ticks : Nat) :
    Stops n units ready start registers (.settle ticks rest) := by
  induction ticks with
  | zero =>
    intro first read state s later e hlegal _ hp hfails
    obtain ⟨rfl, hrest⟩ := hlegal
    obtain ⟨st, t, hsettle, hafter⟩ := (sure_pure state).of_fails_bind hfails
    obtain ⟨rfl, rfl⟩ := does_pure hsettle
    exact ih hrest (fun h => nomatch h) hp hafter
  | succ ticks ihticks =>
    intro first read state s later e hlegal _ hp hfails
    obtain ⟨rfl, hrest⟩ := hlegal
    -- the first tick, or the remaining ticks as a plan of their own
    have hsteps : Fails (transit [] state none none) s e later ∨ ∃ next t, Does (transit [] state none none) s next t ∧
        Fails ((Plan.settle ticks rest).record registers start next) t e later := by
      rcases of_fails_bind hfails with hsettle | ⟨last, t, hsettle, hafter⟩
      · rcases of_fails_bind hsettle with htransit | ⟨next, t, htransit, hsettle'⟩
        · exact .inl htransit
        · exact .inr ⟨next, t, htransit, hsettle'.bind⟩
      · obtain ⟨next, u, htransit, hsettle'⟩ := does_bind hsettle
        exact .inr ⟨next, u, htransit, fails_of_bind hsettle' hafter⟩
    rcases hsteps with htransit | ⟨next, t, htransit, hafter⟩
    · exact hp.clash_plain (List.nil_subset units) htransit
    · obtain ⟨hc, hnext⟩ := hp.does_plain allowed_nil htransit
      obtain ⟨hconflict, hcont, hapart⟩ := hp.clash_created hc (ihticks ⟨rfl, hrest⟩ (fun h : false = true => nomatch h) hnext hafter)
      exact ⟨hconflict, hcont, fun _ => hapart⟩

/-- A choice is made by one state, which no other state makes. -/
theorem Poised.fails_choice (hp : Poised n units ready start (some co) s state) {m : Network α} (hreserved : Reserved m co state s)
    {token : String} (hgates : gates ⊆ units) {target : Option (ControlState α)}
    (hfails : Fails (transit gates state (some ⟨co, token⟩) target) s e later) :
    e.IsConflict ∧ Continues start s later ∧ ¬ s.Vacant state (some ⟨co, token⟩) := by
  have hco : co ∈ conditions := by decide
  refine hp.fails_transit (some ⟨co, token⟩) rfl (fun c hc => Option.some.inj hc ▸ hco) (fun c hc k hk => ?_)
    hgates hfails
  obtain rfl := Option.some.inj hc
  have hbits : s.hiddenBits state = (m.layer gh).bits state.hidden :=
    congrArg (·.bits state.hidden) (hreserved.keeps.activator gh)
  rw [hbits]
  exact hreserved.keying k hk

theorem stops_choose {layer : LayerId} {idle taken : String} {gates : List Gate} {rest : Plan}
    (ih : Stops n units ready start registers rest) : Stops n units ready start registers (.choose layer idle taken gates rest) := by
  intro first read state s later e hlegal hfree hp hfails
  obtain ⟨hfirst, rfl, rfl, htokens, next, hallowed, hrest⟩ := hlegal
  have hreserved : Reserved s.network co state s := by
    refine ⟨.refl _, fun k hk => ?_⟩
    have hnone : s.keying.lookup co = none := hfree hfirst fun havoids => havoids.1 rfl
    rw [hnone] at hk
    cases hk
  rcases of_fails_bind hfails with hback | ⟨st, t, hback, hafter⟩
  · obtain ⟨hconflict, hcont, hfound⟩ := hp.fails_choice hreserved (List.nil_subset units) hback
    exact ⟨hconflict, hcont, fun hunused => absurd (hunused.key_ne _) hfound⟩
  have hcont := (advances_of_transit hback hp.traced hp.seen fun x hx => by cases hx; exact start_mem_seen).1.toContinues
  have hp' := hp.still hcont ((ordered_choose _ state idle _).of_does hback hp.ordered).1
  have hreserved' := ((reserved_transit _ idle _).of_does hback hreserved).1
  -- the way back is keyed on the other token
  have hvacant : s.Unused state → t.Vacant state (some ⟨co, taken⟩) := by
    intro hunused
    obtain ⟨hadds, -⟩ := adds_of_transit hback hp.traced (hunused.key_ne _) start_mem_seen
    obtain ⟨input, -, htransits⟩ := hadds.transits
    intro x hx
    rw [key_eq hadds.network]
    rw [htransits, List.mem_append, List.mem_singleton] at hx
    rcases hx with hx | rfl
    · exact hunused.key_ne _ x hx
    · exact fun heq => htokens (congrArg Condition.token (Option.some.inj (congrArg TransitKey.condition heq)))
  rcases of_fails_bind hafter with htaken | ⟨st', u, htaken, hrecord⟩
  · obtain ⟨hconflict, hcont', hfound⟩ := hp'.fails_choice hreserved' hallowed.known htaken
    exact ⟨hconflict, hcont.trans hcont', fun hunused => absurd (hvacant hunused) hfound⟩
  · have hc := creates_of_transit htaken hcont.traced
    have hnext := hp'.created hc ((ordered_choose _ state taken _).of_does htaken hp'.ordered).1 hallowed
    obtain ⟨hconflict, hcont', hapart⟩ := hp'.clash_created hc (ih hrest (fun h => nomatch h) hnext hrecord)
    exact ⟨hconflict, hcont.trans hcont', fun _ => hapart⟩

/-! ## Branches on a register -/

/-- A way over a state that is dispatched to stops where the way from that state stops. -/
theorem Poised.clash_dispatched {layer : LayerId} {token : String} (hp : Poised n units ready start (some layer) s state)
    (hlayer : layer ∈ operandLayers) (hdoes : Does (dispatch state layer token) s next t) (hclash : Clash start next t later e) :
    e.IsConflict ∧ Continues start s later ∧ (s.Vacant state (some ⟨layer, token⟩) → ¬ later.Apart start) := by
  obtain ⟨hcont, -⟩ := hp.dispatched hlayer hdoes
  exact ⟨hclash.conflict, hcont.trans hclash.continues, fun hvacant =>
    (hp.clash_created (creates_of_dispatch hdoes hp.traced hvacant) hclash).2.2⟩

/-- A branch leaves the other branches vacant. -/
theorem Vacant.of_branch {layer : LayerId} {token other : String} (h : s.Vacant state (some ⟨layer, other⟩)) (hs : s.Traced start)
    (hne : token ≠ other) (hdoes : Does (dispatch state layer token) s next t)
    (hkeeps : t.network.Keeps (fun l _ => l ≠ gh) later.network)
    (honly : Only (fun condition => ∀ c ∈ condition, c.layer ≠ layer) t later) : later.Vacant state (some ⟨layer, other⟩) := by
  intro x hx
  rw [key_eq hkeeps]
  rcases honly x hx with hx | hx
  · rcases does_dispatch hs.numbered hdoes with hfinds | hcreates
    · rw [key_of_network hfinds.network]
      exact h x (hfinds.transits ▸ hx)
    · obtain ⟨input, -, htransits⟩ := hcreates.transits
      rw [key_eq hcreates.network]
      rw [htransits, List.mem_append, List.mem_singleton] at hx
      rcases hx with hx | rfl
      · exact h x hx
      · exact fun heq => hne (congrArg Condition.token (Option.some.inj (congrArg TransitKey.condition heq)))
  · exact fun heq => hx ⟨layer, other⟩ (congrArg TransitKey.condition heq) rfl

/-- Where recording the branches stops. -/
theorem stops_branches {layer : LayerId} (hlayer : layer ∈ operandLayers) {branch : LayerId → Plan}
    (ih : ∀ r, Stops n units ready start registers (branch r)) (hbranches : ∀ r, (branch r).Branches (· ∈ operandLayers) (· = co))
    (l : List (LayerId × String)) (hl : (l.map (·.2)).Nodup)
    (hlegal : ∀ r ∈ l, (branch r.1).Legal units (registers.map (·.1)) false none ∧ (branch r.1).Avoids layer)
    (hp : Poised n units ready start (some layer) s state)
    (hfails : Fails (l.forM fun (r, name) => do
      let chosen ← dispatch state layer name
      (branch r).record registers start chosen) s e later) :
    e.IsConflict ∧ Continues start s later ∧ ((∀ r ∈ l, s.Vacant state (some ⟨layer, r.2⟩)) → ¬ later.Apart start) := by
  induction l generalizing s with
  | nil => exact absurd hfails (sure_pure _).not_fails
  | cons r l ihl =>
    rw [List.map_cons, List.nodup_cons] at hl
    obtain ⟨hfirst, havoids⟩ := hlegal r List.mem_cons_self
    rcases of_fails_bind hfails with hbranch | ⟨v, u, hbranch, hrest⟩
    · rcases of_fails_bind hbranch with hdispatch | ⟨chosen, t, hchosen, hrecord⟩
      · exact absurd hdispatch (hp.not_fails_dispatch hlayer)
      · have hclash := ih r.1 hfirst (fun h => nomatch h) (hp.dispatched hlayer hchosen).2 hrecord
        obtain ⟨hconflict, hcont, hapart⟩ := hp.clash_dispatched hlayer hchosen hclash
        exact ⟨hconflict, hcont, fun hvacant => hapart (hvacant r List.mem_cons_self)⟩
    · obtain ⟨chosen, t, hchosen, hrecord⟩ := does_bind hbranch
      obtain ⟨hcont, hp₁⟩ := hp.dispatched hlayer hchosen
      have hcont' := (advances_of_record _ hrecord hp₁.traced hp₁.seen).toContinues
      have hordered := ((ordered_of_branches hp.size_go (hbranches r.1)).of_does hrecord hp₁.ordered).1
      have honly := ((only_of_avoids (P := fun condition => ∀ c ∈ condition, c.layer ≠ layer)
        (fun c hc => (Option.not_mem_none c hc).elim) (fun c hc d hd => Option.some.inj hd ▸ hc) havoids).of_does hrecord
        fun x hx => .inl hx).1
      obtain ⟨hconflict, hcont'', hapart⟩ := ihl hl.2 (fun q hq => hlegal q (List.mem_cons_of_mem _ hq))
        (hp.still (hcont.trans hcont') hordered) hrest
      refine ⟨hconflict, (hcont.trans hcont').trans hcont'', fun hvacant => hapart fun q hq => ?_⟩
      have hne : r.2 ≠ q.2 := fun heq => hl.1 (heq ▸ List.mem_map_of_mem hq)
      exact (hvacant q (List.mem_cons_of_mem _ hq)).of_branch hp.traced hne hchosen hcont'.extension.network honly

theorem stops_each (hnames : (registers.map (·.2)).Nodup) {layer : LayerId} {branch : LayerId → Plan}
    (hbranches : ∀ r, (branch r).Branches (· ∈ operandLayers) (· = co))
    (ih : ∀ r, Stops n units ready start registers (branch r)) : Stops n units ready start registers (.each layer branch) := by
  intro first read state s later e hlegal _ hp hfails
  obtain ⟨rfl, hlayer, hlegal⟩ := hlegal
  obtain ⟨hconflict, hcont, hapart⟩ := stops_branches hlayer ih hbranches registers hnames
    (fun r hr => hlegal r.1 (List.mem_map_of_mem hr)) hp hfails
  exact ⟨hconflict, hcont, fun hunused => hapart fun r _ => hunused.key_ne _⟩

/-! ## Branches that meet -/

section

variable {layer : LayerId} {branch : LayerId → List Gate} {meet : List Gate} {meeting result : Option (ControlState α)}

/-- One branch stops at a conflict of one of its two states. -/
theorem clash_of_meetBranch (hlayer : layer ∈ operandLayers) {r : LayerId × String} (hbranch : Allowed units (branch r.1) none)
    (hmeet : Allowed units meet none) (hp : Poised n units ready start (some layer) s state)
    (hfails : Fails (meetBranch state layer branch meet meeting r) s e later) :
    e.IsConflict ∧ Continues start s later ∧ (s.Vacant state (some ⟨layer, r.2⟩) → ¬ later.Apart start) := by
  rcases of_fails_bind hfails with hdispatch | ⟨chosen, t, hchosen, hafter⟩
  · exact absurd hdispatch (hp.not_fails_dispatch hlayer)
  have hp₁ := (hp.dispatched hlayer hchosen).2
  refine hp.clash_dispatched hlayer hchosen ?_
  rcases of_fails_bind hafter with hacting | ⟨acting, u, hacting, hrest⟩
  · exact hp₁.clash_plain hbranch.known hacting
  obtain ⟨hc, hp₂⟩ := hp₁.does_plain hbranch hacting
  rcases of_fails_bind hrest with hreached | ⟨reached, v, -, hpure⟩
  · obtain ⟨hconflict, hcont, hapart⟩ := hp₁.clash_created hc (hp₂.clash_plain hmeet.known hreached)
    exact ⟨hconflict, hcont, fun _ => hapart⟩
  · exact absurd hpure (sure_pure _).not_fails

/-- What one branch leaves. -/
theorem does_branch (hlayer : layer ∈ operandLayers) {r : LayerId × String} (hp : Poised n units ready start (some layer) s state)
    (hmeeting : ∀ m ∈ meeting, s.hiddenBits m ∈ s.seen start ∧ s.network.Opens m.gates meet)
    (h : Does (meetBranch state layer branch meet meeting r) s result later) :
    Continues start s later ∧ Ordered n ready later ∧
      (∃ m, result = some m ∧ later.hiddenBits m ∈ later.seen start ∧ later.network.Opens m.gates meet) ∧
      ∀ token, r.2 ≠ token → s.Vacant state (some ⟨layer, token⟩) → later.Vacant state (some ⟨layer, token⟩) := by
  obtain ⟨hcont, hseen⟩ := advances_of_meetBranch h hp.traced hp.seen fun m hm => (hmeeting m hm).1
  obtain ⟨chosen, acting, reached, t, u, hchosen, hacting, hreached, rfl⟩ := does_meetBranch h
  obtain ⟨hcont₁, hp₁⟩ := hp.dispatched hlayer hchosen
  obtain ⟨hcont₂, hseen₂⟩ := advances_of_transit hacting hcont₁.traced hp₁.seen fun m hm => by cases hm
  obtain ⟨hcont₃, -⟩ := advances_of_transit hreached hcont₂.traced hseen₂ fun m hm =>
    (hcont₁.trans hcont₂.toContinues).seen (hmeeting m hm).1
  have hordered := ((ordered_plain _ chosen _).of_does hacting hp₁.ordered).1
  have honly : Only (fun condition => ∀ c ∈ condition, c.layer ≠ layer) t u :=
    ((only_transit (fun c hc => (Option.not_mem_none c hc).elim) _ chosen _).of_does hacting fun x hx => .inl hx).1
  have honly' := ((only_transit (fun c hc => (Option.not_mem_none c hc).elim) _ acting _).of_does hreached honly).1
  refine ⟨hcont.toContinues, ((ordered_plain _ acting _).of_does hreached hordered).1, ⟨_, rfl, hseen _ rfl, ?_⟩, fun token hne hvacant =>
    hvacant.of_branch hp.traced hne hchosen (hcont₂.trans hcont₃).extension.network honly'⟩
  cases meeting with
  | none =>
    have hc := creates_of_transit hreached hcont₂.traced
    exact (hc.gates_open hcont₂.traced).keeps hc.network
  | some m => exact (hmeeting m rfl).2.keeps hcont.extension.network

/-- All branches lead to one state, which opens the gates `meet`. -/
theorem does_branches (hlayer : layer ∈ operandLayers) (hmeet : Allowed units meet none) (l : List (LayerId × String))
    (hp : Poised n units ready start (some layer) s state)
    (hmeeting : ∀ m ∈ meeting, s.hiddenBits m ∈ s.seen start ∧ s.network.Opens m.gates meet) (hsome : l ≠ [] ∨ meeting.isSome)
    (h : Does (l.foldlM (meetBranch state layer branch meet) meeting) s result later) :
    ∃ m, result = some m ∧ Continues start s later ∧ Poised n units ready start none later m := by
  induction l generalizing s meeting with
  | nil =>
    obtain ⟨rfl, rfl⟩ := does_pure h
    obtain ⟨m, rfl⟩ := Option.isSome_iff_exists.mp (hsome.resolve_left fun h => h rfl)
    obtain ⟨hseen, hopens⟩ := hmeeting m rfl
    exact ⟨m, rfl, ⟨.refl _, hp.traced⟩, hp.traced, hseen, hp.legible, hp.ordered, meet, hopens, hmeet.reads⟩
  | cons r l ih =>
    rw [List.foldlM_cons] at h
    obtain ⟨m, u, hfirst, hafter⟩ := does_bind h
    obtain ⟨hcont, hordered, ⟨m, rfl, hm⟩, -⟩ := does_branch hlayer hp hmeeting hfirst
    obtain ⟨m', hresult, hcont', hp'⟩ := ih (hp.still hcont hordered) (fun x hx => Option.some.inj hx ▸ hm) (.inr rfl) hafter
    exact ⟨m', hresult, hcont.trans hcont', hp'⟩

/-- Where recording branches that meet stops. -/
theorem stops_meetBranches (hlayer : layer ∈ operandLayers) (hmeet : Allowed units meet none) (l : List (LayerId × String))
    (hl : (l.map (·.2)).Nodup) (hbranch : ∀ r ∈ l, Allowed units (branch r.1) none)
    (hp : Poised n units ready start (some layer) s state)
    (hmeeting : ∀ m ∈ meeting, s.hiddenBits m ∈ s.seen start ∧ s.network.Opens m.gates meet)
    (hfails : Fails (l.foldlM (meetBranch state layer branch meet) meeting) s e later) :
    e.IsConflict ∧ Continues start s later ∧ ((∀ r ∈ l, s.Vacant state (some ⟨layer, r.2⟩)) → ¬ later.Apart start) := by
  induction l generalizing s meeting with
  | nil => exact absurd hfails (sure_pure _).not_fails
  | cons r l ih =>
    rw [List.map_cons, List.nodup_cons] at hl
    rw [List.foldlM_cons] at hfails
    rcases of_fails_bind hfails with hfirst | ⟨m, u, hfirst, hafter⟩
    · obtain ⟨hconflict, hcont, hapart⟩ := clash_of_meetBranch hlayer (hbranch r List.mem_cons_self) hmeet hp hfirst
      exact ⟨hconflict, hcont, fun hvacant => hapart (hvacant r List.mem_cons_self)⟩
    · obtain ⟨hcont, hordered, ⟨m, rfl, hm⟩, hvacant⟩ := does_branch hlayer hp hmeeting hfirst
      obtain ⟨hconflict, hcont', hapart⟩ := ih hl.2 (fun q hq => hbranch q (List.mem_cons_of_mem _ hq))
        (hp.still hcont hordered) (fun x hx => Option.some.inj hx ▸ hm) hafter
      refine ⟨hconflict, hcont.trans hcont', fun hfree => hapart fun q hq => ?_⟩
      have hne : r.2 ≠ q.2 := fun heq => hl.1 (heq ▸ List.mem_map_of_mem hq)
      exact hvacant q.2 hne (hfree q (List.mem_cons_of_mem _ hq))

end

theorem stops_gather (hne : registers ≠ []) (hnames : (registers.map (·.2)).Nodup) {layer : LayerId}
    {branch : LayerId → List Gate} {meet : List Gate} {rest : Plan} (ih : Stops n units ready start registers rest) :
    Stops n units ready start registers (.gather layer branch meet rest) := by
  intro first read state s later e hlegal _ hp hfails
  obtain ⟨rfl, hlayer, hbranch, hmeet, hrest⟩ := hlegal
  have hnone : ∀ m ∈ (none : Option (ControlState α)), s.hiddenBits m ∈ s.seen start ∧ s.network.Opens m.gates meet :=
    fun m hm => (Option.not_mem_none m hm).elim
  rcases of_fails_bind hfails with hfails | ⟨meeting, t, hdoes, hafter⟩
  · obtain ⟨hconflict, hcont, hapart⟩ := stops_meetBranches hlayer hmeet registers hnames
      (fun r hr => hbranch r.1 (List.mem_map_of_mem hr)) hp hnone hfails
    exact ⟨hconflict, hcont, fun hunused => hapart fun r _ => hunused.key_ne _⟩
  · obtain ⟨m, rfl, hcont, hp'⟩ := does_branches hlayer hmeet registers hp hnone (.inl hne) hdoes
    have hclash := ih hrest (fun h => nomatch h) hp' hafter
    refine ⟨hclash.conflict, hcont.trans hclash.continues, fun hunused hapart => ?_⟩
    have ht := hclash.continues.extension.apart hcont.traced hapart
    exact hclash.apart (unused_of_meetBranches hne hnames hdoes hp.traced hp.seen hunused ht).2 hapart

/-- Recording a plan stops only at a conflict, and from a state from which nothing led on only if
two states have the same hidden bits. -/
theorem stops (hne : registers ≠ []) (hnames : (registers.map (·.2)).Nodup) (plan : Plan)
    (hplan : plan.Branches (· ∈ operandLayers) (· = co)) : Stops n units ready start registers plan := by
  induction plan with
  | home => exact stops_home
  | act gates rest ih => exact stops_act (ih hplan)
  | settle ticks rest ih => exact stops_settle (ih hplan) ticks
  | each layer branch ih => exact stops_each hnames hplan.2 fun r => ih r (hplan.2 r)
  | gather layer branch meet rest ih => exact stops_gather hne hnames (ih hplan.2)
  | choose layer idle taken gates rest ih => exact stops_choose (ih hplan.2)

/-! ## The instruction set -/

/-- The transit that a routine begins with fails only if there is one already. -/
theorem Poised.fails_ready (hp : Poised n units ready start (some opc) s ready) {token : String} (hgates : gates ⊆ units)
    {target : Option (ControlState α)} (hfails : Fails (transit gates ready (some ⟨opc, token⟩) target) s e later) :
    e.IsConflict ∧ Continues start s later ∧ ¬ s.Vacant ready (some ⟨opc, token⟩) := by
  have hopc : opc ∈ conditions := by decide
  refine hp.fails_transit (some ⟨opc, token⟩) rfl (fun c hc => Option.some.inj hc ▸ hopc) (fun c hc k hk => ?_)
    hgates hfails
  obtain rfl := Option.some.inj hc
  have hbits : s.hiddenBits ready = (n.layer gh).bits ready.hidden :=
    congrArg (·.bits ready.hidden) (hp.ordered.keeps.activator gh)
  rw [hbits]
  exact hp.ordered.opcode k hk

/-- A new state gets a name besides its own. -/
theorem Poised.named (hp : Poised n units ready start read s state) {name : String} {u : Unit}
    (hc : Creates s t gates state condition next) (hordered : Ordered n ready t) (hallowed : Allowed units gates read')
    (hsuits : Suits condition name) (hname : Does (nameState next name) t u later) :
    Creates s later gates state condition next ∧ Poised n units ready start read' later next := by
  have hc' := hc.named_later hp.traced.numbered hsuits hname
  exact ⟨hc', hp.created hc' ((stable_ordered.nameState next name).of_does hname hordered).1 hallowed⟩

theorem stops_opcode (hne : registers ≠ []) (hnames : (registers.map (·.2)).Nodup) {op : Opcode}
    (hlegal : op.routine.Legal units (registers.map (·.1))) (hp : Poised n units ready start (some opc) s ready)
    (hfree : op = .jie → s.Unclaimed co) (hfails : Fails (op.record registers start ready) s e later) :
    e.IsConflict ∧ Continues start s later ∧ (s.Vacant ready (some ⟨opc, op.mnemonic⟩) → ¬ later.Apart start) := by
  obtain ⟨u, t, hcontext, hafter⟩ := (sure_setContext op.mnemonic).of_fails_bind hfails
  have hsame := does_setContext hcontext
  have hcont := (hsame.advances hp.traced).toContinues
  have hp' := hp.still hcont ((stable_ordered.setContext _).of_does hcontext hp.ordered).1
  have hvacant : s.Vacant ready (some ⟨opc, op.mnemonic⟩) → t.Vacant ready (some ⟨opc, op.mnemonic⟩) := fun h x hx => by
    rw [key_of_network hsame.network]
    exact h x (hsame.transits ▸ hx)
  -- the first transit of the routine, and then a way over the state that it leads to
  have hfirst {gates : List Gate} {target : Option (ControlState α)} (hgates : gates ⊆ units)
      (h : Fails (transit gates ready (some ⟨opc, op.mnemonic⟩) target) t e later) :
      e.IsConflict ∧ Continues start s later ∧ (s.Vacant ready (some ⟨opc, op.mnemonic⟩) → ¬ later.Apart start) := by
    obtain ⟨hconflict, hcont', hfound⟩ := hp'.fails_ready hgates h
    exact ⟨hconflict, hcont.trans hcont', fun h => absurd (hvacant h) hfound⟩
  have hwalk {gates : List Gate} {next : ControlState α} {u : Sequencer α}
      (hc : Creates t u gates ready (some ⟨opc, op.mnemonic⟩) next) (hclash : Clash start next u later e) :
      e.IsConflict ∧ Continues start s later ∧ (s.Vacant ready (some ⟨opc, op.mnemonic⟩) → ¬ later.Apart start) := by
    obtain ⟨hconflict, hcont', hapart⟩ := hp'.clash_created hc hclash
    exact ⟨hconflict, hcont.trans hcont', fun _ => hapart⟩
  cases hroutine : op.routine with
  | skip =>
    rw [hroutine] at hafter
    rcases of_fails_bind hafter with htransit | ⟨next, u, -, hpure⟩
    · exact hfirst (List.nil_subset units) htransit
    · exact absurd hpure (sure_pure _).not_fails
  | halt =>
    rw [hroutine] at hafter
    rcases of_fails_bind hafter with htransit | ⟨halted, u, htransit, hrest⟩
    · exact hfirst (List.nil_subset units) htransit
    obtain ⟨v, w, hname, hself⟩ := (sure_nameState _ _).of_fails_bind hrest
    obtain ⟨hc, hnext⟩ := hp'.named (creates_of_transit htransit hcont.traced)
      ((ordered_ready _ _ _).of_does htransit hp'.ordered).1 allowed_nil (suits_mnemonic op) hname
    rcases of_fails_bind hself with htransit | ⟨next, u, -, hpure⟩
    · exact hwalk hc (hnext.clash_plain (List.nil_subset units) htransit)
    · exact absurd hpure (sure_pure _).not_fails
  | run gates plan =>
    rw [hroutine] at hafter hlegal
    obtain ⟨read, hallowed, hplan⟩ := hlegal
    rcases of_fails_bind hafter with htransit | ⟨entered, u, htransit, hrest⟩
    · exact hfirst hallowed.known htransit
    obtain ⟨v, w, hname, hrecord⟩ := (sure_nameState _ _).of_fails_bind hrest
    obtain ⟨hc, hnext⟩ := hp'.named (creates_of_transit htransit hcont.traced)
      ((ordered_ready _ _ _).of_does htransit hp'.ordered).1 hallowed (suits_mnemonic op) hname
    refine hwalk hc (stops hne hnames plan ((Opcode.branches hroutine).mono (fun _ hl => hl) fun _ hl => hl.2) hplan
      (fun _ hreads => ?_) hnext hrecord)
    -- so far no state reads the comparison output
    have hop : op = .jie := by
      by_contra hother
      exact hreads (Opcode.avoids_co hother hroutine)
    have hopc : opc ≠ co := by decide
    have ht := ((stable_unclaimed co).setContext _).of_does hcontext (hfree hop)
    have hu := (unclaimed_transit (fun c hc => Option.some.inj hc ▸ hopc) _ _ _).of_does htransit ht.1
    exact (((stable_unclaimed co).nameState _ _).of_does hname hu.1).1

/-- Recording different opcodes stops only if two states have the same hidden bits. -/
theorem stops_opcodes (hne : registers ≠ []) (hnames : (registers.map (·.2)).Nodup) (l : List Opcode) (hl : l.Nodup)
    (hlegal : ∀ op ∈ l, op.routine.Legal units (registers.map (·.1))) (hp : Poised n units ready start (some opc) s ready)
    (hfree : .jie ∈ l → s.Unclaimed co) (hvacant : ∀ op ∈ l, s.Vacant ready (some ⟨opc, op.mnemonic⟩))
    (hfails : Fails (l.forM (Opcode.record registers start ready)) s e later) :
    e.IsConflict ∧ Continues start s later ∧ ¬ later.Apart start := by
  induction l generalizing s with
  | nil => exact absurd hfails (sure_pure _).not_fails
  | cons op l ih =>
    rw [List.nodup_cons] at hl
    rcases of_fails_bind hfails with hop | ⟨v, t, hop, hrest⟩
    · obtain ⟨hconflict, hcont, hapart⟩ := stops_opcode hne hnames (hlegal op List.mem_cons_self) hp
        (fun heq => hfree (heq ▸ List.mem_cons_self)) hop
      exact ⟨hconflict, hcont, hapart (hvacant op List.mem_cons_self)⟩
    · have hcont := (advances_of_opcode hop hp.traced hp.seen).toContinues
      have hordered := ((ordered_opcode hp.size_go op).of_does hop hp.ordered).1
      have hfree' : .jie ∈ l → t.Unclaimed co := by
        intro hjie
        have hother : op ≠ .jie := fun heq => hl.1 (heq ▸ hjie)
        exact ((unclaimed_opcode hother).of_does hop (hfree (List.mem_cons_of_mem _ hjie))).1
      have hvacant' : ∀ q ∈ l, t.Vacant ready (some ⟨opc, q.mnemonic⟩) := by
        intro q hq x hx
        have hother : op.mnemonic ≠ q.mnemonic := fun heq => hl.1 (mnemonic_injective heq ▸ hq)
        rw [key_eq hcont.extension.network]
        rcases ((only_opcode hother).of_does hop fun x hx => .inl hx).1 x hx with hx | hx
        · exact hvacant q (List.mem_cons_of_mem _ hq) x hx
        · exact fun heq => hx (congrArg TransitKey.condition heq)
      obtain ⟨hconflict, hcont', hapart⟩ := ih hl.2 (fun q hq => hlegal q (List.mem_cons_of_mem _ hq)) (hp.still hcont hordered)
        hfree' hvacant' hrest
      exact ⟨hconflict, hcont.trans hcont', hapart⟩

theorem not_fails_initial (hlegible : Legible units s.network) (name : String) : ¬ Fails (initial name) s e later := by
  intro hfails
  obtain ⟨p, hp⟩ := exists_makeGates hlegible (List.nil_subset units)
  rcases of_fails_lift_bind (of_fails_get_bind hfails) with ⟨herror, -⟩ | ⟨p', -, hrest⟩
  · rw [hp] at herror
    cases herror
  · obtain ⟨hidden, t, -, hname⟩ := sure_freshHidden.of_fails_bind hrest
    exact ((sure_nameState _ _).bind fun _ => sure_pure _).not_fails hname

/-- What is recorded after the first state. -/
theorem stops_rounds (hfetch : Allowed units Microcode.fetch none) (hread : Allowed units (Microcode.read opc) (some opc))
    (hlegal : ∀ op : Opcode, op.routine.Legal units (registers.map (·.1))) (hne : registers ≠ [])
    (hnames : (registers.map (·.2)).Nodup) (hp : ∀ r, Poised n units r start none s start) (hnone : s.transits = [])
    (hfree : s.Unclaimed co) (hfails : Fails (do
      let load ← transit Microcode.fetch start none none
      nameState load "load"
      let ready ← transit (Microcode.read opc) load none none
      nameState ready "ready"
      Opcode.all.forM (Opcode.record registers start ready)
      return start) s e later) :
    e.IsConflict ∧ Continues start s later ∧ ¬ later.Apart start := by
  -- the two states come one after the other, and there are no others yet
  rcases of_fails_bind hfails with hload | ⟨load, s₁, hload, h₁⟩
  · obtain ⟨hconflict, hcont, hapart⟩ := (hp start).clash_plain hfetch.known hload
    exact ⟨hconflict, hcont, hapart fun x hx => by rw [hnone] at hx; cases hx⟩
  obtain ⟨u₁, s₂, hnameLoad, h₂⟩ := (sure_nameState _ _).of_fails_bind h₁
  have hload' (r : ControlState α) := (hp r).named (creates_of_transit hload (hp r).traced)
    ((hp r).does_plain hfetch hload).2.ordered hfetch (suits_none (by decide)) hnameLoad
  have hc := (hload' start).1
  rcases of_fails_bind h₂ with hready | ⟨ready, s₃, hready, h₃⟩
  · exact (hp start).clash_created hc ((hload' start).2.clash_plain hread.known hready)
  obtain ⟨u₃, s₄, hnameReady, h₄⟩ := (sure_nameState _ _).of_fails_bind h₃
  have hpload := (hload' ready).2
  obtain ⟨hc', hpready⟩ := hpload.named (creates_of_transit hready hpload.traced)
    (hpload.does_plain hread hready).2.ordered hread (suits_none (by decide)) hnameReady
  rcases of_fails_bind h₄ with hall | ⟨v, t, -, hpure⟩
  swap
  · exact absurd hpure (sure_pure _).not_fails
  have hfree' : s₄.Unclaimed co := by
    have hplain (gates : List Gate) (old : ControlState α) : Secures (Unclaimed co) (transit gates old none none) fun _ => True :=
      unclaimed_transit (fun c hc => (Option.not_mem_none c hc).elim) gates old none
    have hfree₂ := ((stable_unclaimed co).nameState _ _).of_does hnameLoad ((hplain _ _).of_does hload hfree).1
    exact (((stable_unclaimed co).nameState _ _).of_does hnameReady ((hplain _ _).of_does hready hfree₂.1).1).1
  have honly : Only (· = none) s s₄ := by
    have hplain (gates : List Gate) (old : ControlState α) : Secures (Only (· = none) s) (transit gates old none none) fun _ => True :=
      only_transit (P := (· = none)) rfl gates old none
    have honly₁ := ((hplain _ _).of_does hload fun x hx => .inl hx).1
    have honly₂ := (((stable_only _ s).nameState _ _).of_does hnameLoad honly₁).1
    exact (((stable_only _ s).nameState _ _).of_does hnameReady ((hplain _ _).of_does hready honly₂).1).1
  have hvacant : ∀ op ∈ Opcode.all, s₄.Vacant ready (some ⟨opc, op.mnemonic⟩) := by
    intro op _ x hx heq
    rcases honly x hx with hx | hx
    · rw [hnone] at hx
      cases hx
    · have hcondition := congrArg TransitKey.condition heq
      rw [hx] at hcondition
      cases hcondition
  obtain ⟨hconflict, hcont, hapart⟩ := stops_opcodes hne hnames Opcode.all (by decide) (fun op _ => hlegal op) hpready
    (fun _ => hfree') hvacant hall
  have hcont₁ := (hc.advances (hp start).traced (hp start).seen).1
  exact ⟨hconflict, (hcont₁.trans (hc'.advances hpload.traced hpload.seen).1).toContinues.trans hcont, hapart⟩

/-- Recording the instruction set fails only with a conflict, and only when two of the states that
were created have the same hidden bits. -/
theorem clash_of_instructions (hgates : n.size go = n.gates.size) (hnumbered : n.Numbered) (hlegible : Legible units n)
    (hfetch : Allowed units Microcode.fetch none) (hread : Allowed units (Microcode.read opc) (some opc))
    (hlegal : ∀ op : Opcode, op.routine.Legal units (registers.map (·.1))) (hne : registers ≠ [])
    (hnames : (registers.map (·.2)).Nodup) (hfails : Fails (recordInstructions registers) (Sequencer.new n) e later) :
    e.IsConflict ∧ ∃ start s, Does (initial "start") { Sequencer.new n with context := "fetch" } start s ∧
      Continues start s later ∧ ¬ later.Apart start := by
  obtain ⟨u₀, s₀, hcontext, h₀⟩ := (sure_setContext "fetch").of_fails_bind hfails
  obtain rfl := does_modify hcontext
  rcases of_fails_bind h₀ with hinitial | ⟨start, s₁, hinitial, h₁⟩
  · exact absurd hinitial (not_fails_initial hlegible _)
  obtain ⟨ht₁, hunused₁, hstart, htransits₁⟩ := traced_of_initial hgates hnumbered hcontext hinitial
  -- how layers are keyed is not known of a state that is yet to come
  have hp₁ (r : ControlState α) : Poised n units r start none s₁ start := by
    have hordered : Ordered n r { Sequencer.new n with context := "fetch" } :=
      ⟨.refl _, fun _ hk => (nomatch hk), fun _ _ _ hk => (nomatch hk), fun _ hx => (nomatch hx)⟩
    have hordered₁ := ((stable_ordered.initial "start").of_does hinitial hordered).1
    exact ⟨ht₁, start_mem_seen, hlegible.keeps hordered₁.keeps, hordered₁, [], hstart, letsIn_nil⟩
  have hfree := ((stable_unclaimed co).initial "start" |>.of_does hinitial rfl).1
  obtain ⟨hconflict, hclash⟩ := stops_rounds hfetch hread hlegal hne hnames hp₁ htransits₁ hfree h₁
  exact ⟨hconflict, start, s₁, hinitial, hclash⟩

end Sequencer

end Engram
