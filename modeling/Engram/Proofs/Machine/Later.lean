/-
  Engram.Proofs.Machine.Later — what a machine never changes.

  The connections into the two control layers are written once, when the machine is built. All
  that happens to a machine afterwards writes other pathways: programs are learned by pathways
  into the data layers, also when adding one fails halfway; loading resets the plastic pathways,
  and a tick writes those only. No token of a layer but the instruction pointer changes its
  pattern either. So at any later time the machine is `Governing` as it was built
  (`Later.governing`).
-/

import Engram.Machine.Basic
import Engram.Proofs.Data.Enduring

namespace Engram

open LayerId

/-- The pathway leads into a control layer. -/
def Pathway.Controls (p : Pathway) : Prop := p.target = gh ∨ p.target = go

theorem Pathway.not_controls {target source : LayerId} (h : target ≠ gh ∧ target ≠ go) :
    ¬ (⟨target, source⟩ : Pathway).Controls := not_or.mpr h

namespace Network

variable {α : Type} {n : Network α}

theorem Numbered.ne_control (h : n.Numbered) {r : LayerId} (hr : r ∈ n.registers) : r ≠ gh ∧ r ≠ go := by
  constructor
  · rintro rfl
    exact absurd (h.registers gh hr).1 (by decide)
  · rintro rfl
    exact absurd (h.registers go hr).1 (by decide)

theorem Numbered.not_controls_data (h : n.Numbered) {p : Pathway} (hp : p ∈ Session.dataPathways n.registers) :
    ¬ p.Controls := by
  simp only [Session.dataPathways, List.mem_append, List.mem_flatMap, List.mem_map, List.mem_cons, List.not_mem_nil,
    or_false] at hp
  rcases hp with ⟨r, hr, ⟨r', -, rfl⟩ | rfl | rfl | rfl⟩ | rfl | rfl
  · exact Pathway.not_controls (h.ne_control hr)
  · exact Pathway.not_controls (h.ne_control hr)
  all_goals exact Pathway.not_controls (by decide)

theorem Numbered.not_controls_plastic (h : n.Numbered) {p : Pathway} (hp : p ∈ n.plastic) : ¬ p.Controls := by
  simp only [Network.plastic, plasticPathways, List.mem_append, List.mem_flatMap, List.mem_cons, List.not_mem_nil,
    or_false] at hp
  rcases hp with ((rfl | rfl) | ⟨r, hr, rfl | rfl | rfl⟩) | rfl
  · exact Pathway.not_controls (by decide)
  · exact Pathway.not_controls (by decide)
  · exact Pathway.not_controls (h.ne_control hr)
  all_goals exact Pathway.not_controls (by decide)

theorem resetPlastic_eq [Scalar α] (m : PlasticityMap α) (w : Weights α) : n.resetPlastic m w =
    (m.toList.map fun x => (x.1, n.baseline x.1 x.2)).foldl (fun w x => w.insert x.1 x.2) w := by
  rw [List.foldl_map]
  exact Std.TreeMap.foldl_eq_foldl_toList

/-- Resetting the plastic pathways leaves the others. -/
theorem getElem?_resetPlastic [Scalar α] {m : PlasticityMap α} (w : Weights α) {p : Pathway} (h : m[p]? = none) :
    (n.resetPlastic m w)[p]? = w[p]? := by
  rw [resetPlastic_eq]
  refine Pathway.getElem?_foldl_insert_of_not_mem ?_ w
  rw [List.map_map]
  exact Pathway.not_mem_keys_toList h

/-- Resetting the plastic pathways takes each of them to its baseline. -/
theorem getElem?_resetPlastic_of_some [Scalar α] {m : PlasticityMap α} (w : Weights α) {p : Pathway} {r : Plasticity α}
    (h : m[p]? = some r) : (n.resetPlastic m w)[p]? = some (n.baseline p r) := by
  have hkeys : ((m.toList.map fun x => (x.1, n.baseline x.1 x.2)).map (·.1)).Nodup := by
    rw [List.map_map]
    exact Pathway.nodup_keys_toList m
  rw [resetPlastic_eq]
  exact Pathway.getElem?_foldl_insert_of_mem hkeys w
    (List.mem_map.mpr ⟨(p, r), Std.TreeMap.mem_toList_iff_getElem?_eq_some.mpr h, rfl⟩)

end Network

namespace Session

variable {α : Type}

/-! ## Adding a program -/

variable [Scalar α]

/-- A session over a network in which nothing is stored for the pathways to be avoided. -/
structure Spares (n : Network α) (avoid : Pathway → Prop) (s : Session α) : Prop where
  network : n.Keeps (fun l _ => l ≠ ip) s.network
  pairs : ∀ p, avoid p → s.pairs[p]? = none

variable {n : Network α} {avoid : Pathway → Prop}

theorem Spares.of_network {s : Session α} (h : Spares n avoid s) {network : Network α}
    (hkeeps : s.network.Keeps (fun l _ => l ≠ ip) network) : Spares n avoid { s with network } :=
  ⟨h.network.trans hkeeps, h.pairs⟩

omit [Scalar α] in
theorem not_controls_learned (hn : n.Numbered) {p : Pathway} (hp : p ∈ learnedPathways n.registers) : ¬ p.Controls := by
  have hlayer : ∀ x ∈ fieldLayers, x.2 ≠ gh ∧ x.2 ≠ go := by decide
  rw [learnedPathways, List.cons_append, List.mem_cons, List.mem_append, List.mem_map] at hp
  rcases hp with rfl | ⟨x, hx, rfl⟩ | hp
  · exact Pathway.not_controls (by decide)
  · exact Pathway.not_controls (hlayer x hx)
  · exact hn.not_controls_data hp

theorem endures_spares (hn : n.Numbered) (havoid : ∀ p ∈ learnedPathways n.registers, ¬ avoid p) (program : Program)
    (name : String) : Endures program name n.registers (Spares n avoid) where
  pointer hip := absurd (hn.registers ip hip).1 (by decide)
  registers s hs := hs.network.registers
  encode s hs l orthogonal tokens _ :=
    hs.of_network ((s.network.grows_encodeAll l orthogonal tokens).mono fun _ _ _ => trivial)
  bind s hs l _ p := hs.of_network ((Network.keeps_bindToken _ _ _ _).mono fun _ _ hl h => hl h.1)
  learn s hs p hp x y pairs hadd := by
    refine ⟨hs.network, fun q hq => ?_⟩
    obtain ⟨_, -, -, -, rfl⟩ := PairMap.of_add hadd
    have hne : p ≠ q := fun h => havoid p hp (h ▸ hq)
    rw [Std.TreeMap.getElem?_insert, if_neg fun heq => hne (Std.LawfulEqCmp.eq_of_compare heq)]
    exact hs.pairs q hq

theorem secures_flash (name : String) (verbose : Bool) : Secures (Spares n avoid) (flash name verbose) fun a =>
    ∀ p, avoid p → a.weights[p]? = none := by
  refine Secures.get.bind fun s hs => ?_
  refine Secures.bind (Q := fun r => ∀ p, avoid p → r.1[p]? = none) (.note fun p hp => ?_) fun r hr => ?_
  · exact PairMap.flash_of_getElem?_eq_none s.pairs s.network _ (hs.pairs p hp)
  · exact (Secures.note trivial).bind fun _ (_ : True) => .pure hr

/-- Adding a program writes the pathways of which it stores associations, and no others, also when
it fails. -/
theorem secures_assemble (hn : n.Numbered) (havoid : ∀ p ∈ learnedPathways n.registers, ¬ avoid p) (program : Program)
    (name : String) (orthogonal verbose : Bool) :
    Secures (Spares n avoid) (assemble program name orthogonal verbose) fun a => ∀ p, avoid p → a.weights[p]? = none := by
  have hrest := (secures_enrol (I := Spares n avoid) name fun _ hs => ⟨hs.network, hs.pairs⟩).bind fun _ _ =>
    ((endures_spares hn havoid (program.withScope name) name).secures_learnProgram orthogonal).bind fun _ _ =>
      secures_flash name verbose
  exact .ite (.ite (secures_throw_bind _ _) hrest) (secures_throw_bind _ _)

end Session

namespace Machine

variable {α : Type} [Scalar α]

/-! ## Later machines -/

/-- What may happen to a machine: every operation, whether it succeeds or not; any activity of any
layers; and any connection in a plastic pathway. -/
inductive Later (m₀ : Machine α) : Machine α → Prop
  | here : Later m₀ m₀
  | assembleProgram {m : Machine α} (h : Later m₀ m) (p : Program) (name : String) :
      Later m₀ (m.assembleProgram p name).value.2
  | assemble {m : Machine α} (h : Later m₀ m) (source name : String) : Later m₀ (m.assemble source name).value.2
  | hold {m : Machine α} (h : Later m₀ m) (l : LayerId) (token : String) : Later m₀ (m.hold l token)
  | load {m : Machine α} (h : Later m₀ m) (program : String) (registers : List (String × String)) :
      Later m₀ (m.load program registers).value.2
  | tick {m : Machine α} (h : Later m₀ m) : Later m₀ m.tick.value
  | activate {m : Machine α} (h : Later m₀ m) (activity : Array (Pattern α)) : Later m₀ { m with activity }
  | write {m : Machine α} (h : Later m₀ m) {p : Pathway} (hp : p ∈ m.network.plastic) (c : Connection α) :
      Later m₀ { m with weights := m.weights.insert p c }

/-- The machine governs itself as it did: the control layers have the connections they had, the
layers are the same, and tokens have the patterns they had but for those of the instruction
pointer. -/
structure Governing (m₀ m : Machine α) : Prop where
  network : m₀.network.Keeps (fun l _ => l ≠ ip) m.network
  pairs : ∀ p : Pathway, p.Controls → m.session.pairs[p]? = none
  plasticity : ∀ p : Pathway, p.Controls → m.plasticity[p]? = none
  weights : ∀ p : Pathway, p.Controls → m.weights[p]? = m₀.weights[p]?

/-- A machine in which nothing writes the control layers. -/
structure Fenced (m : Machine α) : Prop where
  numbered : m.network.Numbered
  pairs : ∀ p : Pathway, p.Controls → m.session.pairs[p]? = none
  plasticity : ∀ p : Pathway, p.Controls → m.plasticity[p]? = none

variable {m₀ m : Machine α}

theorem Fenced.governing (h : m₀.Fenced) : Governing m₀ m₀ := ⟨.refl _, h.pairs, h.plasticity, fun _ _ => rfl⟩

namespace Governing

theorem numbered (h : Governing m₀ m) (h₀ : m₀.Fenced) : m.network.Numbered := h.network.numbered h₀.numbered

theorem of_activity (h : Governing m₀ m) (activity : Array (Pattern α)) : Governing m₀ { m with activity } := { h with }

theorem hold (h : Governing m₀ m) (l : LayerId) (token : String) : Governing m₀ (m.hold l token) :=
  { h with network := h.network.trans ((Network.grows_encode m.network l token).mono fun _ _ _ => trivial) }

theorem of_weights (h : Governing m₀ m) (weights : Weights α)
    (hweights : ∀ p : Pathway, p.Controls → weights[p]? = m.weights[p]?) : Governing m₀ { m with weights } :=
  { h with weights := fun p hp => (hweights p hp).trans (h.weights p hp) }

theorem assembleProgram (h : Governing m₀ m) (h₀ : m₀.Fenced) (p : Program) (name : String) :
    Governing m₀ (m.assembleProgram p name).value.2 := by
  obtain ⟨hspares, hweights⟩ := Session.secures_assemble h₀.numbered
    (fun _ hq => Session.not_controls_learned h₀.numbered hq) p name m.config.orthogonal false m.session ⟨h.network, h.pairs⟩
  unfold Machine.assembleProgram
  rw [Noted.value_bind]
  rcases hrun : ((Session.assemble p name m.config.orthogonal false).run.run m.session).value with ⟨e | a, session⟩
  · rw [hrun] at hspares
    exact { h with network := hspares.network, pairs := hspares.pairs }
  · rw [hrun] at hspares hweights
    have hlater : Governing m₀ { m with session } := { h with network := hspares.network, pairs := hspares.pairs }
    exact hlater.of_weights _ fun q hq => Weights.getElem?_extend_of_none m.weights (hweights a rfl q hq)

theorem assemble (h : Governing m₀ m) (h₀ : m₀.Fenced) (source name : String) :
    Governing m₀ (m.assemble source name).value.2 := by
  unfold Machine.assemble
  split
  · exact h
  · exact h.assembleProgram h₀ _ _

theorem rewind (h : Governing m₀ m) (entry : Pattern α) : Governing m₀ (m.rewind entry) := by
  have hfold : ∀ (layers : List LayerId) (m : Machine α), Governing m₀ m →
      Governing m₀ (layers.foldl (fun m l => m.hold l (Pointer.slotToken 0)) m) := by
    intro layers
    induction layers with
    | nil => exact fun _ h => h
    | cons l rest ih => exact fun m h => ih _ (h.hold l _)
  exact hfold _ _ ((of_activity h _).hold co falseToken)

theorem holdRegisters (h : Governing m₀ m) (registers : List (String × String)) :
    Governing m₀ (m.holdRegisters registers).2 := by
  induction registers generalizing m with
  | nil => exact h
  | cons r rest ih =>
    unfold Machine.holdRegisters
    split
    · split
      · exact ih (h.hold _ _)
      · exact h
    · exact h

theorem load (h : Governing m₀ m) (program : String) (registers : List (String × String)) :
    Governing m₀ (m.load program registers).value.2 := by
  unfold Machine.load
  cases hentry : m.entry? program with
  | none => exact h
  | some entry =>
    have hheld := (h.rewind entry).holdRegisters registers
    dsimp only
    rcases hrun : (m.rewind entry).holdRegisters registers with ⟨e | u, held⟩
    · rw [hrun] at hheld
      exact hheld
    · rw [hrun] at hheld
      rw [Noted.value_bind]
      have hreset := hheld.of_weights (held.network.resetPlastic held.plasticity held.weights)
        fun p hp => Network.getElem?_resetPlastic _ (hheld.plasticity p hp)
      exact { hreset with }

theorem learned (h : Governing m₀ m) (h₀ : m₀.Fenced) (open' : List Gate) {p : Pathway} (hp : p.Controls) :
    (m.learned open').value[p]? = m.weights[p]? := by
  have hstep : ∀ (w : Weights α) (q : Pathway), q ∈ m.network.plastic → (m.learnPathway w q).value[p]? = w[p]? := by
    intro w q hq
    have hne : ¬ compare q p = .eq := fun heq =>
      (h.numbered h₀).not_controls_plastic hq (Std.LawfulEqCmp.eq_of_compare heq ▸ hp)
    unfold Machine.learnPathway
    split
    · rw [Noted.value_bind]
      exact (Std.TreeMap.getElem?_insert).trans (if_neg hne)
    · rfl
  have hrun : ∀ (l : List Pathway), (∀ q ∈ l, q ∈ m.network.plastic) → ∀ w : Weights α,
      (l.foldl (fun w q => (m.learnPathway w q).value) w)[p]? = w[p]? := by
    intro l
    induction l with
    | nil => exact fun _ _ => rfl
    | cons q rest ih =>
      intro hl w
      rw [List.foldl_cons, ih (fun x hx => hl x (List.mem_cons_of_mem _ hx)), hstep w q (hl q List.mem_cons_self)]
  unfold Machine.learned
  rw [Noted.value_foldlM]
  exact hrun _ (fun q hq => List.mem_of_mem_filter hq) _

theorem tick (h : Governing m₀ m) (h₀ : m₀.Fenced) : Governing m₀ m.tick.value := by
  have hlearned := h.of_weights (m.learned m.openGates).value fun p hp => h.learned h₀ _ hp
  exact { hlearned with }

end Governing

/-- Whatever happens to a machine, it governs itself as it did. -/
theorem Later.governing (h₀ : m₀.Fenced) (h : Later m₀ m) : Governing m₀ m := by
  induction h with
  | here => exact h₀.governing
  | assembleProgram _ p name ih => exact ih.assembleProgram h₀ p name
  | assemble _ source name ih => exact ih.assemble h₀ source name
  | hold _ l token ih => exact ih.hold l token
  | load _ program registers ih => exact ih.load program registers
  | tick _ ih => exact ih.tick h₀
  | activate _ activity ih => exact ih.of_activity activity
  | write _ hp c ih =>
    refine ih.of_weights _ fun q hq => Std.TreeMap.getElem?_insert.trans (if_neg fun heq => ?_)
    exact (ih.numbered h₀).not_controls_plastic hp (Std.LawfulEqCmp.eq_of_compare heq ▸ hq)

end Machine

end Engram
