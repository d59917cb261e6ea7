/-
  Engram.Proofs.Data.Reassembling — adding a program a second time.

  After a program was added, its session has `Mastered` it: every layer has patterns for the tokens that
  it is asked for, every pathway holds the batch that it is given (`PairMap.Holds`), and the labels were
  the last tokens that the instruction pointer bound. This is gathered along the first call, since what
  follows a step of it takes nothing from what the step left (`mastered_of_learnProgram`).

  A session that has mastered a program takes every step of adding it again without a change
  (`learnProgram_again`). Only the history of the instruction pointer grows, by entries that are decoded
  already, so that the session acts as before (`Session.Alike`). The weights depend on the pathways alone,
  and come out the same.
-/

import Engram.Proofs.Association.Overwriting
import Engram.Proofs.Data.Failing
import Engram.Proofs.Data.Retention
import Engram.Proofs.Network.Rebinding

namespace Engram

open LayerId

variable {α β γ : Type}

/-! ## Pathways that hold a batch -/

namespace PairMap

variable [Scalar α] {m later : PairMap α} {n : Network α} {p q : Pathway} {x y : Columns α}

/-- Storing the batch for the pathway changes nothing. -/
def Holds (m : PairMap α) (p : Pathway) (x y : Columns α) : Prop := ∃ s, m[p]? = some s ∧ s.add? x y = .ok s

theorem Holds.congr (h : m.Holds p x y) (heq : later[p]? = m[p]?) : later.Holds p x y := by
  obtain ⟨s, hs, hadd⟩ := h
  exact ⟨s, heq.trans hs, hadd⟩

theorem getElem?_add_of_ne (h : m.add? n p x y = .ok later) (hne : q ≠ p) : later[q]? = m[q]? := by
  obtain ⟨s, -, -, -, rfl⟩ := of_add h
  rw [Std.TreeMap.getElem?_insert, if_neg fun heq => hne (Std.LawfulEqCmp.eq_of_compare heq).symm]

theorem holds_of_add [SameLaws α] (h : m.add? n p x y = .ok later) : later.Holds p x y := by
  obtain ⟨s, hs, hheight, htarget, rfl⟩ := of_add h
  have hcount : x.count = y.count := by
    unfold add? Pairs.add? at h
    by_contra hne
    rw [if_neg fun hfits => hne hfits.2.2] at h
    cases h
  refine ⟨_, Std.TreeMap.getElem?_insert_self, ?_⟩
  unfold Pairs.add?
  rw [if_pos ⟨hheight, htarget, hcount⟩]
  simp only [Pairs.foldl_store_again]

theorem Holds.exists_add (h : m.Holds p x y) (n : Network α) :
    ∃ later, m.add? n p x y = .ok later ∧ ∀ q : Pathway, later[q]? = m[q]? := by
  obtain ⟨s, hs, hadd⟩ := h
  have hget : m.getD p (.empty (n.size p.target) (n.size p.source)) = s := by
    rw [Std.TreeMap.getD_eq_getD_getElem?, hs, Option.getD_some]
  refine ⟨m.insert p s, ?_, fun q => ?_⟩
  · unfold add?
    rw [hget, hadd]
    rfl
  · rw [Std.TreeMap.getElem?_insert]
    split
    · next heq => rw [← Std.LawfulEqCmp.eq_of_compare heq, hs]
    · rfl

/-- The weights come from what the pathways hold, the rule and the activators. -/
theorem value_flash_congr {n' : Network α} (hpairs : ∀ q : Pathway, later[q]? = m[q]?) (hrule : n'.rule = n.rule)
    (hactivator : ∀ l, n'.activator l = n.activator l) (warning warning' : Pathway → (errors count : Nat) → String) :
    (later.flash n' warning').value = (m.flash n warning).value := by
  have hflashed (p : Pathway) (s : Pairs α) : flashed n' p s = flashed n p s := by
    simp only [flashed, hrule, hactivator]
  rw [value_flash, value_flash, (Pathway.equiv_of_getElem? hpairs).toList_eq]
  simp only [hflashed]

end PairMap

namespace Session

theorem Does.unique {x : Assembling α β} {s t t' : Session α} {b b' : β} (h : Does x s b t) (h' : Does x s b' t') :
    b = b' ∧ t = t' := by
  have heq : (Except.ok b, t) = ((.ok b', t') : Except (Fault α) β × Session α) := h.symm.trans h'
  simpa using heq

variable [Scalar α]

/-- The tokens that both layers of a pathway know have patterns there, and the pathway holds them. -/
def Trained (n : Network α) (m : PairMap α) (p : Pathway) : Prop := shared n p ≠ [] → ∃ x y,
  n.Gives p.source (shared n p) x ∧ n.Gives p.target (shared n p) y ∧ m.Holds p x y

theorem Trained.congr {n : Network α} {m later : PairMap α} {p : Pathway} (h : Trained n m p) (heq : later[p]? = m[p]?) :
    Trained n later p := by
  intro hne
  obtain ⟨x, y, hx, hy, hholds⟩ := h hne
  exact ⟨x, y, hx, hy, hholds.congr heq⟩

/-- The patterns that labels are bound to, given those of the lines. -/
def labelPatterns (labels : List (String × Nat)) (pointers : Columns α) : List (String × Pattern α) :=
  labels.map fun l => (l.1, pointers.patterns.getD l.2 #[])

omit [Scalar α] in
@[simp] theorem map_fst_labelPatterns (labels : List (String × Nat)) (pointers : Columns α) :
    (labelPatterns labels pointers).map (·.1) = labels.map (·.1) := by
  simp [labelPatterns]

/-- The patterns that load the lines, and those that come after them. -/
def currentOf (p : Program) (pointers : Columns α) : Columns α := { pointers with patterns := pointers.patterns.take p.size }

def followingOf (pointers : Columns α) : Columns α := { pointers with patterns := pointers.patterns.drop 1 }

/-- The layers have patterns for all tokens of a program, the pathways hold all its batches, and its labels
are the tokens that the instruction pointer bound last. -/
structure Mastered (s : Session α) (p : Program) (name : String) (pointers : Columns α) : Prop where
  literals : ∀ l ∈ ci :: s.network.registers, ∃ x, s.network.Gives l (p.literals s.network.registerNames) x
  operands : ∀ f ∈ [(Field.first, op1), (.second, op2)], ∃ x, s.network.Gives f.2 (p.fieldTokens f.1) x
  lines : s.network.Gives ip (pointerTokens name p.size) pointers
  labels : ∃ b : CodeBook α, (s.network.layer ip).book = b.bindEach (labelPatterns p.sortedLabels pointers)
  next : s.pairs.Holds ⟨ip, ip⟩ (currentOf p pointers) (followingOf pointers)
  fields : ∀ f ∈ fieldLayers, ∃ y, s.network.Gives f.2 (p.instructions.map (·.field f.1)) y ∧
    s.pairs.Holds ⟨f.2, ip⟩ (currentOf p pointers) y
  shared : ∀ q ∈ dataPathways s.network.registers, Trained s.network s.pairs q

/-! ## The first call -/

section

variable {s later : Session α} {l : LayerId} {orthogonal : Bool} {tokens : List String} {x y : Columns α} {p : Pathway} {u : Unit}

theorem eq_of_encode (h : Does (encode l orthogonal tokens) s x later) :
    s.network.encodeAll l orthogonal tokens = (.ok x, later.network) ∧ later = { s with network := later.network } := by
  unfold Does at h
  rw [value_encode, Prod.mk.injEq] at h
  obtain ⟨hresult, rfl⟩ := h
  exact ⟨Prod.ext hresult rfl, rfl⟩

theorem gives_of_encode (hl : l.position < s.network.layers.size) (h : Does (encode l orthogonal tokens) s x later) :
    later.network.Gives l tokens x ∧ s.network.Grows later.network ∧ later.pairs = s.pairs ∧
      ∀ other, other ≠ l → later.network.layer other = s.network.layer other := by
  obtain ⟨hall, hlater⟩ := eq_of_encode h
  have hnetwork : (s.network.encodeAll l orthogonal tokens).2 = later.network := congrArg Prod.snd hall
  refine ⟨Network.gives_of_encodeAll hl hall, ?_, by rw [hlater], fun other hne => ?_⟩
  · rw [← hnetwork]
    exact s.network.grows_encodeAll l orthogonal tokens
  · rw [← hnetwork]
    exact s.network.layer_encodeAll_of_ne hne orthogonal tokens

/-- Encoding known tokens gives their patterns and changes nothing. -/
theorem gives_of_encode_known (hl : l.position < s.network.layers.size)
    (hknown : ∀ t ∈ tokens, (s.network.layer l).knows t = true) (h : Does (encode l orthogonal tokens) s x later) :
    s.network.Gives l tokens x ∧ later = s := by
  obtain ⟨hall, hlater⟩ := eq_of_encode h
  have hnetwork : later.network = s.network := by
    rw [← s.network.encodeAll_of_known hknown orthogonal, hall]
  have hgives := (gives_of_encode hl h).1
  rw [hnetwork] at hgives hlater
  exact ⟨hgives, hlater⟩

theorem gives_of_encodeEach {layers : List γ} {l : γ → LayerId} {f : γ → List String}
    (hl : ∀ x ∈ layers, (l x).position < s.network.layers.size)
    (h : Does (layers.forM fun x => do let _ ← encode (l x) orthogonal (f x)) s u later) :
    (∀ x ∈ layers, ∃ c, later.network.Gives (l x) (f x) c) ∧ s.network.Grows later.network := by
  induction layers generalizing s with
  | nil =>
    rw [(does_pure h).2]
    exact ⟨fun x hx => (List.not_mem_nil hx).elim, .refl _⟩
  | cons x rest ih =>
    obtain ⟨_, t, hfirst, hrest⟩ := does_bind h
    obtain ⟨c, t', henc, hpure⟩ := does_bind hfirst
    obtain ⟨-, rfl⟩ := does_pure hpure
    obtain ⟨hgives, hgrows, -, -⟩ := gives_of_encode (hl x List.mem_cons_self) henc
    obtain ⟨hall, hafter⟩ := ih (fun y hy => by rw [hgrows.count]; exact hl y (List.mem_cons_of_mem _ hy)) hrest
    refine ⟨fun y hy => ?_, hgrows.trans hafter⟩
    rcases List.mem_cons.mp hy with rfl | hy
    · exact ⟨c, hgives.of_keeps hafter fun _ _ => trivial⟩
    · exact hall y hy

theorem does_bindLabels_eq (s : Session α) (pointers : Columns α) (labels : List (String × Nat)) :
    Does (labels.forM (bindLabel pointers)) s ()
      { s with network := s.network.bindEach ip (labelPatterns labels pointers) } := by
  induction labels generalizing s with
  | nil => rfl
  | cons label rest ih =>
    have hfirst : Does (bindLabel pointers label) s ()
        { s with network := s.network.bindToken ip label.1 (pointers.patterns.getD label.2 #[]) } := rfl
    exact does_of_bind hfirst (ih _)

/-- Binding labels takes no pattern from other tokens. -/
theorem of_bindLabels {pointers : Columns α} {labels : List (String × Nat)} (hip : ip.position < s.network.layers.size)
    (h : Does (labels.forM (bindLabel pointers)) s u later) :
    s.network.Keeps (fun l t => ¬(l = ip ∧ t ∈ labels.map (·.1))) later.network ∧
      (later.network.layer ip).book = (s.network.layer ip).book.bindEach (labelPatterns labels pointers) := by
  obtain ⟨-, rfl⟩ := (does_bindLabels_eq s pointers labels).unique h
  have hkeeps := s.network.keeps_bindEach ip (labelPatterns labels pointers)
  rw [map_fst_labelPatterns] at hkeeps
  refine ⟨hkeeps, ?_⟩
  dsimp only
  rw [Network.bindEach_eq hip, Network.layer_modifyLayer, if_pos ⟨rfl, hip⟩]

theorem holds_of_learn [SameLaws α] (h : Does (learn p x y) s u later) :
    later.pairs.Holds p x y ∧ later.network = s.network ∧ ∀ q : Pathway, q ≠ p → later.pairs[q]? = s.pairs[q]? := by
  obtain ⟨hnetwork, hadd⟩ := does_learn h
  exact ⟨PairMap.holds_of_add hadd, hnetwork, fun q hne => PairMap.getElem?_add_of_ne hadd hne⟩

/-- What storing the fields of a program leaves, each on a layer of its own. -/
theorem holds_of_learnFields [SameLaws α] {fields : List (Field × LayerId)} (hnodup : (fields.map (·.2)).Nodup)
    (hl : ∀ f ∈ fields, f.2.position < s.network.layers.size ∧ f.2 ≠ ip) {current : Columns α} {program : Program}
    (h : Does (fields.forM fun (f, layer) => do
      let targets ← encode layer false (program.instructions.map (·.field f))
      learn ⟨layer, ip⟩ current targets) s u later) :
    (∀ f ∈ fields, ∃ y, later.network.Gives f.2 (program.instructions.map (·.field f.1)) y ∧
      later.pairs.Holds ⟨f.2, ip⟩ current y) ∧
    s.network.Grows later.network ∧ later.network.layer ip = s.network.layer ip ∧
    ∀ q : Pathway, (∀ f ∈ fields, q ≠ ⟨f.2, ip⟩) → later.pairs[q]? = s.pairs[q]? := by
  induction fields generalizing s with
  | nil =>
    rw [(does_pure h).2]
    exact ⟨fun f hf => (List.not_mem_nil hf).elim, .refl _, rfl, fun _ _ => rfl⟩
  | cons f rest ih =>
    obtain ⟨_, t, hfirst, hrest⟩ := does_bind h
    obtain ⟨y, t', henc, hlearn⟩ := does_bind hfirst
    obtain ⟨hnotin, hnodup⟩ := List.nodup_cons.mp hnodup
    obtain ⟨hposition, hne⟩ := hl f List.mem_cons_self
    obtain ⟨hgives, hgrows, hpairs, hothers⟩ := gives_of_encode hposition henc
    obtain ⟨hholds, hnetwork, hsame⟩ := holds_of_learn hlearn
    rw [← hnetwork] at hgives hgrows hothers
    obtain ⟨hall, hafter, hpointer, hkept⟩ := ih hnodup
      (fun g hg => by rw [hgrows.count]; exact hl g (List.mem_cons_of_mem _ hg)) hrest
    have hother : ∀ g ∈ rest, (⟨f.2, ip⟩ : Pathway) ≠ ⟨g.2, ip⟩ := by
      intro g hg heq
      have htarget : g.2 = f.2 := congrArg Pathway.target heq.symm
      exact hnotin (List.mem_map.mpr ⟨g, hg, htarget⟩)
    refine ⟨fun g hg => ?_, hgrows.trans hafter, hpointer.trans (hothers ip hne.symm), fun q hq => ?_⟩
    · rcases List.mem_cons.mp hg with rfl | hg
      · exact ⟨y, hgives.of_keeps hafter fun _ _ => trivial, hholds.congr (hkept _ hother)⟩
      · exact hall g hg
    · rw [hkept q fun g hg => hq g (List.mem_cons_of_mem _ hg), hsame q (hq f List.mem_cons_self), hpairs]

theorem trained_of_learnShared [SameLaws α] (hsource : p.source.position < s.network.layers.size)
    (htarget : p.target.position < s.network.layers.size) (h : Does (learnShared p) s u later) :
    Trained s.network later.pairs p ∧ later.network = s.network ∧
      ∀ q : Pathway, q ≠ p → later.pairs[q]? = s.pairs[q]? := by
  obtain ⟨t, s₁, hget, hrest⟩ := does_bind h
  obtain ⟨rfl, rfl⟩ := does_get hget
  by_cases hempty : (shared s₁.network p).isEmpty = true
  · rw [if_pos hempty] at hrest
    obtain ⟨-, rfl⟩ := does_pure hrest
    exact ⟨fun hne => (hne (List.isEmpty_iff.mp hempty)).elim, rfl, fun _ _ => rfl⟩
  · rw [if_neg hempty] at hrest
    obtain ⟨x, s₂, hx, hrest⟩ := does_bind hrest
    obtain ⟨hgives, rfl⟩ := gives_of_encode_known hsource (fun t ht => (mem_shared.mp ht).1) hx
    obtain ⟨y, s₃, hy, hlearn⟩ := does_bind hrest
    obtain ⟨hgives', rfl⟩ := gives_of_encode_known htarget (fun t ht => (mem_shared.mp ht).2) hy
    obtain ⟨hholds, hnetwork, hsame⟩ := holds_of_learn hlearn
    exact ⟨fun _ => ⟨x, y, hgives, hgives', hholds⟩, hnetwork, hsame⟩

theorem trained_of_learnEachShared [SameLaws α] {ps : List Pathway}
    (hps : ∀ p ∈ ps, p.source.position < s.network.layers.size ∧ p.target.position < s.network.layers.size)
    (h : Does (ps.forM learnShared) s u later) :
    (∀ p ∈ ps, Trained s.network later.pairs p) ∧ later.network = s.network ∧
      ∀ q : Pathway, q ∉ ps → later.pairs[q]? = s.pairs[q]? := by
  induction ps generalizing s with
  | nil =>
    rw [(does_pure h).2]
    exact ⟨fun p hp => (List.not_mem_nil hp).elim, rfl, fun _ _ => rfl⟩
  | cons p rest ih =>
    obtain ⟨_, t, hfirst, hrest⟩ := does_bind h
    obtain ⟨hsource, htarget⟩ := hps p List.mem_cons_self
    obtain ⟨htrained, hnetwork, hsame⟩ := trained_of_learnShared hsource htarget hfirst
    obtain ⟨hall, hlater, hkept⟩ := ih (fun q hq => by rw [hnetwork]; exact hps q (List.mem_cons_of_mem _ hq)) hrest
    rw [hnetwork] at hall hlater
    refine ⟨fun q hq => ?_, hlater, fun q hq => ?_⟩
    · -- a pathway that is listed again is given the same batch again
      by_cases hmem : q ∈ rest
      · exact hall q hmem
      · obtain rfl := (List.mem_cons.mp hq).resolve_right hmem
        exact htrained.congr (hkept q hmem)
    · rw [List.mem_cons, not_or] at hq
      rw [hkept q hq.2, hsame q hq.1]

end

/-- A session has mastered a program that was added to it. -/
theorem mastered_of_learnProgram [SameLaws α] {s later : Session α} (hs : s.network.Numbered) {p : Program}
    {name : String} (hlabels : ∀ l ∈ p.labels, l.1 ∉ pointerTokens name p.size) {orthogonal : Bool} {u : Unit}
    (h : Does (learnProgram p name orthogonal) s u later) : ∃ pointers, Mastered later p name pointers := by
  obtain ⟨t, s₁, hget, hrest⟩ := does_bind h
  obtain ⟨rfl, rfl⟩ := does_get hget
  -- the tokens of the operands
  obtain ⟨_, s₂, hliterals, hrest⟩ := does_bind hrest
  obtain ⟨hliterals, hgrows₂⟩ := gives_of_encodeEach (l := id) (f := fun _ => p.literals s₁.network.registerNames)
    (fun l hl => (of_mem_literalLayers hs hl).1) hliterals
  have hs₂ := hgrows₂.numbered hs
  obtain ⟨_, s₃, hoperands, hrest⟩ := does_bind hrest
  obtain ⟨hoperands, hgrows₃⟩ := gives_of_encodeEach (l := Prod.snd) (f := fun x => p.fieldTokens x.1)
    (fun x hx => (of_mem_fieldLayers hs₂ (mem_fieldLayers_of_operand hx)).1) hoperands
  have hs₃ := hgrows₃.numbered hs₂
  -- the tokens of the lines, and the labels
  obtain ⟨pointers, s₄, hpointers, hrest⟩ := does_bind hrest
  obtain ⟨hpointers, hgrows₄, -, -⟩ := gives_of_encode (Nat.lt_of_lt_of_le (by decide) hs₃.control) hpointers
  have hs₄ := hgrows₄.numbered hs₃
  obtain ⟨_, s₅, hbind, hrest⟩ := does_bind hrest
  obtain ⟨hkeeps₅, hbook₅⟩ := of_bindLabels (Nat.lt_of_lt_of_le (by decide) hs₄.control) hbind
  have hs₅ := hkeeps₅.numbered hs₄
  -- the lines follow each other, and are loaded
  obtain ⟨_, s₆, hnext, hrest⟩ := does_bind hrest
  obtain ⟨hnext, hnetwork₆, -⟩ := holds_of_learn hnext
  rw [← hnetwork₆] at hs₅ hkeeps₅ hbook₅
  obtain ⟨_, s₇, hfields, hshared⟩ := does_bind hrest
  obtain ⟨hfields, hgrows₇, hpointer₇, hkept₇⟩ := holds_of_learnFields (by decide)
    (fun f hf => of_mem_fieldLayers hs₅ hf) hfields
  have hs₇ := hgrows₇.numbered hs₅
  -- and the layers share their tokens
  have hregisters : s₇.network.registers = s₁.network.registers := by
    rw [hgrows₇.registers, hkeeps₅.registers, hgrows₄.registers, hgrows₃.registers, hgrows₂.registers]
  rw [← hregisters] at hshared
  obtain ⟨hshared, hnetwork₈, hkept₈⟩ := trained_of_learnEachShared
    (fun q hq => ⟨(of_mem_dataPathways hs₇ hq).1, (of_mem_dataPathways hs₇ hq).2.1⟩) hshared
  have hlater : s₆.network.Grows later.network := by
    rw [hnetwork₈]
    exact hgrows₇
  have hfrom (l : LayerId) : (⟨l, ip⟩ : Pathway) ∉ dataPathways s₇.network.registers :=
    fun hl => (of_mem_dataPathways hs₇ hl).2.2 rfl
  -- the labels took no pattern from a token of another layer, nor from a line
  have hothers : s₃.network.Keeps (fun l _ => l ≠ ip) later.network :=
    ((hgrows₄.mono fun _ _ _ => trivial).trans (hkeeps₅.mono fun _ _ hl h => hl h.1)).trans (hlater.mono fun _ _ _ => trivial)
  have hlines : ∀ t ∈ pointerTokens name p.size, ¬(ip = ip ∧ t ∈ p.sortedLabels.map (·.1)) := by
    intro t ht hmem
    obtain ⟨label, hlabel, rfl⟩ := List.mem_map.mp hmem.2
    exact hlabels label (Program.mem_sortedLabels.mp hlabel) ht
  refine ⟨pointers, ⟨fun l hl => ?_, fun f hf => ?_, ?_, ⟨(s₄.network.layer ip).book, ?_⟩, ?_, fun f hf => ?_, ?_⟩⟩
  · rw [hnetwork₈, hregisters] at hl
    rw [hothers.registerNames, hgrows₃.registerNames, hgrows₂.registerNames]
    obtain ⟨x, hx⟩ := hliterals l hl
    exact ⟨x, (hx.of_keeps hgrows₃ fun _ _ => trivial).of_keeps hothers fun _ _ => (of_mem_literalLayers hs hl).2⟩
  · obtain ⟨x, hx⟩ := hoperands f hf
    exact ⟨x, hx.of_keeps hothers fun _ _ => (of_mem_fieldLayers hs (mem_fieldLayers_of_operand hf)).2⟩
  · exact (hpointers.of_keeps hkeeps₅ hlines).of_keeps hlater fun _ _ => trivial
  · rw [hnetwork₈, hpointer₇]
    exact hbook₅
  · exact hnext.congr ((hkept₈ _ (hfrom ip)).trans (hkept₇ _ (by decide)))
  · obtain ⟨y, hgives, hholds⟩ := hfields f hf
    rw [← hnetwork₈] at hgives
    exact ⟨y, hgives, hholds.congr (hkept₈ _ (hfrom f.2))⟩
  · rw [hnetwork₈]
    exact hshared

/-! ## The second call -/

/-- Layers that share tokens share the same ones. -/
theorem shared_alike {n later : Network α} (h : n.Alike later) (p : Pathway) : shared later p = shared n p := by
  have htokens : (later.layer p.source).tokens = (n.layer p.source).tokens :=
    congrArg (List.map Prod.fst) (h.book p.source.position).bindings
  have hknows : (later.layer p.target).knows = (n.layer p.target).knows :=
    funext fun t => congrArg Option.isSome (h.pattern? p.target t)
  rw [Session.shared, Session.shared, htokens, hknows]

/-- The sessions have the same programs and pathways, and act alike on every layer. -/
structure Alike (s later : Session α) : Prop where
  network : s.network.Alike later.network
  pairs : ∀ p : Pathway, later.pairs[p]? = s.pairs[p]?
  programs : later.programs = s.programs

section

variable {s t : Session α} {l : LayerId} {tokens : List String} {x y : Columns α} {p : Pathway}

/-- Encoding tokens that have patterns changes nothing. -/
theorem does_encode_again (h : s.network.Gives l tokens x) (orthogonal : Bool) : Does (encode l orthogonal tokens) s x s := by
  unfold Does
  rw [value_encode, Network.encodeAll_of_gives h]

theorem runs_encodeEach_again {layers : List γ} {l : γ → LayerId} {f : γ → List String}
    (h : ∀ x ∈ layers, ∃ c, s.network.Gives (l x) (f x) c) (orthogonal : Bool) :
    Runs (layers.forM fun x => do let _ ← encode (l x) orthogonal (f x)) s fun _ t => t = s := by
  refine runs_forM (I := fun t => t = s) ?_ rfl
  intro x hx t ht
  subst ht
  obtain ⟨c, hc⟩ := h x hx
  exact ⟨(), t, does_of_bind (does_encode_again hc orthogonal) rfl, rfl⟩

/-- Storing what a pathway holds. -/
theorem runs_learn_again (h : s.Alike t) (hholds : s.pairs.Holds p x y) : Runs (learn p x y) t fun _ u => s.Alike u := by
  obtain ⟨pairs, hadd, hsame⟩ := (hholds.congr (h.pairs p)).exists_add t.network
  refine ⟨(), { t with pairs }, ?_, h.network, fun q => (hsame q).trans (h.pairs q), h.programs⟩
  refine does_of_bind (t := t) (b := t) rfl ?_
  rw [hadd]
  rfl

theorem runs_learnField_again (h : s.Alike t) (hgives : s.network.Gives l tokens y) (hholds : s.pairs.Holds p x y) :
    Runs (do let targets ← encode l false tokens; learn p x targets) t fun _ u => s.Alike u := by
  obtain ⟨v, u, hdoes, hu⟩ := runs_learn_again h hholds
  have hgives := hgives.of_keeps h.network.grows fun _ _ => trivial
  exact ⟨v, u, does_of_bind (does_encode_again hgives false) hdoes, hu⟩

theorem runs_learnShared_again (h : s.Alike t) (htrained : Trained s.network s.pairs p) :
    Runs (learnShared p) t fun _ u => s.Alike u := by
  refine runs_get_bind ?_
  dsimp only
  rw [shared_alike h.network]
  by_cases hempty : (shared s.network p).isEmpty = true
  · rw [if_pos hempty]
    exact runs_pure h
  rw [if_neg hempty]
  obtain ⟨x, y, hx, hy, hholds⟩ := htrained fun hnil => hempty (List.isEmpty_iff.mpr hnil)
  obtain ⟨v, u, hdoes, hu⟩ := runs_learn_again h hholds
  have hx := does_encode_again (hx.of_keeps h.network.grows fun _ _ => trivial) false
  have hy := does_encode_again (hy.of_keeps h.network.grows fun _ _ => trivial) false
  exact ⟨v, u, does_of_bind hx (does_of_bind hy hdoes), hu⟩

end

/-- A session that has mastered a program acts as before once the program is added again. -/
theorem learnProgram_again {s : Session α} (hs : s.network.Numbered) {p : Program} (hp : p.Labelled) {name : String}
    {pointers : Columns α} (h : Mastered s p name pointers) (orthogonal : Bool) :
    Runs (learnProgram p name orthogonal) s fun _ t => s.Alike t := by
  have hip : ip.position < s.network.layers.size := Nat.lt_of_lt_of_le (by decide) hs.control
  refine runs_get_bind ?_
  refine (runs_encodeEach_again (l := id) h.literals orthogonal).bind fun _ t ht => ?_
  subst ht
  refine (runs_encodeEach_again (l := Prod.snd) (f := fun x => p.fieldTokens x.1) h.operands orthogonal).bind fun _ t ht => ?_
  subst ht
  -- every label has the pattern of its line, and was bound to it in this order
  have hlabels : Does (p.sortedLabels.forM (bindLabel pointers)) t ()
      { t with network := t.network.bindEach ip (labelPatterns p.sortedLabels pointers) } := does_bindLabels_eq t pointers p.sortedLabels
  obtain ⟨b, hbook⟩ := h.labels
  have halike : t.Alike { t with network := t.network.bindEach ip (labelPatterns p.sortedLabels pointers) } :=
    ⟨Network.alike_bindEach hip hbook (by rw [map_fst_labelPatterns]; exact hp.nodup_sorted), fun _ => rfl, rfl⟩
  have hfields {u : Session α} (hu : t.Alike u) (f : Field × LayerId) (hf : f ∈ fieldLayers) :
      Runs (do let targets ← encode f.2 false (p.instructions.map (·.field f.1)); learn ⟨f.2, ip⟩ (currentOf p pointers) targets)
        u fun _ u => t.Alike u := by
    obtain ⟨y, hgives, hholds⟩ := h.fields f hf
    exact runs_learnField_again hu hgives hholds
  obtain ⟨v, later, hrest, hlater⟩ := (runs_learn_again halike h.next).bind fun _ u hu =>
    (runs_forM (fun f hf u hu => hfields hu f hf) hu).bind fun _ u hu =>
    runs_forM (fun q hq u hu => runs_learnShared_again hu (h.shared q hq)) hu
  exact ⟨v, later, does_of_bind (does_encode_again h.lines orthogonal) (does_of_bind hlabels hrest), hlater⟩

omit [Scalar α] in
/-- A program that is there is not noted again. -/
theorem does_enrol_again {s : Session α} {name : String} (h : name ∈ s.programs) : Does (enrol name) s () s := by
  have henrolled : s.enrolled name = s := by
    rw [enrolled, if_pos (List.contains_iff_mem.mpr h)]
  have hdoes := does_enrol_enrolled s name
  rwa [henrolled] at hdoes

/-- A session that acts alike writes the same weights. -/
theorem does_flash_again {s t : Session α} (h : s.Alike t) {name : String} {verbose : Bool} {a : Assembly α}
    (hflash : Does (flash name verbose) s a s) (verbose' : Bool) : Does (flash name verbose') t a t := by
  obtain ⟨a', t', hagain, rfl⟩ := runs_flash t name verbose'
  obtain ⟨-, warning, hweights, herrors⟩ := does_flash hflash
  obtain ⟨-, warning', hweights', herrors'⟩ := does_flash hagain
  have hvalue := PairMap.value_flash_congr h.pairs h.network.rule
    (fun l => (h.network.book l.position).activator) warning warning'
  have hweight : a'.weights = a.weights := by rw [hweights', hweights, hvalue]
  have herror : a'.errors = a.errors := by rw [herrors', herrors, hvalue]
  obtain rfl : a' = a := by
    cases a
    cases a'
    rw [Assembly.mk.injEq]
    exact ⟨hweight, herror⟩
  exact hagain

/-- Adding a program again under the same name, right after it was added, succeeds with the same weights
and as many associations missed, and the session is as it was: every code book has the same tokens in
the same order with the same patterns, decodes alike and draws the same patterns next; every pathway holds
the same associations; and the programs are the same. This holds for any session over a network
that numbers its layers, as all networks do that are built, and for exact and running numbers alike; the
second call may ask for the other family of patterns. -/
theorem assemble_again [SameLaws α] {s later : Session α} (hs : s.network.Numbered) {registers : List String}
    {source : String} {program : Program} (hparse : Program.parse registers source = .ok program) {name : String}
    {orthogonal verbose : Bool} {a : Assembly α} (h : Does (assemble program name orthogonal verbose) s a later)
    (orthogonal' verbose' : Bool) :
    ∃ again, Does (assemble program name orthogonal' verbose') later a again ∧ later.Alike again := by
  have hp := (Program.labelled_of_parse hparse).withScope name
  obtain ⟨hname, hempty, t, u, v, henrol, hlearn, hflash⟩ := of_assemble h
  -- the first call leaves a session that has mastered the program, and lists it
  obtain ⟨-, rfl⟩ := (does_enrol_enrolled s name).unique henrol
  obtain ⟨pointers, hmastered⟩ := mastered_of_learnProgram (s := s.enrolled name) hs (fun l => label_not_mem_pointerTokens hname) hlearn
  have hconfined := confined_learnProgram (s := s.enrolled name) hs program hname orthogonal
  unfold Does at hlearn
  rw [hlearn] at hconfined
  have hlater : later.network.Numbered := hconfined.keeps.numbered hs
  have hlisted : name ∈ later.programs := by
    rw [hconfined.programs]
    exact mem_enrolled.mpr (.inr rfl)
  -- so the second call finds everything as it is to be
  obtain ⟨w, again, hagain, halike⟩ := learnProgram_again hlater hp hmastered orthogonal'
  refine ⟨again, ?_, halike⟩
  unfold assemble
  rw [if_pos hname, hempty, if_neg Bool.false_ne_true]
  exact does_of_bind (does_enrol_again hlisted) (does_of_bind hagain (does_flash_again halike hflash verbose'))

/-- A program of one labelled line, which is added to a small network with orthogonal patterns and then with
random ones. -/
theorem labelledCall_again : ∃ (a : Assembly Fixed) (s again : Session Fixed),
    Does (assemble labelledCall.program "a" true false) (Session.new smallNetwork) a s ∧
      Does (assemble labelledCall.program "a" false true) s a again ∧ s.Alike again := by
  obtain ⟨a, s, -, -, hfirst, -⟩ := does_of_addsBoth addsBoth_smallNetwork
  have hparse : Program.parse smallNetwork.registerNames "t: nop" = .ok labelledCall.program := by decide +kernel
  have hnumbered := (Network.builtFrom_of_build build_smallConfig).numbered
  obtain ⟨again, hagain, halike⟩ := assemble_again hnumbered hparse hfirst false true
  exact ⟨a, s, again, hfirst, hagain, halike⟩

end Session

end Engram
