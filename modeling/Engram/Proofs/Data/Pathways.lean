/-
  Engram.Proofs.Data.Pathways — the gathered associations of several pathways.

  Associations are stored pathway by pathway, so a batch changes what its own pathway is told to
  recall and nothing else (`target?_add`). Flashing writes every pathway over all it has; when no
  association is missed in all, none is missed anywhere (`flash_spec`).
-/

import Engram.Data.PairMap
import Engram.Proofs.Association.Targets
import Std.Data.TreeMap.Lemmas

namespace Engram

namespace Noted

theorem value_foldlM {β γ : Type} (f : β → γ → Noted β) (l : List γ) (init : β) :
    (l.foldlM f init).value = l.foldl (fun acc x => (f acc x).value) init := by
  induction l generalizing init with
  | nil => rfl
  | cons x rest ih => rw [List.foldlM_cons, value_bind, ih, List.foldl_cons]

end Noted

namespace Pathway

variable {β : Type} {l : List (Pathway × β)}

/-- Inserting values under pathways leaves what is there under another one. -/
theorem getElem?_foldl_insert_of_not_mem {p : Pathway} (h : p ∉ l.map (·.1)) (m : Std.TreeMap Pathway β) :
    (l.foldl (fun m x => m.insert x.1 x.2) m)[p]? = m[p]? := by
  induction l generalizing m with
  | nil => rfl
  | cons x rest ih =>
    rw [List.map_cons, List.mem_cons, not_or] at h
    rw [List.foldl_cons, ih h.2, Std.TreeMap.getElem?_insert,
      if_neg fun heq => h.1 (Std.LawfulEqCmp.eq_of_compare heq).symm]

/-- Inserting values under different pathways leaves every one of them. -/
theorem getElem?_foldl_insert_of_mem (hl : (l.map (·.1)).Nodup) (m : Std.TreeMap Pathway β) {p : Pathway} {v : β}
    (h : (p, v) ∈ l) : (l.foldl (fun m x => m.insert x.1 x.2) m)[p]? = some v := by
  induction l generalizing m with
  | nil => exact (List.not_mem_nil h).elim
  | cons x rest ih =>
    obtain ⟨hx, hrest⟩ := List.nodup_cons.mp hl
    rcases List.mem_cons.mp h with rfl | h
    · rw [List.foldl_cons, getElem?_foldl_insert_of_not_mem hx]
      exact Std.TreeMap.getElem?_insert_self
    · exact ih hrest _ h

/-- Inserting what a pathway determines, in any order. -/
theorem getElem?_foldl_insert_apply (f : Pathway → β) (l : List Pathway) (m : Std.TreeMap Pathway β) (p : Pathway) :
    (l.foldl (fun m q => m.insert q (f q)) m)[p]? = if p ∈ l then some (f p) else m[p]? := by
  induction l generalizing m with
  | nil => rw [if_neg List.not_mem_nil]; rfl
  | cons q rest ih =>
    rw [List.foldl_cons, ih, Std.TreeMap.getElem?_insert]
    by_cases hq : q = p
    · subst hq
      rw [if_pos Std.ReflCmp.compare_self, if_pos List.mem_cons_self, ite_self]
    · have hmem : p ∈ q :: rest ↔ p ∈ rest := List.mem_cons.trans (or_iff_right fun h => hq h.symm)
      simp only [hmem, if_neg fun hc => hq (Std.LawfulEqCmp.eq_of_compare hc)]

/-- What holds of all values under their pathways holds after others of which it holds were inserted. -/
theorem forall_foldl_insert {P : Pathway → β → Prop} (hl : ∀ x ∈ l, P x.1 x.2) {m : Std.TreeMap Pathway β}
    (hm : ∀ (p : Pathway) v, m[p]? = some v → P p v) :
    ∀ (p : Pathway) v, (l.foldl (fun m x => m.insert x.1 x.2) m)[p]? = some v → P p v := by
  induction l generalizing m with
  | nil => exact hm
  | cons x rest ih =>
    refine ih (fun y hy => hl y (List.mem_cons_of_mem _ hy)) fun p v hv => ?_
    rw [Std.TreeMap.getElem?_insert] at hv
    split at hv
    next heq =>
      obtain rfl : x.1 = p := Std.LawfulEqCmp.eq_of_compare heq
      obtain rfl := Option.some.inj hv
      exact hl x List.mem_cons_self
    next => exact hm p v hv

theorem nodup_keys_toList (m : Std.TreeMap Pathway β) : (m.toList.map (·.1)).Nodup := by
  rw [List.Nodup, List.pairwise_map]
  exact Std.TreeMap.distinct_keys_toList.imp fun h heq => h (by rw [heq]; exact Std.ReflCmp.compare_self)

theorem not_mem_keys_toList {m : Std.TreeMap Pathway β} {p : Pathway} (h : m[p]? = none) : p ∉ m.toList.map (·.1) := by
  rintro hmem
  obtain ⟨x, hx, rfl⟩ := List.mem_map.mp hmem
  rw [Std.TreeMap.mem_toList_iff_getElem?_eq_some.mp hx] at h
  cases h

/-- Maps with the same value under every pathway list the same values. -/
theorem equiv_of_getElem? {m m' : Std.TreeMap Pathway β} (h : ∀ p : Pathway, m[p]? = m'[p]?) : m.Equiv m' := by
  have hnodup (k : Std.TreeMap Pathway β) : k.toList.Nodup := by
    have hkeys := nodup_keys_toList k
    rw [List.Nodup, List.pairwise_map] at hkeys
    exact hkeys.imp fun hne heq => hne (congrArg Prod.fst heq)
  refine .of_toList_perm ((List.perm_ext_iff_of_nodup (hnodup m) (hnodup m')).mpr fun x => ?_)
  rw [Std.TreeMap.mem_toList_iff_getElem?_eq_some, Std.TreeMap.mem_toList_iff_getElem?_eq_some, h]

end Pathway

namespace Weights

variable {α : Type} (w : Weights α) {later : Weights α} {p : Pathway}

theorem extend_eq (later : Weights α) : w.extend later = later.toList.foldl (fun w x => w.insert x.1 x.2) w :=
  Std.TreeMap.foldl_eq_foldl_toList

theorem getElem?_extend_of_some {c : Connection α} (h : later[p]? = some c) : (w.extend later)[p]? = some c := by
  rw [extend_eq]
  exact Pathway.getElem?_foldl_insert_of_mem (Pathway.nodup_keys_toList later) w
    (Std.TreeMap.mem_toList_iff_getElem?_eq_some.mpr h)

theorem getElem?_extend_of_none (h : later[p]? = none) : (w.extend later)[p]? = w[p]? := by
  rw [extend_eq]
  exact Pathway.getElem?_foldl_insert_of_not_mem (Pathway.not_mem_keys_toList h) w

end Weights

variable {α : Type} [Scalar α]

/-- Every pattern has the height of the columns. -/
def Columns.Sized (c : Columns α) : Prop := ∀ p ∈ c.patterns, p.size = c.height

namespace PairMap

/-- What a pathway is told to recall for a key. -/
def target? (m : PairMap α) (p : Pathway) (k : Pattern α) : Option (Pattern α) := m[p]?.bind (·.target? k)

/-- Keys and targets have the sizes of the layers that a pathway connects. -/
def Sized (m : PairMap α) (n : Network α) : Prop :=
  ∀ (p : Pathway) (s : Pairs α), m[p]? = some s → s.Sized ∧ s.targetSize = n.size p.target ∧ s.sourceSize = n.size p.source

theorem sized_empty (n : Network α) : Sized ({} : PairMap α) n := by
  intro p s h
  simp at h

/-- The associations of every pathway are kept for layers of the sizes that it connects. -/
def Fits (m : PairMap α) (n : Network α) : Prop :=
  ∀ (p : Pathway) (s : Pairs α), m[p]? = some s → s.targetSize = n.size p.target ∧ s.sourceSize = n.size p.source

theorem fits_empty (n : Network α) : Fits ({} : PairMap α) n := by
  intro p s h
  simp at h

/-- What storing a batch does to the map. -/
theorem of_add {m m' : PairMap α} {n : Network α} {p : Pathway} {x y : Columns α} (h : m.add? n p x y = .ok m') :
    ∃ s : Pairs α, s = m.getD p (.empty (n.size p.target) (n.size p.source)) ∧
      x.height = s.sourceSize ∧ y.height = s.targetSize ∧
      m' = m.insert p { s with pairs := (x.patterns.zip y.patterns).foldl (fun ps p => Pairs.store p.1 p.2 ps) s.pairs } := by
  refine ⟨_, rfl, ?_⟩
  unfold add? Pairs.add? at h
  generalize m.getD p (.empty (n.size p.target) (n.size p.source)) = s at h ⊢
  by_cases hs : x.height = s.sourceSize ∧ y.height = s.targetSize ∧ x.count = y.count
  · rw [if_pos hs] at h
    exact ⟨hs.1, hs.2.1, (Except.ok.inj h).symm⟩
  · rw [if_neg hs] at h
    cases h

/-- The associations kept so far, or none, fit the layers that their pathway connects. -/
theorem Fits.getD {m : PairMap α} {n : Network α} (hm : m.Fits n) (p : Pathway) :
    (m.getD p (.empty (n.size p.target) (n.size p.source))).targetSize = n.size p.target ∧
      (m.getD p (.empty (n.size p.target) (n.size p.source))).sourceSize = n.size p.source := by
  rw [Std.TreeMap.getD_eq_getD_getElem?]
  cases hget : m[p]? with
  | none => exact ⟨rfl, rfl⟩
  | some s => exact hm p s hget

theorem Fits.add {m m' : PairMap α} {n : Network α} (hm : m.Fits n) {p : Pathway} {x y : Columns α}
    (h : m.add? n p x y = .ok m') : m'.Fits n := by
  obtain ⟨s, hs, -, -, rfl⟩ := of_add h
  intro q t hq
  rw [Std.TreeMap.getElem?_insert] at hq
  split at hq
  next heq =>
    obtain rfl : p = q := Std.LawfulEqCmp.eq_of_compare heq
    cases hq
    subst hs
    exact hm.getD p
  · exact hm q t hq

/-- A batch that fits the layers of its pathway is stored. -/
theorem exists_add {m : PairMap α} {n : Network α} (hm : m.Fits n) {p : Pathway} {x y : Columns α}
    (hx : x.height = n.size p.source) (hy : y.height = n.size p.target) (hcount : x.count = y.count) :
    ∃ m', m.add? n p x y = .ok m' ∧ m'.Fits n := by
  obtain ⟨htarget, hsource⟩ := hm.getD p
  have hadd : ∃ m', m.add? n p x y = .ok m' := by
    unfold add? Pairs.add?
    rw [if_pos ⟨hx.trans hsource.symm, hy.trans htarget.symm, hcount⟩]
    exact ⟨_, rfl⟩
  obtain ⟨m', hm'⟩ := hadd
  exact ⟨m', hm', hm.add hm'⟩

/-- A pathway has associations once a batch was stored for it. -/
theorem isSome_of_add {m m' : PairMap α} {n : Network α} {p : Pathway} {x y : Columns α} (h : m.add? n p x y = .ok m')
    (q : Pathway) : m'[q]?.isSome = true ↔ q = p ∨ m[q]?.isSome = true := by
  obtain ⟨s, -, -, -, rfl⟩ := of_add h
  rw [Std.TreeMap.getElem?_insert]
  by_cases hq : p = q
  · subst hq
    rw [if_pos Std.ReflCmp.compare_self]
    exact iff_of_true rfl (.inl rfl)
  · rw [if_neg fun hc => hq (Std.LawfulEqCmp.eq_of_compare hc)]
    exact (or_iff_right fun h => hq h.symm).symm

/-- Storing a batch gives its keys their newest targets on its pathway. -/
theorem target?_add [SameLaws α] {m m' : PairMap α} {n : Network α} {p : Pathway} {x y : Columns α}
    (h : m.add? n p x y = .ok m') (q : Pathway) (k : Pattern α) :
    m'.target? q k =
      if q = p then (Pairs.targetIn (x.patterns.zip y.patterns).reverse k).or (m.target? p k) else m.target? q k := by
  obtain ⟨s, hs, -, -, rfl⟩ := of_add h
  unfold target?
  rw [Std.TreeMap.getElem?_insert]
  by_cases hq : q = p
  · subst hq
    rw [if_pos (Std.ReflCmp.compare_self), if_pos rfl, Option.bind_some, Pairs.target?, Pairs.targetIn_foldl_store, hs,
      Std.TreeMap.getD_eq_getD_getElem?]
    congr 1
    cases m[q]? <;> rfl
  · rw [if_neg (fun hc => hq (Std.LawfulEqCmp.eq_of_compare hc).symm), if_neg hq]

theorem Sized.add {m m' : PairMap α} {n : Network α} {p : Pathway} {x y : Columns α} (hm : m.Sized n)
    (hx : x.Sized) (hy : y.Sized) (h : m.add? n p x y = .ok m') : m'.Sized n := by
  obtain ⟨s, hs, hxs, hys, rfl⟩ := of_add h
  have hsized : s.Sized ∧ s.targetSize = n.size p.target ∧ s.sourceSize = n.size p.source := by
    rw [hs, Std.TreeMap.getD_eq_getD_getElem?]
    cases hget : m[p]? with
    | some t => exact hm p t hget
    | none =>
      refine ⟨?_, rfl, rfl⟩
      intro q hq
      cases hq
  intro q t ht
  rw [Std.TreeMap.getElem?_insert] at ht
  split at ht
  · next hc =>
    have hq : p = q := Std.LawfulEqCmp.eq_of_compare hc
    subst hq
    cases ht
    refine ⟨?_, hsized.2⟩
    apply Pairs.sized_foldl_store
    · intro r hr
      obtain ⟨h₁, h₂⟩ := List.of_mem_zip hr
      exact ⟨(hx _ h₁).trans hxs, (hy _ h₂).trans hys⟩
    · exact hsized.1
  · exact hm q t ht

omit [Scalar α] in
/-- Flashing pathways, each once: every one gets its connection, and the errors add up. -/
theorem foldl_flash {β : Type} (f : Pathway → β → Connection α × Nat) (l : List (Pathway × β)) (init : Weights α × Nat)
    (hl : l.Pairwise fun a b => ¬ compare a.1 b.1 = .eq) :
    let r := l.foldl (fun acc x => (acc.1.insert x.1 (f x.1 x.2).1, acc.2 + (f x.1 x.2).2)) init
    init.2 ≤ r.2 ∧ (∀ x ∈ l, r.1[x.1]? = some (f x.1 x.2).1 ∧ (f x.1 x.2).2 ≤ r.2) ∧
      ∀ p, (∀ x ∈ l, ¬ compare x.1 p = .eq) → r.1[p]? = init.1[p]? := by
  induction l generalizing init with
  | nil =>
    refine ⟨Nat.le_refl _, fun x hx => ?_, fun p _ => rfl⟩
    cases hx
  | cons x rest ih =>
    obtain ⟨hx, hrest⟩ := List.pairwise_cons.mp hl
    obtain ⟨h₁, h₂, h₃⟩ := ih (init.1.insert x.1 (f x.1 x.2).1, init.2 + (f x.1 x.2).2) hrest
    dsimp only at h₁
    refine ⟨by rw [List.foldl_cons]; omega, fun y hy => ?_, fun p hp => ?_⟩
    · rw [List.foldl_cons]
      rcases List.mem_cons.mp hy with rfl | hy
      · refine ⟨?_, by omega⟩
        rw [h₃ y.1 fun z hz hc => hx z hz (Std.OrientedCmp.eq_symm hc)]
        exact Std.TreeMap.getElem?_insert_self
      · exact h₂ y hy
    · rw [List.foldl_cons, h₃ p fun z hz => hp z (List.mem_cons_of_mem _ hz), Std.TreeMap.getElem?_insert,
        if_neg (hp x List.mem_cons_self)]

/-- What flashing a pathway with these associations gives. -/
def flashed (n : Network α) (p : Pathway) (s : Pairs α) : Flash α :=
  (s.flash n.rule (n.activator p.source) (n.activator p.target)).value

theorem value_flash (m : PairMap α) (n : Network α) (warning : Pathway → (errors count : Nat) → String) :
    (m.flash n warning).value = m.toList.foldl (fun acc x =>
      (acc.1.insert x.1 (flashed n x.1 x.2).connection, acc.2 + (flashed n x.1 x.2).errors)) (({} : Weights α), 0) := by
  rw [flash, Noted.value_foldlM]
  congr 1
  funext acc x
  simp only [Noted.value_bind]
  split <;> rfl

/-- Every pathway with associations gets the connection that realizes them. -/
theorem getElem?_flash (m : PairMap α) (n : Network α) (warning : Pathway → (errors count : Nat) → String) (p : Pathway) :
    (m.flash n warning).value.1[p]? = m[p]?.map fun s => (flashed n p s).connection := by
  obtain ⟨-, hall, hnone⟩ := foldl_flash (fun p s => ((flashed n p s).connection, (flashed n p s).errors)) m.toList
    (({} : Weights α), 0) Std.TreeMap.distinct_keys_toList
  rw [value_flash]
  cases hp : m[p]? with
  | some s => exact (hall (p, s) (Std.TreeMap.mem_toList_iff_getElem?_eq_some.mpr hp)).1
  | none =>
    rw [hnone p fun x hx heq => Pathway.not_mem_keys_toList hp
      (List.mem_map.mpr ⟨x, hx, Std.LawfulEqCmp.eq_of_compare heq⟩)]
    exact Std.TreeMap.getElem?_emptyc

/-- When nothing is missed in all, every pathway gets a connection that misses nothing. -/
theorem flash_spec (m : PairMap α) (n : Network α) (warning : Pathway → (errors count : Nat) → String)
    (h : (m.flash n warning).value.2 = 0) {p : Pathway} {s : Pairs α} (hp : m[p]? = some s) :
    (m.flash n warning).value.1[p]? =
        some (s.flash n.rule (n.activator p.source) (n.activator p.target)).value.connection ∧
      (s.flash n.rule (n.activator p.source) (n.activator p.target)).value.errors = 0 := by
  obtain ⟨-, hall, -⟩ := foldl_flash (fun p s => ((flashed n p s).connection, (flashed n p s).errors)) m.toList
    (({} : Weights α), 0) Std.TreeMap.distinct_keys_toList
  have hmem := Std.TreeMap.mem_toList_iff_getElem?_eq_some.mpr hp
  rw [value_flash] at h ⊢
  obtain ⟨h₁, h₂⟩ := hall (p, s) hmem
  refine ⟨h₁, ?_⟩
  rw [h] at h₂
  exact Nat.le_zero.mp h₂

/-- Pathways without associations get no connection. -/
theorem flash_of_getElem?_eq_none (m : PairMap α) (n : Network α) (warning : Pathway → (errors count : Nat) → String)
    {p : Pathway} (hp : m[p]? = none) : (m.flash n warning).value.1[p]? = none := by
  rw [getElem?_flash, hp]
  rfl

end PairMap

end Engram
