/-
  Engram.Proofs.Association.Targets — what a pathway is told to recall for a key.

  The associations of a pathway are looked up by the number in every unit of the key. Storing an
  association gives its key a new target and changes no other (`targetIn_store`), so after a batch
  a key has the newest target that the batch gives it, or else the one it had
  (`targetIn_foldl_store`). This needs no more of the numbers than that `same` is an equivalence,
  which holds for doubles as well.
-/

import Engram.Data.PairMap
import Engram.Proofs.Association.Shapes

namespace Engram

/-- Numbers that are told apart by an equivalence. -/
class SameLaws (α : Type) [Scalar α] : Prop where
  refl (a : α) : Scalar.same a a = true
  symm {a b : α} : Scalar.same a b = true → Scalar.same b a = true
  trans {a b c : α} : Scalar.same a b = true → Scalar.same b c = true → Scalar.same a c = true

instance : SameLaws Float where
  refl a := beq_self_eq_true a.toBits
  symm h := by
    have h := eq_of_beq h
    exact beq_iff_eq.mpr h.symm
  trans h h' := by
    have h := eq_of_beq h
    have h' := eq_of_beq h'
    exact beq_iff_eq.mpr (h.trans h')

namespace Pairs

variable {α : Type} [Scalar α]

theorem samePattern_iff {x y : Pattern α} :
    samePattern x y = true ↔
      x.size = y.size ∧ ∀ i (h : i < x.size) (h' : i < y.size), Scalar.same x[i] y[i] = true := by
  simp only [samePattern, Bool.and_eq_true, beq_iff_eq, Array.all_iff_forall, Array.size_zip, Array.getElem_zip]
  constructor
  · rintro ⟨hs, h⟩
    exact ⟨hs, fun i h₁ h₂ => h i (by omega) (by omega)⟩
  · rintro ⟨hs, h⟩
    exact ⟨hs, fun i hi _ => h i (by omega) (by omega)⟩

section

/-- Patterns of the same numbers are equal, where numbers that are told to be the same are. -/
theorem eq_of_samePattern (hexact : ∀ x y : α, Scalar.same x y = true → x = y) {x y : Pattern α}
    (h : samePattern x y = true) : x = y := by
  obtain ⟨hsize, hall⟩ := samePattern_iff.mp h
  exact Array.ext hsize fun i h₁ h₂ => hexact _ _ (hall i h₁ h₂)

variable [SameLaws α]

@[simp] theorem samePattern_refl (x : Pattern α) : samePattern x x = true := by
  rw [samePattern_iff]
  exact ⟨rfl, fun _ _ _ => SameLaws.refl _⟩

theorem samePattern_symm {x y : Pattern α} (h : samePattern x y = true) : samePattern y x = true := by
  rw [samePattern_iff] at h ⊢
  exact ⟨h.1.symm, fun i h₁ h₂ => SameLaws.symm (h.2 i h₂ h₁)⟩

theorem samePattern_trans {x y z : Pattern α} (h : samePattern x y = true) (h' : samePattern y z = true) :
    samePattern x z = true := by
  rw [samePattern_iff] at h h' ⊢
  refine ⟨h.1.trans h'.1, fun i h₁ h₂ => ?_⟩
  have hy : i < y.size := by rw [← h.1]; exact h₁
  exact SameLaws.trans (h.2 i h₁ hy) (h'.2 i hy h₂)

/-- Patterns that are the same are the same as the same ones. -/
theorem samePattern_left {x y : Pattern α} (h : samePattern x y = true) (z : Pattern α) :
    samePattern x z = samePattern y z := by
  rw [Bool.eq_iff_iff]
  exact ⟨samePattern_trans (samePattern_symm h), samePattern_trans h⟩

end

/-! ## Looking up -/

/-- The target that a list of associations gives a key: that of the first one with the key. -/
def targetIn (ps : List (Pattern α × Pattern α)) (k : Pattern α) : Option (Pattern α) :=
  (ps.find? fun p => samePattern p.1 k).map (·.2)

/-- The target of a key. -/
def target? (s : Pairs α) (k : Pattern α) : Option (Pattern α) := targetIn s.pairs k

@[simp] theorem targetIn_nil (k : Pattern α) : targetIn [] k = none := rfl

theorem targetIn_cons (p : Pattern α × Pattern α) (ps : List (Pattern α × Pattern α)) (k : Pattern α) :
    targetIn (p :: ps) k = if samePattern p.1 k then some p.2 else targetIn ps k := by
  unfold targetIn
  rw [List.find?_cons]
  by_cases h : samePattern p.1 k = true
  · rw [if_pos h]; simp [h]
  · rw [if_neg h]; simp [h]

theorem targetIn_append (ps qs : List (Pattern α × Pattern α)) (k : Pattern α) :
    targetIn (ps ++ qs) k = (targetIn ps k).or (targetIn qs k) := by
  unfold targetIn
  rw [List.find?_append]
  cases ps.find? fun p => samePattern p.1 k <;> rfl

/-- A target is that of some association with the key. -/
theorem exists_mem_of_targetIn {ps : List (Pattern α × Pattern α)} {k y : Pattern α} (h : targetIn ps k = some y) :
    ∃ x, (x, y) ∈ ps ∧ samePattern x k = true := by
  obtain ⟨p, hp, rfl⟩ := Option.map_eq_some_iff.mp h
  have hk := List.find?_some hp
  exact ⟨p.1, List.mem_of_find?_eq_some hp, hk⟩

theorem targetIn_eq_none {ps : List (Pattern α × Pattern α)} {k : Pattern α}
    (h : ∀ p ∈ ps, samePattern p.1 k = false) : targetIn ps k = none := by
  unfold targetIn
  rw [List.find?_eq_none.mpr fun p hp => by simp [h p hp]]
  rfl

/-- A key that is in the list, and always with the same target, has that target. -/
theorem targetIn_of_forall {ps : List (Pattern α × Pattern α)} {k y : Pattern α}
    (hex : ∃ p ∈ ps, samePattern p.1 k = true) (hall : ∀ p ∈ ps, samePattern p.1 k = true → p.2 = y) :
    targetIn ps k = some y := by
  obtain ⟨p, hp, hk⟩ := hex
  cases h : targetIn ps k with
  | none =>
    unfold targetIn at h
    rw [Option.map_eq_none_iff, List.find?_eq_none] at h
    exact absurd hk (h p hp)
  | some z =>
    obtain ⟨x, hx, hxk⟩ := exists_mem_of_targetIn h
    exact congrArg some (hall (x, z) hx hxk)

theorem store_of_new {x y : Pattern α} {ps : List (Pattern α × Pattern α)} (h : ∀ p ∈ ps, samePattern p.1 x = false) :
    store x y ps = ps ++ [(x, y)] := by
  induction ps with
  | nil => rfl
  | cons p rest ih =>
    rw [store, h p List.mem_cons_self, if_neg Bool.false_ne_true, ih fun q hq => h q (List.mem_cons_of_mem _ hq)]
    rfl

theorem targetIn_store [SameLaws α] (x y k : Pattern α) (ps : List (Pattern α × Pattern α)) :
    targetIn (store x y ps) k = if samePattern x k then some y else targetIn ps k := by
  induction ps with
  | nil => rw [store, targetIn_cons, targetIn_nil]
  | cons p rest ih =>
    rw [store]
    by_cases hp : samePattern p.1 x = true
    · rw [if_pos hp, targetIn_cons, targetIn_cons, samePattern_left hp]
      by_cases hk : samePattern x k = true
      · rw [if_pos hk, if_pos hk]
      · rw [if_neg hk, if_neg hk, if_neg hk]
    · rw [if_neg hp, targetIn_cons, targetIn_cons, ih]
      by_cases hk : samePattern p.1 k = true
      · rw [if_pos hk, if_pos hk, if_neg]
        intro hx
        exact hp (samePattern_trans hk (samePattern_symm hx))
      · rw [if_neg hk, if_neg hk]

theorem targetIn_foldl_store [SameLaws α] (k : Pattern α) (batch ps : List (Pattern α × Pattern α)) :
    targetIn (batch.foldl (fun ps p => store p.1 p.2 ps) ps) k = (targetIn batch.reverse k).or (targetIn ps k) := by
  induction batch generalizing ps with
  | nil => simp
  | cons p rest ih =>
    rw [List.foldl_cons, ih, targetIn_store, List.reverse_cons, targetIn_append, targetIn_cons, targetIn_nil,
      Option.or_assoc]
    congr 1
    by_cases h : samePattern p.1 k = true
    · rw [if_pos h, if_pos h]; rfl
    · rw [if_neg h, if_neg h]; rfl

/-- In a batch whose keys are told apart, each key has the target beside it. -/
theorem targetIn_zip_self [SameLaws α] {xs ys : List (Pattern α)} {l : Nat} (hl : l < xs.length) (hl' : l < ys.length)
    (hdistinct : ∀ i (hi : i < xs.length), samePattern xs[i] xs[l] = true → i = l) :
    targetIn (xs.zip ys).reverse xs[l] = some ys[l] := by
  apply targetIn_of_forall
  · refine ⟨(xs[l], ys[l]), List.mem_reverse.mpr (List.mem_iff_getElem.mpr ⟨l, ?_, List.getElem_zip⟩), samePattern_refl _⟩
    rw [List.length_zip]
    omega
  · intro p hp hsame
    obtain ⟨i, hi, rfl⟩ := List.getElem_of_mem (List.mem_reverse.mp hp)
    rw [List.length_zip] at hi
    rw [List.getElem_zip] at hsame ⊢
    have heq := hdistinct i (by omega) hsame
    subst heq
    rfl

/-- A batch gives no target to a key that is none of its own. -/
theorem targetIn_zip_none {xs ys : List (Pattern α)} {k : Pattern α} (h : ∀ x ∈ xs, samePattern x k = false) :
    targetIn (xs.zip ys).reverse k = none :=
  targetIn_eq_none fun p hp => h p.1 (List.of_mem_zip (List.mem_reverse.mp hp)).1

/-! ## Sizes -/

/-- Keys and targets have the sizes of the layers. -/
def Sized (s : Pairs α) : Prop := ∀ p ∈ s.pairs, p.1.size = s.sourceSize ∧ p.2.size = s.targetSize

theorem mem_store {x y : Pattern α} {ps : List (Pattern α × Pattern α)} {q : Pattern α × Pattern α}
    (h : q ∈ store x y ps) : q = (x, y) ∨ q ∈ ps ∨ ∃ p ∈ ps, q = (p.1, y) := by
  induction ps with
  | nil => exact .inl (List.mem_singleton.mp h)
  | cons p rest ih =>
    rw [store] at h
    split at h
    · rcases List.mem_cons.mp h with rfl | h
      · exact .inr (.inr ⟨p, List.mem_cons_self, rfl⟩)
      · exact .inr (.inl (List.mem_cons_of_mem _ h))
    · rcases List.mem_cons.mp h with rfl | h
      · exact .inr (.inl List.mem_cons_self)
      · rcases ih h with h | h | ⟨r, hr, h⟩
        · exact .inl h
        · exact .inr (.inl (List.mem_cons_of_mem _ h))
        · exact .inr (.inr ⟨r, List.mem_cons_of_mem _ hr, h⟩)

theorem sized_foldl_store {m n : Nat} (batch : List (Pattern α × Pattern α)) :
    ∀ ps : List (Pattern α × Pattern α), (∀ p ∈ batch, p.1.size = m ∧ p.2.size = n) →
      (∀ p ∈ ps, p.1.size = m ∧ p.2.size = n) →
      ∀ p ∈ batch.foldl (fun ps p => store p.1 p.2 ps) ps, p.1.size = m ∧ p.2.size = n := by
  induction batch with
  | nil => intro ps _ h; exact h
  | cons b rest ih =>
    intro ps hb hps
    have hb' := hb b List.mem_cons_self
    refine ih _ (fun p hp => hb p (List.mem_cons_of_mem _ hp)) fun q hq => ?_
    rcases mem_store hq with rfl | hq | ⟨p, hp, rfl⟩
    · exact hb'
    · exact hps q hq
    · exact ⟨(hps p hp).1, hb'.2⟩

/-! ## What is not missed -/

/-- A key that is not missed is recalled with the bits of its target. -/
theorem bits_recalled_of_not_misses {c : Connection α} (hc : c.Fits) {a : Activator α} {x y : Pattern α}
    (hy : y.size = c.weights.height) (h : c.misses a x y = false) : a.bits (c.recalled a x) = a.bits y := by
  have hsize := Connection.size_recalled hc a x
  apply List.ext_getElem
  · simp [Activator.bits, hsize, hy]
  · intro i h₁ h₂
    have hi : i < (c.recalled a x).size := by simpa [Activator.bits] using h₁
    have hi' : i < y.size := by simpa [Activator.bits] using h₂
    rw [Connection.misses, Bool.eq_false_iff, ne_eq, Array.any_iff_exists, not_exists] at h
    have := h i
    simp only [Array.size_zip, Array.getElem_zip] at this
    have hbit : a.isOn (c.recalled a x)[i] = a.isOn y[i] := by
      by_cases hne : a.isOn (c.recalled a x)[i] = a.isOn y[i]
      · exact hne
      · exact absurd ⟨by omega, by omega, by omega, by simpa using hne⟩ this
    simpa [Activator.bits] using hbit

/-- When writing all associations misses none, every key is recalled with the bits of its target. -/
theorem bits_recalled_flash {s : Pairs α} (hs : s.Sized) {rule : Rule} {source target : Activator α}
    (h : (s.flash rule source target).value.errors = 0) {p : Pattern α × Pattern α} (hp : p ∈ s.pairs) :
    target.bits ((s.flash rule source target).value.connection.recalled target p.1) = target.bits p.2 := by
  have hvalue : (s.flash rule source target).value =
      Association.flash rule (.zero s.targetSize s.sourceSize) s.inputs s.targets source target := rfl
  have hne : s.inputs.patterns ≠ [] := by
    intro hnil
    rw [inputs, List.map_eq_nil_iff] at hnil
    rw [hnil] at hp
    cases hp
  rw [hvalue] at h ⊢
  rw [Association.errors_flash _ _ _ _ _ _ hne, Connection.errors, List.countP_eq_zero] at h
  have hmem : p ∈ s.inputs.patterns.zip s.targets.patterns := by
    have hzip : s.inputs.patterns.zip s.targets.patterns = s.pairs := by
      simp only [inputs, targets]
      rw [List.zip_map', List.map_id']
    rw [hzip]
    exact hp
  refine bits_recalled_of_not_misses (Association.fits_flash (Connection.fits_zero s.targetSize s.sourceSize) rfl) ?_ ?_
  · rw [Association.height_flash]
    exact (hs p hp).2
  · simpa using h p hmem

end Pairs

end Engram
