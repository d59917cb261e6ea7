/-
  Engram.Proofs.Association.Overwriting — storing a batch again.

  Storing an association under an input that is there already puts the new target in the place of the
  old one. So what was stored under an input before counts no more once it is stored again
  (`store_store`), and storing under different inputs commutes (`store_comm`), as long as it adds no
  input. After a batch all its inputs are there, and storing it again changes nothing, although the
  batch may give one input several targets (`foldl_store_again`).
-/

import Engram.Proofs.Association.Targets
import Mathlib.Data.List.Induction

namespace Engram.Pairs

variable {α : Type} [Scalar α] {x x' y y' z : Pattern α} {ps qs batch : List (Pattern α × Pattern α)}

/-- There is an association of the input. -/
def Stores (ps : List (Pattern α × Pattern α)) (x : Pattern α) : Prop := ∃ p ∈ ps, samePattern p.1 x = true

theorem stores_cons {p : Pattern α × Pattern α} : Stores (p :: ps) x ↔ samePattern p.1 x = true ∨ Stores ps x := by
  simp [Stores]

/-- Storing an association takes no input away. -/
theorem Stores.store (h : Stores ps z) (x y : Pattern α) : Stores (store x y ps) z := by
  induction ps with
  | nil => simp [Stores] at h
  | cons p rest ih =>
    rw [stores_cons] at h
    rw [Pairs.store]
    split
    · exact stores_cons.mpr h
    · exact stores_cons.mpr (h.imp_right ih)

theorem Stores.foldl_store (h : Stores ps z) (batch : List (Pattern α × Pattern α)) :
    Stores (batch.foldl (fun ps p => Pairs.store p.1 p.2 ps) ps) z := by
  induction batch generalizing ps with
  | nil => exact h
  | cons p rest ih => exact ih (h.store p.1 p.2)

/-- Associations that stand behind one of the input are not looked at. -/
theorem store_append (h : Stores ps x) (y : Pattern α) : store x y (ps ++ qs) = store x y ps ++ qs := by
  induction ps with
  | nil => simp [Stores] at h
  | cons p rest ih =>
    rw [stores_cons] at h
    by_cases hp : samePattern p.1 x = true
    · simp [store, hp]
    · simp [store, hp, ih (h.resolve_left hp)]

theorem foldl_store_append (h : ∀ p ∈ batch, Stores ps p.1) :
    batch.foldl (fun ps p => store p.1 p.2 ps) (ps ++ qs) = batch.foldl (fun ps p => store p.1 p.2 ps) ps ++ qs := by
  induction batch generalizing ps with
  | nil => rfl
  | cons p rest ih =>
    rw [List.foldl_cons, List.foldl_cons, store_append (h p List.mem_cons_self)]
    exact ih fun q hq => (h q (List.mem_cons_of_mem _ hq)).store p.1 p.2

variable [SameLaws α]

theorem stores_store (x y : Pattern α) (ps : List (Pattern α × Pattern α)) : Stores (store x y ps) x := by
  induction ps with
  | nil => simp [store, Stores]
  | cons p rest ih =>
    rw [store]
    split
    · next hp => exact stores_cons.mpr (.inl hp)
    · exact stores_cons.mpr (.inr ih)

theorem stores_foldl_store {p : Pattern α × Pattern α} (h : p ∈ batch) :
    Stores (batch.foldl (fun ps p => store p.1 p.2 ps) ps) p.1 := by
  induction batch generalizing ps with
  | nil => exact (List.not_mem_nil h).elim
  | cons q rest ih =>
    rcases List.mem_cons.mp h with rfl | h
    · exact (stores_store p.1 p.2 ps).foldl_store rest
    · exact ih h

theorem store_again (x y : Pattern α) (ps : List (Pattern α × Pattern α)) : store x y (store x y ps) = store x y ps := by
  induction ps with
  | nil => simp [store]
  | cons p rest ih =>
    by_cases hp : samePattern p.1 x = true
    · simp [store, hp]
    · simp [store, hp, ih]

/-- Of two targets that are stored under one input, the second counts. -/
theorem store_store (hsame : samePattern x' x = true) (h : Stores ps x) :
    store x y (store x' y' ps) = store x y ps := by
  induction ps with
  | nil => simp [Stores] at h
  | cons p rest ih =>
    rw [stores_cons] at h
    have hiff : samePattern p.1 x' = samePattern p.1 x := by
      rw [Bool.eq_iff_iff]
      exact ⟨fun hp => samePattern_trans hp hsame, fun hp => samePattern_trans hp (samePattern_symm hsame)⟩
    by_cases hp : samePattern p.1 x = true
    · simp [store, hiff, hp]
    · simp [store, hiff, hp, ih (h.resolve_left hp)]

/-- Under different inputs the order does not matter, if one of them is there already. -/
theorem store_comm (hne : samePattern x' x = false) (h : Stores ps x) :
    store x y (store x' y' ps) = store x' y' (store x y ps) := by
  induction ps with
  | nil => simp [Stores] at h
  | cons p rest ih =>
    rw [stores_cons] at h
    by_cases hp : samePattern p.1 x = true
    · have hp' : samePattern p.1 x' = false := by
        rw [Bool.eq_false_iff]
        intro hp'
        rw [samePattern_trans (samePattern_symm hp') hp] at hne
        cases hne
      simp [store, hp, hp']
    · by_cases hp' : samePattern p.1 x' = true
      · simp [store, hp, hp']
      · simp [store, hp, hp', ih (h.resolve_left hp)]

/-- What was stored under an input does not matter if it is stored again after the batch. -/
theorem store_foldl_store (h : Stores ps x) (batch : List (Pattern α × Pattern α)) :
    store x y (batch.foldl (fun ps p => store p.1 p.2 ps) (store x y' ps)) =
      store x y (batch.foldl (fun ps p => store p.1 p.2 ps) ps) := by
  induction batch generalizing ps with
  | nil => exact store_store (samePattern_refl x) h
  | cons p rest ih =>
    rw [List.foldl_cons, List.foldl_cons]
    by_cases hp : samePattern p.1 x = true
    · obtain ⟨q, hq, hsame⟩ := h
      rw [store_store (samePattern_symm hp) ⟨q, hq, samePattern_trans hsame (samePattern_symm hp)⟩]
    · rw [← store_comm (Bool.eq_false_iff.mpr hp) h]
      exact ih (h.store p.1 p.2)

/-- Storing a batch a second time changes nothing. -/
theorem foldl_store_again (batch ps : List (Pattern α × Pattern α)) :
    batch.foldl (fun ps p => store p.1 p.2 ps) (batch.foldl (fun ps p => store p.1 p.2 ps) ps) =
      batch.foldl (fun ps p => store p.1 p.2 ps) ps := by
  induction batch using List.reverseRecOn with
  | nil => rfl
  | append_singleton batch p ih =>
    simp only [List.foldl_append, List.foldl_cons, List.foldl_nil]
    generalize hbefore : batch.foldl (fun ps p => store p.1 p.2 ps) ps = before at ih ⊢
    by_cases h : Stores before p.1
    · rw [store_foldl_store h, ih]
    · -- the input was new, and stands behind all others
      have hnew : store p.1 p.2 before = before ++ [p] :=
        store_of_new fun q hq => Bool.eq_false_iff.mpr fun hsame => h ⟨q, hq, hsame⟩
      rw [hnew, foldl_store_append fun q hq => hbefore ▸ stores_foldl_store hq, ih, ← hnew]
      exact store_again p.1 p.2 before

end Engram.Pairs
