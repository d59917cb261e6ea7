/-
  Engram.Proofs.Data.Shifts — what the moves of the pointers are told.

  A move pairs the slots that have one to move to with that one: its k-th pair takes the slot i to
  the slot j exactly if k is the smaller of the two (`Shift.Takes`). The slots of a layer have
  different patterns and the moves different pathways, so each pathway is told the pairs of its
  move and nothing else (`getElem?_movePairs`). The errors of all pathways are counted together;
  there are none if no pathway has any (`PairMap.errors_flash_eq_zero_iff`).
-/

import Engram.Proofs.Data.Slots
import Mathlib.Data.List.Induction

namespace Engram

/-! ## The pairs of a move -/

namespace Pointer.Shift

variable {β γ : Type}

/-- The slots that a move takes to another one, in the order of its pairs. -/
def starts (s : Shift) (slots : List β) : List β :=
  match s with
  | .on => slots.dropLast
  | .back => slots.drop 1
  | .stay => slots

/-- The slots that they are taken to. -/
def goals (s : Shift) (slots : List β) : List β :=
  match s with
  | .on => slots.drop 1
  | .back => slots.dropLast
  | .stay => slots

/-- Whether a move takes one slot to the other, of so many. -/
def Takes (s : Shift) (slots i j : Nat) : Prop :=
  match s with
  | .on => j = i + 1 ∧ j < slots
  | .back => i = j + 1 ∧ i < slots
  | .stay => i = j ∧ i < slots

theorem starts_sublist (s : Shift) (slots : List β) : (s.starts slots).Sublist slots := by
  cases s with
  | on => exact List.dropLast_sublist _
  | back => exact List.drop_sublist _ _
  | stay => exact List.Sublist.refl _

theorem goals_sublist (s : Shift) (slots : List β) : (s.goals slots).Sublist slots := by
  cases s with
  | on => exact List.drop_sublist _ _
  | back => exact List.dropLast_sublist _
  | stay => exact List.Sublist.refl _

theorem length_starts (s : Shift) (slots : List β) (other : List γ) (h : slots.length = other.length) :
    (s.starts slots).length = (s.goals other).length := by
  cases s <;> simp [starts, goals, h]

theorem map_starts (s : Shift) (f : β → γ) (slots : List β) : (s.starts slots).map f = s.starts (slots.map f) := by
  cases s with
  | on => exact List.map_dropLast
  | back => exact List.map_drop
  | stay => rfl

theorem map_goals (s : Shift) (f : β → γ) (slots : List β) : (s.goals slots).map f = s.goals (slots.map f) := by
  cases s with
  | on => exact List.map_drop
  | back => exact List.map_dropLast
  | stay => rfl

theorem pairs_eq (s : Shift) {source : List β} {target : List γ} (h : source.length = target.length) :
    s.pairs source target = (s.starts source).zip (s.goals target) := by
  cases s with
  | on =>
    refine List.ext_getElem (by simp [pairs, starts, goals, h]) fun k h₁ h₂ => ?_
    simp [pairs, starts, goals]
  | back =>
    refine List.ext_getElem (by simp [pairs, starts, goals, h]) fun k h₁ h₂ => ?_
    simp [pairs, starts, goals]
  | stay => rfl

variable {s : Shift} {slots : List β} {i j : Nat}

theorem getElem?_starts (h : s.Takes slots.length i j) : (s.starts slots)[min i j]? = slots[i]? := by
  cases s with
  | on =>
    obtain ⟨rfl, hj⟩ := h
    rw [Nat.min_eq_left (Nat.le_succ i), starts, List.getElem?_dropLast, if_pos (by omega)]
  | back =>
    obtain ⟨rfl, hi⟩ := h
    rw [Nat.min_eq_right (Nat.le_succ j), starts, List.getElem?_drop, Nat.add_comm]
  | stay =>
    obtain ⟨rfl, hi⟩ := h
    rw [Nat.min_self, starts]

theorem getElem?_goals (h : s.Takes slots.length i j) : (s.goals slots)[min i j]? = slots[j]? := by
  cases s with
  | on =>
    obtain ⟨rfl, hj⟩ := h
    rw [Nat.min_eq_left (Nat.le_succ i), goals, List.getElem?_drop, Nat.add_comm]
  | back =>
    obtain ⟨rfl, hi⟩ := h
    rw [Nat.min_eq_right (Nat.le_succ j), goals, List.getElem?_dropLast, if_pos (by omega)]
  | stay =>
    obtain ⟨rfl, hi⟩ := h
    rw [Nat.min_self, goals]

theorem lt_of_takes {K : Nat} (h : s.Takes K i j) : i < K ∧ j < K := by
  cases s with
  | on =>
    obtain ⟨rfl, hj⟩ := h
    omega
  | back =>
    obtain ⟨rfl, hi⟩ := h
    omega
  | stay =>
    obtain ⟨rfl, hi⟩ := h
    omega

theorem min_lt_of_takes (h : s.Takes slots.length i j) : min i j < (s.goals slots).length := by
  have hget := getElem?_goals h
  rw [List.getElem?_eq_getElem (lt_of_takes h).2] at hget
  exact (List.getElem?_eq_some_iff.mp hget).1

/-- Every pair takes a slot to another one. -/
theorem exists_takes {k : Nat} (h : k < (s.goals slots).length) : ∃ i j, s.Takes slots.length i j ∧ min i j = k := by
  cases s with
  | on =>
    rw [goals, List.length_drop] at h
    exact ⟨k, k + 1, ⟨rfl, by omega⟩, Nat.min_eq_left (Nat.le_succ k)⟩
  | back =>
    rw [goals, List.length_dropLast] at h
    exact ⟨k + 1, k, ⟨rfl, by omega⟩, Nat.min_eq_right (Nat.le_succ k)⟩
  | stay => exact ⟨k, k, ⟨rfl, h⟩, Nat.min_self k⟩

end Pointer.Shift

variable {α : Type} [Scalar α]

/-! ## Storing different keys -/

namespace Pairs

/-- A batch of keys that are told apart is stored as it is. -/
theorem foldl_store_of_pairwise {batch : List (Pattern α × Pattern α)}
    (h : batch.Pairwise fun p q => samePattern p.1 q.1 = false) :
    batch.foldl (fun ps p => store p.1 p.2 ps) [] = batch := by
  induction batch using List.reverseRecOn with
  | nil => rfl
  | append_singleton batch p ih =>
    obtain ⟨hbatch, -, hlast⟩ := List.pairwise_append.mp h
    rw [List.foldl_append, ih hbatch]
    exact store_of_new fun q hq => hlast q hq p (List.mem_singleton_self p)

end Pairs

/-! ## What the pathways are told -/

namespace Pointer

/-- The pairs of a move, over the slot patterns of the layers. -/
def pairsOf (patterns : List (LayerId × Columns α)) (x : Pathway × Shift) : List (Pattern α × Pattern α) :=
  x.2.pairs ((patterns.lookup x.1.source).getD ⟨0, []⟩).patterns ((patterns.lookup x.1.target).getD ⟨0, []⟩).patterns

/-- Stores the pairs of a move. -/
def addMove? (n : Network α) (patterns : List (LayerId × Columns α)) (m : PairMap α) (x : Pathway × Shift) :
    Except Breach (PairMap α) :=
  let columns := x.2.columns ((patterns.lookup x.1.source).getD ⟨0, []⟩) ((patterns.lookup x.1.target).getD ⟨0, []⟩)
  m.add? n x.1 columns.1 columns.2

variable {n : Network α} {patterns : List (LayerId × Columns α)} {m later : PairMap α}

theorem getElem?_of_addMove {x : Pathway × Shift} (h : addMove? n patterns m x = .ok later) :
    (∀ p, p ≠ x.1 → later[p]? = m[p]?) ∧
      (m[x.1]? = none → (pairsOf patterns x).Pairwise (fun p q => Pairs.samePattern p.1 q.1 = false) →
        later[x.1]? = some ⟨n.size x.1.target, n.size x.1.source, pairsOf patterns x⟩) := by
  obtain ⟨s, hs, -, -, rfl⟩ := PairMap.of_add h
  refine ⟨fun p hp => ?_, fun hnone hpairs => ?_⟩
  · rw [Std.TreeMap.getElem?_insert, if_neg fun heq => hp (Std.LawfulEqCmp.eq_of_compare heq).symm]
  · have hempty : s = .empty (n.size x.1.target) (n.size x.1.source) := by
      rw [hs, Std.TreeMap.getD_eq_getD_getElem?, hnone]
      rfl
    have hzip : ((pairsOf patterns x).map (·.1)).zip ((pairsOf patterns x).map (·.2)) = pairsOf patterns x := by
      rw [List.zip_map', List.map_id']
    have hstored : (((pairsOf patterns x).map (·.1)).zip ((pairsOf patterns x).map (·.2))).foldl
        (fun ps p => Pairs.store p.1 p.2 ps) s.pairs = pairsOf patterns x := by
      rw [hzip, hempty]
      exact Pairs.foldl_store_of_pairwise hpairs
    rw [Std.TreeMap.getElem?_insert_self]
    refine congrArg some ?_
    simp only [Shift.columns]
    rw [← pairsOf, hstored, hempty]
    rfl

/-- Moves leave the pathways of other ones. -/
theorem getElem?_of_not_mem {l : List (Pathway × Shift)} (h : l.foldlM (addMove? n patterns) m = .ok later) {p : Pathway}
    (hp : p ∉ l.map (·.1)) : later[p]? = m[p]? := by
  induction l generalizing m with
  | nil =>
    cases h
    rfl
  | cons x rest ih =>
    rw [List.map_cons, List.mem_cons, not_or] at hp
    rw [List.foldlM_cons] at h
    cases hadd : addMove? n patterns m x with
    | error e =>
      rw [hadd] at h
      cases h
    | ok m' =>
      rw [hadd] at h
      rw [ih h hp.2, (getElem?_of_addMove hadd).1 p hp.1]

/-- The pathways of different moves are told the pairs of their moves. -/
theorem getElem?_of_mem {l : List (Pathway × Shift)} (hl : (l.map (·.1)).Nodup)
    (h : l.foldlM (addMove? n patterns) m = .ok later) (hm : ∀ x ∈ l, m[x.1]? = none) {x : Pathway × Shift} (hx : x ∈ l)
    (hpairs : (pairsOf patterns x).Pairwise fun p q => Pairs.samePattern p.1 q.1 = false) :
    later[x.1]? = some ⟨n.size x.1.target, n.size x.1.source, pairsOf patterns x⟩ := by
  induction l generalizing m with
  | nil => exact (List.not_mem_nil hx).elim
  | cons y rest ih =>
    obtain ⟨hy, hrest⟩ := List.nodup_cons.mp hl
    rw [List.foldlM_cons] at h
    cases hadd : addMove? n patterns m y with
    | error e =>
      rw [hadd] at h
      cases h
    | ok m' =>
      rw [hadd] at h
      obtain ⟨hothers, hself⟩ := getElem?_of_addMove hadd
      rcases List.mem_cons.mp hx with rfl | hx
      · rw [getElem?_of_not_mem h hy, hself (hm x List.mem_cons_self) hpairs]
      · refine ih hrest h (fun z hz => ?_) hx
        have hne : z.1 ≠ y.1 := fun heq => hy (List.mem_map.mpr ⟨z, hz, heq⟩)
        rw [hothers z.1 hne, hm z (List.mem_cons_of_mem _ hz)]

theorem getElem?_movePairs {pairs : PairMap α} (h : movePairs n patterns = .ok pairs) {x : Pathway × Shift} (hx : x ∈ moves)
    (hpairs : (pairsOf patterns x).Pairwise fun p q => Pairs.samePattern p.1 q.1 = false) :
    pairs[x.1]? = some ⟨n.size x.1.target, n.size x.1.source, pairsOf patterns x⟩ :=
  getElem?_of_mem (by decide) h (fun _ _ => Std.TreeMap.getElem?_emptyc) hx hpairs

end Pointer

/-! ## Counting errors -/

namespace PairMap

/-- There are no errors in all if no pathway has any. -/
theorem errors_flash_eq_zero_iff (m : PairMap α) (n : Network α) (warning : Pathway → (errors count : Nat) → String) :
    (m.flash n warning).value.2 = 0 ↔ ∀ (p : Pathway) (s : Pairs α), m[p]? = some s → (flashed n p s).errors = 0 := by
  have hfold : ∀ (l : List (Pathway × Pairs α)) (init : Weights α × Nat), (l.foldl (fun acc x =>
      (acc.1.insert x.1 (flashed n x.1 x.2).connection, acc.2 + (flashed n x.1 x.2).errors)) init).2 = 0 ↔
        init.2 = 0 ∧ ∀ x ∈ l, (flashed n x.1 x.2).errors = 0 := by
    intro l
    induction l with
    | nil => simp
    | cons x rest ih =>
      intro init
      rw [List.foldl_cons, ih, List.forall_mem_cons, Nat.add_eq_zero_iff, and_assoc]
  rw [value_flash, hfold]
  constructor
  · exact fun h p s hp => h.2 (p, s) (Std.TreeMap.mem_toList_iff_getElem?_eq_some.mpr hp)
  · exact fun h => ⟨rfl, fun x hx => h x.1 x.2 (Std.TreeMap.mem_toList_iff_getElem?_eq_some.mp hx)⟩

end PairMap

end Engram
