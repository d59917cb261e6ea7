/-
  Engram.Proofs.Data.Slots — the slots of the pointers.

  Giving patterns to slots adds tokens to code books and changes no pattern, also when there are
  not slots enough on some layer (`grows_encodeSlots`), and there are slots enough as long as the layers
  have orthogonal patterns left (`exists_encodeSlots`). That is all that can go wrong: the moves are
  between layers that hold the slots, so once these have patterns the pointers are flashed
  (`exists_flash`).
-/

import Engram.Data.Pointer
import Engram.Proofs.Data.Pathways
import Engram.Proofs.Layer.Exhausting
import Engram.Proofs.Network.Books
import Mathlib.Data.List.Nodup

namespace Engram

open LayerId

variable {α : Type} [Scalar α]

namespace Pointer

variable {n later : Network α}

theorem slotToken_injective : Function.Injective slotToken := by
  intro a b h
  have hvalue : ∀ k, Nat.ofDigitChars 10 (slotToken k).toList 0 = k := by
    intro k
    have hdigits : (slotToken k).toList = Nat.toDigits 10 k := Nat.toList_repr
    rw [hdigits, Nat.ofDigitChars_ten_toDigits]
  rw [← hvalue a, h, hvalue]

theorem nodup_slotTokens (slots : Nat) : ((List.range slots).map slotToken).Nodup :=
  List.nodup_range.map slotToken_injective

/-- Giving patterns to slots changes no pattern. -/
theorem grows_encodeSlots (tokens : List String) (n : Network α) (layers : List LayerId) :
    n.Grows (encodeSlots tokens n layers).2 := by
  induction layers generalizing n with
  | nil => exact .refl n
  | cons l rest ih =>
    have hgrows := n.grows_encodeAll l true tokens
    unfold encodeSlots
    rcases hall : n.encodeAll l true tokens with ⟨e | columns, n₁⟩
    · rw [hall] at hgrows
      exact hgrows
    · rw [hall] at hgrows
      have hrest := hgrows.trans (ih n₁)
      dsimp only
      rcases hslots : encodeSlots tokens n₁ rest with ⟨e | more, n₂⟩
      · rw [hslots] at hrest
        exact hrest
      · rw [hslots] at hrest
        exact hrest

/-- Layers that hold no slots are as they were. -/
theorem layer_encodeSlots_of_not_mem (tokens : List String) (n : Network α) {layers : List LayerId} {l : LayerId}
    (hl : l ∉ layers) : (encodeSlots tokens n layers).2.layer l = n.layer l := by
  induction layers generalizing n with
  | nil => rfl
  | cons other rest ih =>
    rw [List.mem_cons, not_or] at hl
    have hfirst := n.layer_encodeAll_of_ne hl.1 true tokens
    unfold encodeSlots
    rcases hall : n.encodeAll other true tokens with ⟨e | columns, n₁⟩
    · rw [hall] at hfirst
      exact hfirst
    · rw [hall] at hfirst
      have hrest := (ih n₁ hl.2).trans hfirst
      dsimp only
      rcases hslots : encodeSlots tokens n₁ rest with ⟨e | more, n₂⟩
      · rw [hslots] at hrest
        exact hrest
      · rw [hslots] at hrest
        exact hrest

theorem sound_encodeSlots (tokens : List String) {n : Network α} (hn : n.Sound) (layers : List LayerId) :
    (encodeSlots tokens n layers).2.Sound := by
  induction layers generalizing n with
  | nil => exact hn
  | cons l rest ih =>
    have hsound := hn.encodeAll l true tokens
    unfold encodeSlots
    rcases hall : n.encodeAll l true tokens with ⟨e | columns, n₁⟩
    · rw [hall] at hsound
      exact hsound
    · rw [hall] at hsound
      have hrest := ih hsound
      dsimp only
      rcases hslots : encodeSlots tokens n₁ rest with ⟨e | more, n₂⟩
      · rw [hslots] at hrest
        exact hrest
      · rw [hslots] at hrest
        exact hrest

/-- The patterns of the slots, for each layer as many units as it has. -/
theorem lookup_encodeSlots {tokens : List String} {n later : Network α} {layers : List LayerId}
    {patterns : List (LayerId × Columns α)} (h : encodeSlots tokens n layers = (.ok patterns, later)) :
    ∀ l ∈ layers, ∃ columns, patterns.lookup l = some columns ∧ columns.height = later.size l := by
  induction layers generalizing n patterns with
  | nil => exact fun l hl => (List.not_mem_nil hl).elim
  | cons layer rest ih =>
    unfold encodeSlots at h
    rcases hall : n.encodeAll layer true tokens with ⟨e | columns, n₁⟩
    · rw [hall] at h
      cases h
    rw [hall] at h
    dsimp only at h
    rcases hslots : encodeSlots tokens n₁ rest with ⟨e | more, n₂⟩
    · rw [hslots] at h
      cases h
    rw [hslots] at h
    cases h
    have hheight : columns.height = later.size layer := by
      have hgrows := n.grows_encodeAll layer true tokens
      have hrest := grows_encodeSlots tokens n₁ rest
      rw [hall] at hgrows
      rw [hslots] at hrest
      rw [Network.height_encodeAll hall, hrest.size, hgrows.size]
    intro l hl
    rw [List.lookup_cons]
    by_cases heq : l = layer
    · subst heq
      rw [beq_self_eq_true]
      exact ⟨columns, rfl, hheight⟩
    · rw [beq_false_of_ne heq]
      exact ih hslots l ((List.mem_cons.mp hl).resolve_left heq)

/-- The layers know the slots that were given patterns. -/
theorem knows_encodeSlots {tokens : List String} {n later : Network α} (hn : n.Sound) {layers : List LayerId}
    (hlayers : ∀ l ∈ layers, l.position < n.layers.size) {patterns : List (LayerId × Columns α)}
    (h : encodeSlots tokens n layers = (.ok patterns, later)) :
    ∀ l ∈ layers, ∀ t ∈ tokens, (later.layer l).knows t = true := by
  induction layers generalizing n patterns with
  | nil => exact fun l hl => (List.not_mem_nil hl).elim
  | cons layer rest ih =>
    unfold encodeSlots at h
    rcases hall : n.encodeAll layer true tokens with ⟨e | columns, n₁⟩
    · rw [hall] at h
      cases h
    rw [hall] at h
    dsimp only at h
    have hencoded := Network.encodeAll_spec hn (hlayers layer List.mem_cons_self) true tokens hall
    have hgrows := grows_encodeSlots tokens n₁ rest
    rcases hslots : encodeSlots tokens n₁ rest with ⟨e | more, n₂⟩
    · rw [hslots] at h
      cases h
    rw [hslots] at h hgrows
    cases h
    intro l hl t ht
    rcases List.mem_cons.mp hl with rfl | hl
    · exact hgrows.knows trivial ((hencoded.knows _ _).mpr (.inr ⟨rfl, ht⟩))
    · refine ih hencoded.sound (fun l hl => ?_) hslots l hl t ht
      rw [hencoded.grows.count]
      exact hlayers l (List.mem_cons_of_mem _ hl)

/-- The slots get their patterns if every layer has enough of them left. -/
theorem exists_encodeSlots {tokens : List String} {n : Network α} (hn : n.Sound) {layers : List LayerId}
    (hlayers : layers.Nodup) (hleft : ∀ l ∈ layers, Sylvester.isPowerOfTwo (n.size l) = true ∧
      tokens.length ≤ (n.layer l).book.left) :
    ∃ patterns later, encodeSlots tokens n layers = (.ok patterns, later) := by
  induction layers generalizing n with
  | nil => exact ⟨[], n, rfl⟩
  | cons l rest ih =>
    rw [List.nodup_cons] at hlayers
    obtain ⟨hsize, hcount⟩ := hleft l List.mem_cons_self
    obtain ⟨ps, book, hbook⟩ := CodeBook.exists_encodeAll (hn l) hsize hcount (n.layer l).name
    rcases hall : n.encodeAll l true tokens with ⟨r, n₁⟩
    obtain ⟨columns, rfl⟩ : ∃ columns, r = .ok columns := by
      have hfst : (n.encodeAll l true tokens).1 = r := congrArg Prod.fst hall
      unfold Network.encodeAll Layer.encodeAll at hfst
      rw [hbook] at hfst
      exact ⟨_, hfst.symm⟩
    have hrest : ∀ l' ∈ rest, Sylvester.isPowerOfTwo (n₁.size l') = true ∧ tokens.length ≤ (n₁.layer l').book.left := by
      intro l' hl'
      have hne : l' ≠ l := fun heq => hlayers.1 (heq ▸ hl')
      have hlayer : n₁.layer l' = n.layer l' := (congrArg (·.2.layer l') hall).symm.trans (n.layer_encodeAll_of_ne hne true tokens)
      unfold Network.size
      rw [hlayer]
      exact hleft l' (List.mem_cons_of_mem _ hl')
    have hsound : n₁.Sound := by
      have h := hn.encodeAll l true tokens
      rw [hall] at h
      exact h
    obtain ⟨patterns, later, hslots⟩ := ih hsound hlayers.2 hrest
    exact ⟨_, _, by simp only [encodeSlots, hall, hslots]; exact rfl⟩

/-- Moves are between layers of the pointers. -/
theorem ends_of_moves : ∀ x ∈ moves, x.1.source ∈ layers ∧ x.1.target ∈ layers := by decide

/-- The moves fit the layers that they connect. -/
theorem exists_movePairs {n : Network α} {patterns : List (LayerId × Columns α)}
    (h : ∀ l ∈ layers, ∃ columns, patterns.lookup l = some columns ∧ columns.height = n.size l) :
    ∃ pairs, movePairs n patterns = .ok pairs := by
  have hheight : ∀ l ∈ layers, ((patterns.lookup l).getD ⟨0, []⟩).height = n.size l := by
    intro l hl
    obtain ⟨columns, hlookup, hcolumns⟩ := h l hl
    rw [hlookup]
    exact hcolumns
  have hlayers := ends_of_moves
  unfold movePairs
  generalize moves = l at hlayers
  have hempty : ({} : PairMap α).Fits n := PairMap.fits_empty n
  generalize ({} : PairMap α) = m at hempty
  induction l generalizing m with
  | nil => exact ⟨m, rfl⟩
  | cons x rest ih =>
    obtain ⟨hsource, htarget⟩ := hlayers x List.mem_cons_self
    obtain ⟨m', hadd, hm'⟩ := PairMap.exists_add hempty (hheight _ hsource) (hheight _ htarget) (p := x.1)
      (x := (x.2.columns ((patterns.lookup x.1.source).getD ⟨0, []⟩) ((patterns.lookup x.1.target).getD ⟨0, []⟩)).1)
      (y := (x.2.columns ((patterns.lookup x.1.source).getD ⟨0, []⟩) ((patterns.lookup x.1.target).getD ⟨0, []⟩)).2)
      (by simp [Shift.columns, Columns.count])
    obtain ⟨pairs, hpairs⟩ := ih (fun y hy => hlayers y (List.mem_cons_of_mem _ hy)) m' hm'
    refine ⟨pairs, ?_⟩
    rw [List.foldlM_cons]
    dsimp only
    rw [hadd]
    exact hpairs

/-- What the moves store fits their layers, and is stored for their pathways. -/
theorem of_movePairs {n : Network α} {patterns : List (LayerId × Columns α)} {pairs : PairMap α}
    (h : movePairs n patterns = .ok pairs) : pairs.Fits n ∧ ∀ p, pairs[p]?.isSome = true ↔ p ∈ moves.map (·.1) := by
  suffices hmoves : pairs.Fits n ∧
      ∀ p, pairs[p]?.isSome = true ↔ p ∈ moves.map (·.1) ∨ ({} : PairMap α)[p]?.isSome = true by
    refine ⟨hmoves.1, fun p => (hmoves.2 p).trans (or_iff_left ?_)⟩
    rw [Std.TreeMap.getElem?_emptyc]
    exact Bool.false_ne_true
  unfold movePairs at h
  generalize moves = l at h ⊢
  have hfits : ({} : PairMap α).Fits n := PairMap.fits_empty n
  generalize ({} : PairMap α) = m at h hfits ⊢
  induction l generalizing m with
  | nil =>
    cases h
    exact ⟨hfits, fun p => (or_iff_right List.not_mem_nil).symm⟩
  | cons x rest ih =>
    rw [List.foldlM_cons] at h
    dsimp only at h
    rcases hadd : m.add? n x.1 (x.2.columns ((patterns.lookup x.1.source).getD ⟨0, []⟩) ((patterns.lookup x.1.target).getD ⟨0, []⟩)).1
      (x.2.columns ((patterns.lookup x.1.source).getD ⟨0, []⟩) ((patterns.lookup x.1.target).getD ⟨0, []⟩)).2 with e | m'
    · rw [hadd] at h
      cases h
    · rw [hadd] at h
      obtain ⟨hpairs, hkeys⟩ := ih m' h (hfits.add hadd)
      refine ⟨hpairs, fun p => ?_⟩
      rw [hkeys p, PairMap.isSome_of_add hadd, List.map_cons, List.mem_cons, or_left_comm, or_assoc]

/-- The pointers are flashed when there are slots enough. -/
theorem exists_flash {n later : Network α} {slots : Nat} {patterns : List (LayerId × Columns α)}
    (h : encodeSlots ((List.range slots).map slotToken) n layers = (.ok patterns, later)) :
    ∃ weights errors, (flash n slots).value = (.ok (weights, errors), later) := by
  obtain ⟨pairs, hpairs⟩ := exists_movePairs (lookup_encodeSlots h)
  unfold flash
  rw [h]
  dsimp only
  rw [hpairs]
  exact ⟨_, _, rfl⟩

/-- What flashing the pointers writes: the pathways of the moves, over associations that fit. -/
theorem of_flash {n later : Network α} {slots : Nat} {weights : Weights α} {errors : Nat}
    (h : (flash n slots).value = (.ok (weights, errors), later)) : ∃ pairs : PairMap α, pairs.Fits later ∧
      (∀ p, pairs[p]?.isSome = true ↔ p ∈ moves.map (·.1)) ∧
      ∀ p : Pathway, weights[p]? = pairs[p]?.map fun s => (PairMap.flashed later p s).connection := by
  unfold flash at h
  rcases hslots : encodeSlots ((List.range slots).map slotToken) n layers with ⟨e | patterns, n'⟩
  · rw [hslots] at h
    cases h
  rw [hslots] at h
  dsimp only at h
  cases hpairs : movePairs n' patterns with
  | error e =>
    rw [hpairs] at h
    cases h
  | ok pairs =>
    rw [hpairs] at h
    dsimp only at h
    rw [Noted.value_bind] at h
    cases h
    obtain ⟨hfits, hkeys⟩ := of_movePairs hpairs
    exact ⟨pairs, hfits, hkeys, fun p => PairMap.getElem?_flash pairs _ _ p⟩

/-- What flashing the pointers leaves of the network. -/
theorem network_flash (n : Network α) (slots : Nat) :
    (flash n slots).value.2 = (encodeSlots ((List.range slots).map slotToken) n layers).2 := by
  unfold flash
  rcases encodeSlots ((List.range slots).map slotToken) n layers with ⟨e | patterns, later⟩
  · rfl
  · dsimp only
    cases movePairs later patterns with
    | error e => rfl
    | ok pairs => rfl

end Pointer

end Engram
