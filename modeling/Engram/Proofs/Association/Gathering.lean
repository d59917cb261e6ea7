/-
  Engram.Proofs.Association.Gathering — what a pathway holds after any history of batches.

  Batches are given to a pathway one after the other. However the associations are spread over
  them, and however often an input comes again, the pathway then holds

  - each input once, in the order in which they were first given (`inputs_gathered`);
  - with it the target that it was given last (`targets_gathered`).

  Two pathways that give every input the same target hold the same associations, each in an order
  of its own (`perm_of_agree`). The targets need not be equal: it is enough that they hold the
  same numbers, unit by unit.
-/

import Engram.Proofs.Association.Targets

namespace Engram.Pairs

variable {α : Type} [Scalar α]

/-- Stores one batch after the other. -/
def addAll? (s : Pairs α) (batches : List (Columns α × Columns α)) : Except Breach (Pairs α) :=
  batches.foldlM (fun s b => s.add? b.1 b.2) s

/-- The associations of the batches, in the order in which they are given. -/
def given (batches : List (Columns α × Columns α)) : List (Pattern α × Pattern α) :=
  batches.flatMap fun b => b.1.patterns.zip b.2.patterns

/-- What an empty pathway holds after storing associations one by one. -/
def gathered (batch : List (Pattern α × Pattern α)) : List (Pattern α × Pattern α) :=
  batch.foldl (fun ps p => store p.1 p.2 ps) []

/-- A batch for layers of these sizes: as many inputs as targets, all of the size of their layer. -/
structure Suits (targetSize sourceSize : Nat) (b : Columns α × Columns α) : Prop where
  width : b.1.height = sourceSize
  height : b.2.height = targetSize
  count : b.1.count = b.2.count
  inputs : ∀ x ∈ b.1.patterns, x.size = sourceSize
  targets : ∀ y ∈ b.2.patterns, y.size = targetSize

/-- No two of the associations are of one input. -/
def Apart (ps : List (Pattern α × Pattern α)) : Prop := ps.Pairwise fun p q => samePattern p.1 q.1 = false

/-- Pathways that give every input the same target. -/
def Agree (s t : Pairs α) : Prop := ∀ k, Option.Rel (fun y z => samePattern y z = true) (s.target? k) (t.target? k)

/-! ## One batch after the other -/

theorem addAll?_eq {m n : Nat} {batches : List (Columns α × Columns α)} (h : ∀ b ∈ batches, Suits m n b)
    (ps : List (Pattern α × Pattern α)) : addAll? ⟨m, n, ps⟩ batches =
      .ok ⟨m, n, (given batches).foldl (fun ps p => store p.1 p.2 ps) ps⟩ := by
  induction batches generalizing ps with
  | nil => rfl
  | cons b rest ih =>
    have hb := h b List.mem_cons_self
    have hadd : add? ⟨m, n, ps⟩ b.1 b.2 =
        .ok ⟨m, n, (b.1.patterns.zip b.2.patterns).foldl (fun ps p => store p.1 p.2 ps) ps⟩ :=
      if_pos ⟨hb.width, hb.height, hb.count⟩
    rw [addAll?, List.foldlM_cons, hadd, given, List.flatMap_cons, List.foldl_append]
    exact ih (fun b hb => h b (List.mem_cons_of_mem _ hb)) _

/-- Batches that suit its layers are stored in an empty pathway. -/
theorem addAll?_empty {m n : Nat} {batches : List (Columns α × Columns α)} (h : ∀ b ∈ batches, Suits m n b) :
    addAll? (.empty m n) batches = .ok ⟨m, n, gathered (given batches)⟩ :=
  addAll?_eq h []

omit [Scalar α] in
/-- The inputs and targets that are given have the sizes of their layers. -/
theorem sized_given {m n : Nat} {batches : List (Columns α × Columns α)} (h : ∀ b ∈ batches, Suits m n b) :
    ∀ p ∈ given batches, p.1.size = n ∧ p.2.size = m := by
  intro p hp
  obtain ⟨b, hb, hp⟩ := List.mem_flatMap.mp hp
  obtain ⟨hx, hy⟩ := List.of_mem_zip hp
  exact ⟨(h b hb).inputs p.1 hx, (h b hb).targets p.2 hy⟩

theorem sized_gathered {m n : Nat} {batches : List (Columns α × Columns α)} (h : ∀ b ∈ batches, Suits m n b) :
    Sized ⟨m, n, gathered (given batches)⟩ :=
  sized_foldl_store (given batches) [] (sized_given h) fun _ hp => absurd hp List.not_mem_nil

/-! ## The inputs -/

section

/-- The inputs after one more is stored. -/
theorem map_store (x y : Pattern α) (ps : List (Pattern α × Pattern α)) : (store x y ps).map (·.1) =
    if (ps.map (·.1)).any (samePattern · x) then ps.map (·.1) else ps.map (·.1) ++ [x] := by
  induction ps with
  | nil => rfl
  | cons p rest ih =>
    rw [store, List.map_cons, List.any_cons]
    by_cases hp : samePattern p.1 x = true
    · rw [if_pos hp, hp, Bool.true_or, if_pos rfl, List.map_cons]
    · rw [if_neg hp, Bool.eq_false_iff.mpr hp, Bool.false_or, List.map_cons, ih]
      split
      · rfl
      · rfl

/-- Storing keeps the inputs apart. -/
theorem Apart.store {ps : List (Pattern α × Pattern α)} (h : Apart ps) (x y : Pattern α) : Apart (store x y ps) := by
  have hkeys : (ps.map (·.1)).Pairwise fun k l => samePattern k l = false := List.pairwise_map.mpr h
  unfold Apart
  rw [← List.pairwise_map (f := Prod.fst) (R := fun k l => samePattern k l = false), map_store]
  split
  · exact hkeys
  next hnew =>
    rw [Bool.not_eq_true, List.any_eq_false] at hnew
    exact List.pairwise_append.mpr ⟨hkeys, List.pairwise_singleton _ _, fun k hk l hl => by
      rw [List.mem_singleton.mp hl]
      exact Bool.eq_false_iff.mpr (hnew k hk)⟩

theorem apart_foldl_store (batch : List (Pattern α × Pattern α)) {ps : List (Pattern α × Pattern α)} (h : Apart ps) :
    Apart (batch.foldl (fun ps p => Pairs.store p.1 p.2 ps) ps) := by
  induction batch generalizing ps with
  | nil => exact h
  | cons p rest ih => exact ih (h.store p.1 p.2)

/-- However often an input is given, it is held once. -/
theorem apart_gathered (batch : List (Pattern α × Pattern α)) : Apart (gathered batch) :=
  apart_foldl_store batch List.Pairwise.nil

variable [SameLaws α]

/-- Storing goes through the inputs as removing repetitions does, from the ones that are there. -/
theorem map_foldl_store (batch ps : List (Pattern α × Pattern α)) :
    (batch.foldl (fun ps p => store p.1 p.2 ps) ps).map (·.1) =
      List.eraseDupsBy.loop samePattern (batch.map (·.1)) (ps.map (·.1)).reverse := by
  induction batch generalizing ps with
  | nil => rw [List.foldl_nil, List.map_nil, List.eraseDupsBy.loop, List.reverse_reverse]
  | cons p rest ih =>
    have hany : (ps.map (·.1)).reverse.any (samePattern p.1) = (ps.map (·.1)).any (samePattern · p.1) := by
      rw [List.any_reverse]
      refine congrArg (List.any _) (funext fun x => ?_)
      rw [Bool.eq_iff_iff]
      exact ⟨samePattern_symm, samePattern_symm⟩
    rw [List.foldl_cons, ih, map_store, List.map_cons, List.eraseDupsBy.loop, hany]
    cases (ps.map (·.1)).any (samePattern · p.1) with
    | true => rfl
    | false => rw [if_neg Bool.false_ne_true, List.reverse_append, List.reverse_singleton, List.singleton_append]

/-- The inputs are held in the order in which they were first given. -/
theorem inputs_gathered (batch : List (Pattern α × Pattern α)) :
    (gathered batch).map (·.1) = (batch.map (·.1)).eraseDupsBy samePattern :=
  map_foldl_store batch []

/-! ## The targets -/

/-- An input that is held has its own target. -/
theorem Apart.targetIn {ps : List (Pattern α × Pattern α)} (h : Apart ps) {p : Pattern α × Pattern α} (hp : p ∈ ps) :
    targetIn ps p.1 = some p.2 := by
  induction ps with
  | nil => exact absurd hp List.not_mem_nil
  | cons q rest ih =>
    obtain ⟨hq, hrest⟩ := List.pairwise_cons.mp h
    rw [targetIn_cons]
    rcases List.mem_cons.mp hp with rfl | hp
    · rw [if_pos (samePattern_refl _)]
    · rw [if_neg (Bool.eq_false_iff.mp (hq p hp))]
      exact ih hrest hp

/-- With each input the target is held that was given last. -/
theorem targets_gathered (batch : List (Pattern α × Pattern α)) :
    (gathered batch).map (fun p => some p.2) = (gathered batch).map (fun p => Pairs.targetIn batch.reverse p.1) := by
  refine List.map_congr_left fun p hp => ?_
  rw [← (apart_gathered batch).targetIn hp, gathered, targetIn_foldl_store, targetIn_nil, Option.or_none]

/-! ## The same associations in another order -/

omit [SameLaws α] in
/-- An association between others is found only by its own input. -/
theorem targetIn_middle {ls rs : List (Pattern α × Pattern α)} {p : Pattern α × Pattern α} {k : Pattern α}
    (hk : samePattern p.1 k = false) : Pairs.targetIn (ls ++ p :: rs) k = Pairs.targetIn (ls ++ rs) k := by
  rw [targetIn_append, targetIn_cons, if_neg (Bool.eq_false_iff.mp hk), targetIn_append]

/-- Associations without one of them give its input no target. -/
theorem Apart.targetIn_rest {ls rs : List (Pattern α × Pattern α)} {p : Pattern α × Pattern α}
    (h : Apart (ls ++ p :: rs)) {k : Pattern α} (hk : samePattern p.1 k = true) : Pairs.targetIn (ls ++ rs) k = none := by
  obtain ⟨-, hright, hleft⟩ := List.pairwise_append.mp h
  obtain ⟨hright, -⟩ := List.pairwise_cons.mp hright
  refine targetIn_eq_none fun q hq => Bool.eq_false_iff.mpr fun hqk => ?_
  rcases List.mem_append.mp hq with hq | hq
  · exact Bool.eq_false_iff.mp (hleft q hq p List.mem_cons_self) (samePattern_trans hqk (samePattern_symm hk))
  · exact Bool.eq_false_iff.mp (hright q hq) (samePattern_trans hk (samePattern_symm hqk))

/-- Where patterns of the same numbers stand for one thing, associations that agree stand for the same things, in some
order. -/
theorem perm_of_agree {β : Type} {f : Pattern α → β} (hf : ∀ x y, samePattern x y = true → f x = f y)
    {ps qs : List (Pattern α × Pattern α)} (hps : Apart ps) (hqs : Apart qs)
    (h : ∀ k, Option.Rel (fun y z => samePattern y z = true) (Pairs.targetIn ps k) (Pairs.targetIn qs k)) :
    (ps.map fun p => (f p.1, f p.2)).Perm (qs.map fun p => (f p.1, f p.2)) := by
  induction ps generalizing qs with
  | nil =>
    cases qs with
    | nil => exact List.Perm.refl _
    | cons q rest =>
      have hq := h q.1
      rw [hqs.targetIn List.mem_cons_self, targetIn_nil] at hq
      cases hq
  | cons p rest ih =>
    -- the association of the other list with this input
    have hp := h p.1
    rw [hps.targetIn List.mem_cons_self] at hp
    obtain ⟨z, hz, hsame⟩ : ∃ z, Pairs.targetIn qs p.1 = some z ∧ samePattern p.2 z = true := by
      cases hq : Pairs.targetIn qs p.1 with
      | none =>
        rw [hq] at hp
        cases hp
      | some z =>
        rw [hq] at hp
        cases hp with
        | some hsame => exact ⟨z, rfl, hsame⟩
    obtain ⟨x, hx, hxp⟩ := exists_mem_of_targetIn hz
    obtain ⟨ls, rs, rfl⟩ := List.append_of_mem hx
    have hrest : ∀ k, Option.Rel (fun y z => samePattern y z = true) (Pairs.targetIn rest k) (Pairs.targetIn (ls ++ rs) k) := by
      intro k
      by_cases hk : samePattern p.1 k = true
      · have hfirst : Apart ([] ++ p :: rest) := hps
        have hnone : Pairs.targetIn rest k = none := hfirst.targetIn_rest hk
        rw [hnone, hqs.targetIn_rest (samePattern_trans hxp hk)]
        exact Option.Rel.none
      · have hxk : samePattern x k = false :=
          Bool.eq_false_iff.mpr fun hxk => hk (samePattern_trans (samePattern_symm hxp) hxk)
        have hk' := h k
        rwa [targetIn_cons, if_neg hk, targetIn_middle hxk] at hk'
    have hothers : Apart (ls ++ rs) := hqs.sublist (List.Sublist.append_left (List.sublist_cons_self _ _) ls)
    have hperm := ih (List.pairwise_cons.mp hps).2 hothers hrest
    have hhead : ((f x, f z) : β × β) = (f p.1, f p.2) := by rw [hf x p.1 hxp, hf p.2 z hsame]
    rw [List.map_cons, List.map_append, List.map_cons]
    refine (hperm.cons _).trans ?_
    rw [List.map_append, hhead]
    exact List.perm_middle.symm

end

end Engram.Pairs
