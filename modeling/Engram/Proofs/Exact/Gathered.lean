/-
  Engram.Proofs.Exact.Gathered — the weights of a pathway by what it recalls for each input.

  What a flash writes does not depend on the order of a batch (`flash_perm`). By the first rule
  each association adds a term of its own. By the second one the coefficients depend on each
  other, and the factor they are solved with on the order; but what they add up to does not: the
  combination a of the inputs that is added to a row satisfies

    ridge · a = Σ (residual − a · u) u        the sum over all associations, u the input

  and only one a does, as the difference of two would be turned against itself
  (`Pulled.eq`).

  With what a pathway holds after any history of batches this gives `flash_of_agree`: it is the
  targets of the inputs alone that the weights, the bias and the number of associations missed
  depend on.
-/

import Engram.Proofs.Exact.Regression
import Engram.Proofs.Association.Gathering
import Engram.Proofs.Scalar.Fixed

namespace Engram

open Finset Pattern Activator

namespace Association

variable {c : Connection ℝ} {x y x' y' : Columns ℝ} {source target : Activator ℝ} {mid : ℝ}

/-- The associations of a batch. -/
def pairsOf (x y : Columns ℝ) : List (Pattern ℝ × Pattern ℝ) := x.patterns.zip y.patterns

/-- A sum over the columns of a batch is one over its associations. -/
theorem sum_columns (hcount : x.count = y.count) (f : Pattern ℝ → Pattern ℝ → ℝ) :
    ∑ p ∈ range x.count, f (x.column p) (y.column p) = ((pairsOf x y).map fun p => f p.1 p.2).sum := by
  have hlength : (pairsOf x y).length = x.count := by
    rw [pairsOf, List.length_zip]
    exact Nat.min_eq_left hcount.le
  rw [← Fin.sum_univ_fun_getElem, ← hlength, Finset.sum_range]
  refine sum_congr rfl fun p _ => ?_
  have hp : p.1 < x.patterns.length := p.2.trans_eq hlength
  have hp' : p.1 < y.patterns.length := hp.trans_eq hcount
  simp [pairsOf, Columns.column, hp, hp']

/-- The inputs of a batch are those of its associations. -/
theorem map_pairsOf (hcount : x.count = y.count) : (pairsOf x y).map (·.1) = x.patterns :=
  List.map_fst_zip (Nat.le_of_eq hcount)

section

variable (hcount : x.count = y.count) (hcount' : x'.count = y'.count) (hperm : (pairsOf x y).Perm (pairsOf x' y'))

include hcount hcount' hperm

/-- What a sum over the columns comes to does not depend on their order. -/
theorem sum_columns_perm (f : Pattern ℝ → Pattern ℝ → ℝ) :
    ∑ p ∈ range x.count, f (x.column p) (y.column p) = ∑ p ∈ range x'.count, f (x'.column p) (y'.column p) := by
  rw [sum_columns hcount, sum_columns hcount', (hperm.map _).sum_eq]

theorem inputs_perm : x.patterns.Perm x'.patterns := by
  rw [← map_pairsOf hcount, ← map_pairsOf hcount']
  exact hperm.map _

theorem ridge_perm (mid : ℝ) : ridge mid x = ridge mid x' := by
  have hinputs : ∀ u, u ∈ x.patterns ↔ u ∈ x'.patterns := fun _ => (inputs_perm hcount hcount' hperm).mem_iff
  simp only [ridge, hinputs]

end

/-! ## The combination that is added -/

/-- The product of a row with an extended input. -/
noncomputable def pull (mid : ℝ) (n : Nat) (a : Nat → ℝ) (u : Pattern ℝ) : ℝ :=
  ∑ k ∈ range (n + 1), a k * (extend mid u).entry k

/-- A row that the residuals it leaves of the associations pull it to. -/
def Pulled (mid r : ℝ) (n : Nat) (x y : Columns ℝ) (e : Pattern ℝ → Pattern ℝ → ℝ) (a : Nat → ℝ) : Prop :=
  ∀ k, r * a k = ∑ q ∈ range x.count, (e (x.column q) (y.column q) - pull mid n a (x.column q)) * (extend mid (x.column q)).entry k

/-- A row is pulled the same way in any order. -/
theorem Pulled.perm {r : ℝ} {n : Nat} {e : Pattern ℝ → Pattern ℝ → ℝ} {a : Nat → ℝ} (h : Pulled mid r n x' y' e a)
    (hcount : x.count = y.count) (hcount' : x'.count = y'.count) (hperm : (pairsOf x y).Perm (pairsOf x' y')) :
    Pulled mid r n x y e a := by
  intro k
  rw [h k]
  exact (sum_columns_perm hcount hcount' hperm fun u v => (e u v - pull mid n a u) * (extend mid u).entry k).symm

/-- Only one row is pulled to itself: the difference of two would be pulled to where it does not point. -/
theorem Pulled.eq {r : ℝ} (hr : 0 < r) {n : Nat} {e : Pattern ℝ → Pattern ℝ → ℝ} {a b : Nat → ℝ} (ha : Pulled mid r n x y e a)
    (hb : Pulled mid r n x y e b) : ∀ k ∈ range (n + 1), a k = b k := by
  have hsub : ∀ u, pull mid n a u - pull mid n b u = ∑ k ∈ range (n + 1), (a k - b k) * (extend mid u).entry k := by
    intro u
    rw [pull, pull, ← sum_sub_distrib]
    exact sum_congr rfl fun k _ => (sub_mul _ _ _).symm
  have hdifference : ∀ k, r * (a k - b k) = -∑ q ∈ range x.count,
      (pull mid n a (x.column q) - pull mid n b (x.column q)) * (extend mid (x.column q)).entry k := by
    intro k
    rw [mul_sub, ha k, hb k, ← sum_sub_distrib, ← sum_neg_distrib]
    exact sum_congr rfl fun q _ => by ring
  have hsquares : r * ∑ k ∈ range (n + 1), (a k - b k) ^ 2 =
      -∑ q ∈ range x.count, (pull mid n a (x.column q) - pull mid n b (x.column q)) ^ 2 := by
    calc r * ∑ k ∈ range (n + 1), (a k - b k) ^ 2
        = ∑ k ∈ range (n + 1), (a k - b k) * (r * (a k - b k)) := by
          rw [mul_sum]
          exact sum_congr rfl fun k _ => by ring
      _ = -∑ k ∈ range (n + 1), ∑ q ∈ range x.count, (pull mid n a (x.column q) - pull mid n b (x.column q)) *
            ((a k - b k) * (extend mid (x.column q)).entry k) := by
          rw [← sum_neg_distrib]
          refine sum_congr rfl fun k _ => ?_
          rw [hdifference k, mul_neg, mul_sum]
          exact congrArg Neg.neg (sum_congr rfl fun q _ => by ring)
      _ = -∑ q ∈ range x.count, (pull mid n a (x.column q) - pull mid n b (x.column q)) ^ 2 := by
          rw [sum_comm]
          refine congrArg Neg.neg (sum_congr rfl fun q _ => ?_)
          rw [← mul_sum, ← hsub, pow_two]
  have hnone : ∑ k ∈ range (n + 1), (a k - b k) ^ 2 = 0 := by
    have hpulls : 0 ≤ ∑ q ∈ range x.count, (pull mid n a (x.column q) - pull mid n b (x.column q)) ^ 2 :=
      sum_nonneg fun q _ => sq_nonneg _
    have hnonneg : 0 ≤ ∑ k ∈ range (n + 1), (a k - b k) ^ 2 := sum_nonneg fun k _ => sq_nonneg _
    have hle : r * ∑ k ∈ range (n + 1), (a k - b k) ^ 2 ≤ 0 := by linarith
    exact le_antisymm (nonpos_of_mul_nonpos_right hle hr) hnonneg
  intro k hk
  have hzero := (sum_eq_zero_iff_of_nonneg fun k _ => sq_nonneg _).mp hnone k hk
  exact sub_eq_zero.mp (pow_eq_zero_iff two_ne_zero |>.mp hzero)

/-- The second rule adds to each row the one that is pulled to itself. -/
theorem Batch.exists_pulled (h : Batch c x y) (hne : x.patterns ≠ []) (source target : Activator ℝ) {i : Nat}
    (hi : i < c.weights.height) : ∃ a,
    Pulled source.midpoint (ridge source.midpoint x) c.weights.width x y
      (fun u v => target.inverse (v.entry i) - c.out i u) a ∧
    ∀ u : Pattern ℝ, u.size = c.weights.width →
      (Association.flash .rehebbian c x y source target).connection.out i u = c.out i u + pull source.midpoint c.weights.width a u := by
  obtain ⟨z, hz⟩ := h.exists_coefficients hne source target
  refine ⟨combined source.midpoint x (z i), fun k => ?_, fun u hu => ?_⟩
  · rw [combined, mul_sum]
    refine sum_congr rfl fun q hq => ?_
    have hq := mem_range.mp hq
    have hresidual : target.inverse ((y.column q).entry i) - c.out i (x.column q) =
        overlaps source.midpoint x (z i) q + ridge source.midpoint x * z i q := ((hz i hi).2 q hq).symm
    simp only [hresidual, pull]
    rw [← h.overlaps_eq_sum (z i) hq]
    ring
  · rw [(hz i hi).1 u hu, h.sum_overlap (z i) hu, pull]

/-! ## A batch in another order -/

/-- A batch is always solved. -/
theorem Batch.solved_flash (h : Batch c x y) (rule : Rule) : (Association.flash rule c x y source target).solved = true := by
  by_cases hne : x.patterns = []
  · simp [Association.flash, hne]
  · have hisEmpty : x.patterns.isEmpty = false := by simpa using hne
    simp only [Association.flash, hisEmpty, Bool.false_eq_true, if_false]
    cases rule with
    | hebbian => rfl
    | rehebbian =>
      have hinputs : ∀ u ∈ extended x source, u.size = c.weights.width + 1 := h.size_extended
      obtain ⟨l, hl, -⟩ := exists_factorWithin_gram hinputs
      rw [extended] at hl
      simp only [coefficients, hl]

/-- A batch in another order gives the same weights and bias, and misses as many. -/
theorem flash_perm (h : Batch c x y) (h' : Batch c x' y') (hperm : (pairsOf x y).Perm (pairsOf x' y')) (rule : Rule) :
    flash rule c x y source target = flash rule c x' y' source target := by
  have hinputs := inputs_perm h.count h'.count hperm
  by_cases hne : x.patterns = []
  · have hne' : x'.patterns = [] := List.nil_perm.mp (hne ▸ hinputs)
    simp [flash, hne, hne']
  have hne' : x'.patterns ≠ [] := fun hnil => hne (List.perm_nil.mp (hnil ▸ hinputs))
  have hconnection : (flash rule c x y source target).connection = (flash rule c x' y' source target).connection := by
    refine Connection.eq_of_out (fits_flash h.fits h.height) (fits_flash h'.fits h'.height) (by simp) (by simp) fun i hi u hu => ?_
    rw [height_flash] at hi
    rw [width_flash] at hu
    cases rule with
    | hebbian =>
      rw [h.out_hebbian hne hi hu, h'.out_hebbian hne' hi hu]
      exact congrArg _ (sum_columns_perm h.count h'.count hperm fun v w =>
        (target.inverse (w.entry i) - c.out i v) / overlap source.midpoint v v * overlap source.midpoint v u)
    | rehebbian =>
      obtain ⟨a, ha, hout⟩ := h.exists_pulled hne source target hi
      obtain ⟨b, hb, hout'⟩ := h'.exists_pulled hne' source target hi
      have hb' := hb.perm h.count h'.count hperm
      rw [← ridge_perm h.count h'.count hperm] at hb'
      have heq := ha.eq (ridge_pos hne source) hb'
      rw [hout u hu, hout' u hu, pull, pull, sum_congr rfl fun k hk => by rw [heq k hk]]
  have herrors : (flash rule c x y source target).errors = (flash rule c x' y' source target).errors := by
    rw [errors_flash _ _ _ _ _ _ hne, errors_flash _ _ _ _ _ _ hne', hconnection]
    exact hperm.countP_eq _
  have hsolved : (flash rule c x y source target).solved = (flash rule c x' y' source target).solved := by
    rw [h.solved_flash, h'.solved_flash]
  generalize flash rule c x y source target = f at hconnection herrors hsolved ⊢
  generalize flash rule c x' y' source target = f' at hconnection herrors hsolved ⊢
  obtain ⟨d, errors, solved⟩ := f
  obtain ⟨d', errors', solved'⟩ := f'
  rw [Flash.mk.injEq]
  exact ⟨hconnection, herrors, hsolved⟩

theorem flash?_perm (h : Batch c x y) (h' : Batch c x' y') (hperm : (pairsOf x y).Perm (pairsOf x' y')) (rule : Rule) :
    flash? rule c x y source target = flash? rule c x' y' source target := by
  have hcount : x.count = x'.count := (inputs_perm h.count h'.count hperm).length_eq
  have hheight : y.height = y'.height := h.height.trans h'.height.symm
  rw [flash?, flash?, h.fits_eq, h'.fits_eq, flash_perm h h' hperm rule, hcount, hheight]

end Association

namespace Pairs

/-! ## The targets decide -/

section

variable {α : Type} {m n : Nat} {ps : List (Pattern α × Pattern α)}

/-- The associations that are written, with every number replaced by the real one that it stands for. -/
theorem pairsOf_map (f : α → ℝ) : Association.pairsOf (map f ⟨m, n, ps⟩).inputs (map f ⟨m, n, ps⟩).targets =
    ps.map fun p => (p.1.map f, p.2.map f) := by
  simp only [Association.pairsOf, inputs, targets, map, List.map_map]
  exact List.zip_map' ..

/-- What a pathway holds is written as one batch. -/
theorem Sized.batch (h : Sized ⟨m, n, ps⟩) (f : α → ℝ) :
    Association.Batch (.zero m n) (map f ⟨m, n, ps⟩).inputs (map f ⟨m, n, ps⟩).targets := by
  refine ⟨Connection.fits_zero m n, rfl, rfl, fun u hu => ?_, ?_⟩
  · simp only [inputs, map, List.map_map] at hu
    obtain ⟨p, hp, rfl⟩ := List.mem_map.mp hu
    exact Array.size_map.trans (h p hp).1
  · simp [Columns.count, inputs, targets, map]

end

variable {α : Type} [Scalar α] {m n : Nat}

/-- Numbers that are the same stand for one real number, and patterns of such numbers for one pattern. -/
theorem map_eq_of_samePattern {f : α → ℝ} (hf : ∀ a b, Scalar.same a b = true → f a = f b) (x y : Pattern α)
    (h : samePattern x y = true) : x.map f = y.map f := by
  obtain ⟨hsize, hall⟩ := samePattern_iff.mp h
  refine Array.ext (by simpa using hsize) fun i hi hi' => ?_
  rw [Array.getElem_map, Array.getElem_map]
  exact hf _ _ (hall i _ _)

/-- Whatever batches a pathway is given, it holds every input once, in the order in which they were first given, with the
target that was given last; and every history that leaves the inputs with these targets is written with the same
weights, the same bias and the same number of associations missed. -/
theorem flash_of_agree [SameLaws α] {batches : List (Columns α × Columns α)} (h : ∀ b ∈ batches, Suits m n b) :
    ∃ s : Pairs α, addAll? (.empty m n) batches = .ok s ∧ s.inputs.height = n ∧ s.targets.height = m ∧
      s.inputs.patterns = ((given batches).map (·.1)).eraseDupsBy samePattern ∧
      (s.inputs.patterns.Pairwise fun k l => samePattern k l = false) ∧
      s.targets.patterns.map some = s.inputs.patterns.map (targetIn (given batches).reverse) ∧
      ∀ (others : List (Columns α × Columns α)) (t : Pairs α), (∀ b ∈ others, Suits m n b) →
        addAll? (.empty m n) others = .ok t → s.Agree t →
        ∀ f : α → ℝ, (∀ a b, Scalar.same a b = true → f a = f b) → ∀ (rule : Rule) (source target : Activator ℝ),
          (s.map f).flash? rule source target = (t.map f).flash? rule source target ∧
          (target.Proper → ∃ w, (s.map f).flash? rule source target = .ok w) := by
  refine ⟨_, addAll?_empty h, rfl, rfl, inputs_gathered _, List.pairwise_map.mpr (apart_gathered _), ?_, ?_⟩
  · rw [targets, inputs, List.map_map, List.map_map]
    exact targets_gathered _
  · intro others t hothers ht hagree f hf rule source target
    obtain rfl : ⟨m, n, gathered (given others)⟩ = t := Except.ok.inj ((addAll?_empty hothers).symm.trans ht)
    have hbatch := (sized_gathered h).batch f
    have hperm := perm_of_agree (map_eq_of_samePattern hf) (apart_gathered (given batches)) (apart_gathered (given others)) hagree
    rw [← pairsOf_map f, ← pairsOf_map f] at hperm
    refine ⟨Association.flash?_perm hbatch ((sized_gathered hothers).batch f) hperm rule, fun htarget => ?_⟩
    exact ⟨_, hbatch.flash?_eq ((Scalar.le_eq_true _ _).mpr htarget.off_lt_on.le)⟩

/-! ### Two histories of two inputs -/

/-- Two inputs of one unit, and the patterns that are their targets. -/
def up : Pattern Fixed := #[⟨1000000⟩]

def down : Pattern Fixed := #[⟨-1000000⟩]

/-- Both inputs are taken up, and then one of them down. -/
def corrected : List (Columns Fixed × Columns Fixed) := [(⟨1, [up, down]⟩, ⟨1, [up, up]⟩), (⟨1, [up]⟩, ⟨1, [down]⟩)]

/-- The inputs come in the other order, with the targets that they have in the end. -/
def straight : List (Columns Fixed × Columns Fixed) := [(⟨1, [down, up]⟩, ⟨1, [up, down]⟩)]

theorem suits_corrected : ∀ b ∈ corrected, Suits 1 1 b := by
  intro b hb
  simp only [corrected, List.mem_cons, List.not_mem_nil, or_false] at hb
  rcases hb with rfl | rfl
  · exact ⟨rfl, rfl, rfl, by decide, by decide⟩
  · exact ⟨rfl, rfl, rfl, by decide, by decide⟩

theorem suits_straight : ∀ b ∈ straight, Suits 1 1 b := by
  intro b hb
  obtain rfl := List.mem_singleton.mp hb
  exact ⟨rfl, rfl, rfl, by decide, by decide⟩

theorem agree_corrected : Agree (⟨1, 1, [(up, down), (down, up)]⟩ : Pairs Fixed) ⟨1, 1, [(down, up), (up, down)]⟩ := by
  intro k
  have hapart : samePattern up down = false := by decide +kernel
  simp only [target?, targetIn_cons, targetIn_nil]
  by_cases hup : samePattern up k = true
  · have hdown : samePattern down k = false := Bool.eq_false_iff.mpr fun hdown =>
      Bool.eq_false_iff.mp hapart (samePattern_trans hup (samePattern_symm hdown))
    simp [hup, hdown]
  · by_cases hdown : samePattern down k = true
    · simp [hup, hdown]
    · simp [hup, hdown]

/-- The two histories of two inputs leave the same weights. -/
theorem corrected_as_straight : (∀ b ∈ corrected, Suits 1 1 b) ∧ (∀ b ∈ straight, Suits 1 1 b) ∧
    ∃ s t : Pairs Fixed, addAll? (.empty 1 1) corrected = .ok s ∧ addAll? (.empty 1 1) straight = .ok t ∧
      s.inputs.patterns = [up, down] ∧ t.inputs.patterns = [down, up] ∧ s.Agree t ∧
      ∀ rule : Rule, ∃ w, (s.map fun x => (x.millionths : ℝ) / 10 ^ 6).flash? rule .standard .standard = .ok w ∧
        (t.map fun x => (x.millionths : ℝ) / 10 ^ 6).flash? rule .standard .standard = .ok w := by
  obtain ⟨s, hs, -, -, -, -, -, hflash⟩ := flash_of_agree suits_corrected
  have hfirst : gathered (given corrected) = [(up, down), (down, up)] := by decide +kernel
  have hsecond : gathered (given straight) = [(down, up), (up, down)] := by decide +kernel
  have hs' := addAll?_empty suits_corrected
  have ht := addAll?_empty suits_straight
  rw [hfirst] at hs'
  rw [hsecond] at ht
  obtain rfl := Except.ok.inj (hs.symm.trans hs')
  refine ⟨suits_corrected, suits_straight, _, _, hs, ht, rfl, rfl, agree_corrected, fun rule => ?_⟩
  have hsame : ∀ a b : Fixed, Scalar.same a b = true → (a.millionths : ℝ) / 10 ^ 6 = (b.millionths : ℝ) / 10 ^ 6 := by
    intro a b hab
    rw [(Fixed.same_iff a b).mp hab]
  obtain ⟨heq, hok⟩ := hflash straight _ suits_straight ht agree_corrected _ hsame rule .standard .standard
  obtain ⟨w, hw⟩ := hok proper_standard
  exact ⟨w, hw, heq ▸ hw⟩

end Pairs

end Engram
