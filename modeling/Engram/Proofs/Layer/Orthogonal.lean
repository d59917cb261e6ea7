/-
  Engram.Proofs.Layer.Orthogonal — the orthogonal patterns of a layer are orthogonal.

  Two columns of the Sylvester matrix of size 2^k, seen as signs, have product zero: the rows 2i
  and 2i + 1 contribute the product of half the size, once with and once without the sign in
  which the lowest bits of the column numbers differ (`sum_rows_mul`). Flipping the sign of a
  unit in all columns changes no product, and the order in which columns are taken is a
  permutation, so the patterns that a fresh layer gives to different tokens from this family are
  different columns (`encodeAll_fresh`), at the same distance from each other.
-/

import Engram.Proofs.Exact.Activator
import Engram.Proofs.Exact.Entries
import Engram.Proofs.Layer.Bindings
import Mathlib.Algebra.BigOperators.Group.List.Basic

namespace Engram

open Activator

namespace Sylvester

/-- The sign of entry (i, j). -/
def signAt (i j : Nat) : ℝ := sign (!isNegative i j)

theorem oddOnes_eq (n : Nat) : oddOnes n = ((n % 2 == 1) != oddOnes (n / 2)) := by
  rw [oddOnes]
  split
  · next h => subst h; rw [oddOnes]; rfl
  · rfl

theorem isNegative_eq (i j : Nat) :
    isNegative i j = ((i % 2 == 1 && j % 2 == 1) != isNegative (i / 2) (j / 2)) := by
  rw [isNegative, oddOnes_eq, Nat.and_div_two, ← isNegative]
  congr 1
  rw [Bool.eq_iff_iff]
  simp [Nat.and_mod_two_eq_one]

theorem sign_bne (a b : Bool) : sign (a != b) = sign a * sign (!b) := by cases a <;> cases b <;> simp

theorem signAt_even (i j : Nat) : signAt (2 * i) j = signAt i (j / 2) := by
  rw [signAt, isNegative_eq, Nat.mul_div_cancel_left i (by omega)]
  simp [signAt]

theorem signAt_odd (i j : Nat) : signAt (2 * i + 1) j = (if j % 2 = 1 then -1 else 1) * signAt i (j / 2) := by
  have h : (2 * i + 1) / 2 = i := by omega
  rw [signAt, isNegative_eq, h]
  by_cases hj : j % 2 = 1
  · simp [hj, signAt, sign_not]
  · simp [Nat.mod_two_not_eq_one.mp hj, signAt]

theorem signAt_mul_self (i j : Nat) : signAt i j * signAt i j = 1 := sign_mul_self _

/-- Rows in pairs. -/
theorem sum_range_double (f : Nat → ℝ) (n : Nat) :
    ∑ i ∈ Finset.range (2 * n), f i = ∑ i ∈ Finset.range n, (f (2 * i) + f (2 * i + 1)) := by
  induction n with
  | zero => simp
  | succ n ih =>
    rw [show 2 * (n + 1) = 2 * n + 1 + 1 by omega, Finset.sum_range_succ, Finset.sum_range_succ, ih,
      Finset.sum_range_succ, add_assoc]

/-- Different columns are orthogonal. -/
theorem sum_rows_mul (k : Nat) : ∀ {c d : Nat}, c < 2 ^ k → d < 2 ^ k → c ≠ d →
    ∑ i ∈ Finset.range (2 ^ k), signAt i c * signAt i d = 0 := by
  induction k with
  | zero => intro c d hc hd hne; simp at hc hd; omega
  | succ k ih =>
    intro c d hc hd hne
    rw [Nat.pow_succ, Nat.mul_comm, sum_range_double]
    simp only [signAt_even, signAt_odd]
    by_cases hhalf : c / 2 = d / 2
    · -- the columns differ in the lowest bit only, and the two rows of a pair cancel
      apply Finset.sum_eq_zero
      intro i _
      have hbit : (c % 2 = 1 ∧ ¬ d % 2 = 1) ∨ (¬ c % 2 = 1 ∧ d % 2 = 1) := by omega
      have hone := signAt_mul_self i (d / 2)
      rw [hhalf]
      rcases hbit with ⟨h₁, h₂⟩ | ⟨h₁, h₂⟩
      · rw [if_pos h₁, if_neg h₂]; linear_combination 0 * hone
      · rw [if_neg h₁, if_pos h₂]; linear_combination 0 * hone
    · -- every pair contributes a multiple of the columns of half the size
      have hz := ih (c := c / 2) (d := d / 2) (by omega) (by omega) hhalf
      have : ∀ i ∈ Finset.range (2 ^ k), signAt i (c / 2) * signAt i (d / 2) +
          (if c % 2 = 1 then -1 else 1) * signAt i (c / 2) * ((if d % 2 = 1 then -1 else 1) * signAt i (d / 2)) =
          (1 + (if c % 2 = 1 then -1 else 1) * (if d % 2 = 1 then -1 else 1)) *
            (signAt i (c / 2) * signAt i (d / 2)) := by
        intro i _
        ring
      rw [Finset.sum_congr rfl this, ← Finset.mul_sum, hz, mul_zero]

theorem isPowerOfTwo_two_pow (k : Nat) : isPowerOfTwo (2 ^ k) = true := by
  have hpos : 2 ^ k ≠ 0 := (Nat.two_pow_pos k).ne'
  simp only [isPowerOfTwo, Nat.log2_two_pow, Nat.pow_eq, Bool.and_eq_true, bne_iff_ne, ne_eq, beq_self_eq_true, and_true]
  exact hpos

theorem exists_pow_of_isPowerOfTwo {n : Nat} (h : isPowerOfTwo n = true) : ∃ k, n = 2 ^ k := by
  simp only [isPowerOfTwo, Bool.and_eq_true, beq_iff_eq] at h
  exact ⟨n.log2, h.2.symm⟩

end Sylvester

namespace CodeBook

theorem sign_familyBits (f : OrthogonalFamily) (c : Nat) {i : Nat} (hi : i < f.signs.length)
    (hi' : i < (OrthogonalFamily.bits f c).length) :
    sign (OrthogonalFamily.bits f c)[i] = sign f.signs[i] * Sylvester.signAt i c := by
  simp [OrthogonalFamily.bits, Sylvester.sign_bne, Sylvester.signAt]

section

variable {α : Type} [Scalar α]

theorem pattern_familyBits_size (f : OrthogonalFamily) (a : Activator α) (c : Nat) :
    (a.pattern (OrthogonalFamily.bits f c)).size = f.signs.length := by simp

/-- New tokens get the next columns of the family, in their order. -/
theorem encodeAll_new (layer : String) (tokens : List String) : ∀ {b : CodeBook α} {s : Random.Stream}
    {f : OrthogonalFamily}, IsFamily f b.size → b.withFamily = { b with stream := s, family := some f } →
    Sylvester.isPowerOfTwo b.size = true → tokens.Nodup → (∀ t ∈ tokens, b.pattern? t = none) →
    f.used + tokens.length ≤ b.size →
    (b.encodeAll true layer tokens).1 = .ok (((f.order.drop f.used).take tokens.length).map fun c =>
      b.activator.pattern (OrthogonalFamily.bits f c)) := by
  induction tokens with
  | nil => intros; simp [encodeAll]
  | cons token rest ih =>
    intro b s f hf hb hsize hnodup hnew hroom
    have hlen : f.order.length = b.size := by simpa using hf.order.length_eq
    have hused : f.used < f.order.length := by simp at hroom; omega
    -- the book after the first token, in which the rest is as new as before
    let b₁ : CodeBook α := { b with stream := s, family := some { f with used := f.used + 1 } }
    let p : Pattern α := b.activator.pattern (OrthogonalFamily.bits f f.order[f.used])
    have hp : p.size = b.size := by rw [pattern_familyBits_size, hf.signs]
    have hfirst : b.encodeFrom true layer token = (.ok p, b₁.bind token p) := by
      rw [encodeFrom_of_new (hnew token List.mem_cons_self), draw, if_pos rfl, drawOrthogonal_eq layer hsize hb,
        List.getElem?_eq_getElem hused]
    have hrest := ih (b := b₁.bind token p) (s := s) (f := { f with used := f.used + 1 }) ⟨hf.signs, hf.order⟩ rfl
      hsize (List.nodup_cons.mp hnodup).2 ?_ (by simp at hroom ⊢; show _ ≤ b.size; omega)
    · simp only [encodeAll, hfirst]
      rw [column_of_size (by simpa using hp)]
      rcases hall : (b₁.bind token p).encodeAll true layer rest with ⟨r, b₂⟩
      rw [hall] at hrest
      dsimp only at hrest
      subst hrest
      simp only [List.length_cons]
      rw [List.drop_eq_getElem_cons hused, List.take_succ_cons, List.map_cons]
      rfl
    · intro t ht
      have hne : t ≠ token := by
        rintro rfl
        exact (List.nodup_cons.mp hnodup).1 ht
      rw [pattern?_bind, if_neg hne]
      exact hnew t (List.mem_cons_of_mem _ ht)

/-- A layer without tokens gives new ones different columns of one family. -/
theorem encodeAll_fresh (size : Nat) (a : Activator α) (seed : UInt64) (layer : String) {tokens : List String}
    (hsize : Sylvester.isPowerOfTwo size = true) (hnodup : tokens.Nodup) (hroom : tokens.length ≤ size) :
    ∃ (f : OrthogonalFamily) (columns : List Nat), IsFamily f size ∧ columns.Nodup ∧
      columns.length = tokens.length ∧ (∀ c ∈ columns, c < size) ∧
      ((CodeBook.new size a seed).encodeAll true layer tokens).1 =
        .ok (columns.map fun c => a.pattern (OrthogonalFamily.bits f c)) := by
  let f := (drawFamily size (Random.Stream.ofSeed seed)).1
  have hf : IsFamily f size := isFamily_drawFamily size _
  have hlen : f.order.length = size := by simpa using hf.order.length_eq
  refine ⟨f, f.order.take tokens.length, hf, ?_, ?_, fun c hc => ?_, ?_⟩
  · exact (hf.order.nodup_iff.mpr List.nodup_range).sublist (List.take_sublist _ _)
  · rw [List.length_take, hlen, min_eq_left hroom]
  · exact List.mem_range.mp (hf.order.mem_iff.mp (List.mem_of_mem_take hc))
  · exact encodeAll_new layer tokens (s := (drawFamily size (Random.Stream.ofSeed seed)).2) hf rfl hsize hnodup
      (fun t _ => rfl) (by show 0 + tokens.length ≤ size; omega)

end

/-- Two patterns of the family, around the midpoint: nothing in common unless they are the same
column. -/
theorem sum_centred (f : OrthogonalFamily) (a : Activator ℝ) {size c d : Nat} (hsigns : f.signs.length = size)
    (hsize : Sylvester.isPowerOfTwo size = true) (hc : c < size) (hd : d < size) :
    ∑ j ∈ Finset.range size, ((a.pattern (OrthogonalFamily.bits f c)).entry j - a.midpoint) *
        ((a.pattern (OrthogonalFamily.bits f d)).entry j - a.midpoint) =
      if c = d then size * a.span ^ 2 else 0 := by
  have hentry : ∀ c, ∀ j (hj : j < f.signs.length), (a.pattern (OrthogonalFamily.bits f c)).entry j - a.midpoint =
      sign f.signs[j] * Sylvester.signAt j c * a.span := by
    intro c j hj
    have hj' : j < (a.pattern (OrthogonalFamily.bits f c)).size := by rw [pattern_familyBits_size]; exact hj
    rw [Pattern.entry_of_lt hj']
    simp only [Activator.pattern, List.getElem_toArray, List.getElem_map]
    rw [level_eq, sign_familyBits f c hj]
    ring
  have hterm : ∀ j ∈ Finset.range size, ((a.pattern (OrthogonalFamily.bits f c)).entry j - a.midpoint) *
      ((a.pattern (OrthogonalFamily.bits f d)).entry j - a.midpoint) =
        a.span ^ 2 * (Sylvester.signAt j c * Sylvester.signAt j d) := by
    intro j hj
    rw [Finset.mem_range, ← hsigns] at hj
    rw [hentry c j hj, hentry d j hj]
    have hone := sign_mul_self f.signs[j]
    linear_combination (Sylvester.signAt j c * Sylvester.signAt j d * a.span ^ 2) * hone
  rw [Finset.sum_congr rfl hterm, ← Finset.mul_sum]
  obtain ⟨k, hk⟩ := Sylvester.exists_pow_of_isPowerOfTwo hsize
  by_cases hcd : c = d
  · subst hcd
    rw [if_pos rfl, Finset.sum_congr rfl fun j _ => Sylvester.signAt_mul_self j c]
    simp
    ring
  · rw [if_neg hcd]
    subst hk
    rw [Sylvester.sum_rows_mul k hc hd hcd, mul_zero]

end CodeBook

end Engram
