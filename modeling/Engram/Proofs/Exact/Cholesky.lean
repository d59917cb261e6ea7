/-
  Engram.Proofs.Exact.Cholesky — the factor of a positive matrix, and the systems it solves.

  Entries to the right of the diagonal of a triangle are zero like all entries outside, so a
  lower triangle acts by full sums over its rows. Substitution solves such a triangle row by row
  (`forward_spec`), and the same on the turned triangle solves its transpose (`backward_spec`).

  A row left of the diagonal of the factor is what substitution in the rows above makes of the
  row of the matrix. So a factor, when there is one, has the matrix as its product with itself
  (`Factors`). The matrix takes the vector that this row leads to, with a one for the row itself,
  to the pivot of the row: where the matrix is positive every pivot is, and there is a factor
  (`exists_factor`).
-/

import Engram.Proofs.Exact.Entries
import Engram.Linear.Cholesky

namespace Engram

open Finset Pattern

/-- What holds of no rows, and of more rows when it holds of some, holds of all arrays of rows. -/
theorem array_push_induction {β : Type} {P : Array β → Prop} (nil : P #[]) (push : ∀ xs x, P xs → P (xs.push x))
    (xs : Array β) : P xs := by
  suffices h : ∀ l : List β, P l.toArray from h xs.toList
  intro l
  induction l using List.reverseRecOn with
  | nil => exact nil
  | append_singleton l x ih => simpa using push l.toArray x ih

theorem Pattern.entry_reverse {x : Pattern ℝ} {i : Nat} (h : i < x.size) :
    entry x.reverse i = x.entry (x.size - 1 - i) := by
  rw [entry_of_lt (by simpa using h), entry_of_lt (by omega), Array.getElem_reverse]

/-- The squares of the columns of `r`, weighted by `v`, add up to a quadratic form. -/
theorem sum_sum_mul_sum (v : Nat → ℝ) (r : Nat → Nat → ℝ) (n m : Nat) :
    ∑ i ∈ range n, ∑ j ∈ range n, v i * v j * ∑ k ∈ range m, r i k * r j k =
      ∑ k ∈ range m, (∑ i ∈ range n, v i * r i k) ^ 2 := by
  have hterm : ∀ k ∈ range m, (∑ i ∈ range n, v i * r i k) ^ 2 =
      ∑ i ∈ range n, ∑ j ∈ range n, v i * v j * (r i k * r j k) := by
    intro k _
    rw [pow_two, sum_mul_sum]
    exact sum_congr rfl fun i _ => sum_congr rfl fun j _ => by ring
  rw [sum_congr rfl hterm]
  symm
  rw [sum_comm]
  refine sum_congr rfl fun i _ => ?_
  rw [sum_comm]
  exact sum_congr rfl fun j _ => (mul_sum _ _ _).symm

namespace Cholesky

variable {l m : Triangle ℝ} {row b : Pattern ℝ} {ridge : ℝ}

theorem entryAt_push_lt {i : Nat} (h : i < l.size) (row : Pattern ℝ) (j : Nat) :
    entryAt (l.push row) i j = entryAt l i j := by
  unfold entryAt
  rw [Array.getD_eq_getD_getElem?, Array.getD_eq_getD_getElem?, Array.getElem?_push, if_neg (by omega)]

theorem entryAt_push_size (l : Triangle ℝ) (row : Pattern ℝ) (j : Nat) : entryAt (l.push row) l.size j = row.entry j := by
  unfold entryAt
  rw [Array.getD_eq_getD_getElem?, Array.getElem?_push, if_pos rfl, Option.getD_some]

/-! ## Lower triangles -/

/-- A lower triangle with a positive diagonal: each row ends on it. -/
structure Lower (l : Triangle ℝ) : Prop where
  size : ∀ i < l.size, (l.getD i #[]).size = i + 1
  diagonal : ∀ i < l.size, 0 < entryAt l i i

theorem Lower.entryAt_of_lt (h : Lower l) {i j : Nat} (hi : i < l.size) (hj : i < j) : entryAt l i j = 0 :=
  entry_of_le (by rw [h.size i hi]; omega)

theorem lower_push : Lower (l.push row) ↔ Lower l ∧ row.size = l.size + 1 ∧ 0 < row.entry l.size := by
  have hlt : ∀ i < l.size, (l.push row).getD i #[] = l.getD i #[] := by
    intro i hi
    rw [Array.getD_eq_getD_getElem?, Array.getD_eq_getD_getElem?, Array.getElem?_push, if_neg (by omega)]
  have hlast : (l.push row).getD l.size #[] = row := by
    rw [Array.getD_eq_getD_getElem?, Array.getElem?_push, if_pos rfl, Option.getD_some]
  constructor
  · intro h
    refine ⟨⟨fun i hi => ?_, fun i hi => ?_⟩, ?_, ?_⟩
    · rw [← hlt i hi]
      exact h.size i (by simp; omega)
    · rw [← entryAt_push_lt hi row]
      exact h.diagonal i (by simp; omega)
    · rw [← h.size l.size (by simp), hlast]
    · rw [← entryAt_push_size l row]
      exact h.diagonal l.size (by simp)
  · rintro ⟨h, hsize, hdiagonal⟩
    refine ⟨fun i hi => ?_, fun i hi => ?_⟩ <;> rw [Array.size_push] at hi <;>
      rcases Nat.lt_succ_iff_lt_or_eq.mp hi with hi | rfl
    · rw [hlt i hi, h.size i hi]
    · rw [hlast, hsize]
    · rw [entryAt_push_lt hi]
      exact h.diagonal i hi
    · rw [entryAt_push_size]
      exact hdiagonal

theorem lower_nil : Lower #[] := ⟨fun _ hi => (Nat.not_lt_zero _ hi).elim, fun _ hi => (Nat.not_lt_zero _ hi).elim⟩

/-! ## Substitution -/

theorem forward_push (l : Triangle ℝ) (row b : Pattern ℝ) : forward (l.push row) b = (forward l b).push
    ((b.entry (forward l b).size - ∑ k ∈ range (forward l b).size, row.entry k * (forward l b).entry k) /
      row.entry (forward l b).size) := by
  rw [forward, Array.foldl_push, ← forward, ← Scalar.sumBelow_eq_sum]

@[simp] theorem size_forward (l : Triangle ℝ) (b : Pattern ℝ) : (forward l b).size = l.size := by
  induction l using array_push_induction with
  | nil => rfl
  | push l row ih => rw [forward_push, Array.size_push, Array.size_push, ih]

/-- The rows of the factor come from substitution in the rows above them. -/
theorem leftEntries_eq_forward (above : Triangle ℝ) (row : Pattern ℝ) : leftEntries above row = forward above row := by
  unfold leftEntries forward
  simp only [mul_comm]

theorem forward_spec (h : Lower l) (b : Pattern ℝ) {i : Nat} (hi : i < l.size) :
    ∑ k ∈ range l.size, entryAt l i k * (forward l b).entry k = b.entry i := by
  induction l using array_push_induction generalizing i with
  | nil => exact (Nat.not_lt_zero i hi).elim
  | push l row ih =>
    obtain ⟨hl, hsize, hdiagonal⟩ := lower_push.mp h
    have hentry : ∀ k ∈ range l.size, (forward (l.push row) b).entry k = (forward l b).entry k := by
      intro k hk
      rw [forward_push, entry_push_lt _ (by rw [size_forward]; exact mem_range.mp hk)]
    have hlast : (forward (l.push row) b).entry l.size =
        (b.entry l.size - ∑ k ∈ range l.size, row.entry k * (forward l b).entry k) / row.entry l.size := by
      have h := entry_push_size (forward l b)
        ((b.entry (forward l b).size - ∑ k ∈ range (forward l b).size, row.entry k * (forward l b).entry k) /
          row.entry (forward l b).size)
      rw [← forward_push, size_forward] at h
      exact h
    rw [Array.size_push] at hi ⊢
    rw [sum_range_succ]
    rcases Nat.lt_succ_iff_lt_or_eq.mp hi with hi | rfl
    · -- the new column is outside of the old rows
      rw [entryAt_push_lt hi, hl.entryAt_of_lt hi hi, zero_mul, add_zero, ← ih hl hi]
      exact sum_congr rfl fun k hk => by rw [entryAt_push_lt hi, hentry k hk]
    · rw [entryAt_push_size, hlast, mul_div_cancel₀ _ hdiagonal.ne']
      have hsum : ∑ k ∈ range l.size, entryAt (l.push row) l.size k * (forward (l.push row) b).entry k =
          ∑ k ∈ range l.size, row.entry k * (forward l b).entry k :=
        sum_congr rfl fun k hk => by rw [entryAt_push_size, hentry k hk]
      rw [hsum]
      ring

@[simp] theorem size_turned (l : Triangle ℝ) : (turned l).size = l.size := by simp [turned]

theorem size_row_turned (l : Triangle ℝ) {i : Nat} (hi : i < l.size) : ((turned l).getD i #[]).size = i + 1 := by
  simp [turned, Array.getD, hi]

/-- The turned triangle has every entry at the place that half a revolution takes it to. -/
theorem Lower.entryAt_turned (h : Lower l) {i j : Nat} (hi : i < l.size) (hj : j < l.size) :
    entryAt (turned l) i j = entryAt l (l.size - 1 - j) (l.size - 1 - i) := by
  by_cases hji : j < i + 1
  · rw [entryAt, entry_of_lt (by rw [size_row_turned l hi]; exact hji)]
    simp [turned, Array.getD, hi]
  · rw [h.entryAt_of_lt (by omega) (by omega)]
    exact entry_of_le (by rw [size_row_turned l hi]; omega)

theorem Lower.turned (h : Lower l) : Lower (turned l) := by
  refine ⟨fun i hi => ?_, fun i hi => ?_⟩ <;> rw [size_turned] at hi
  · exact size_row_turned l hi
  · rw [h.entryAt_turned hi hi]
    exact h.diagonal _ (by omega)

/-- Substitution in the turned triangle, from the last unknown to the first, solves the transpose. -/
theorem backward_spec (h : Lower l) {b : Pattern ℝ} (hb : b.size = l.size) {i : Nat} (hi : i < l.size) :
    ∑ k ∈ range l.size, entryAt l k i * entry (forward (turned l) b.reverse).reverse k = b.entry i := by
  have hspec := forward_spec h.turned b.reverse (i := l.size - 1 - i) (by rw [size_turned]; omega)
  rw [entry_reverse (by omega), hb, size_turned, show l.size - 1 - (l.size - 1 - i) = i by omega] at hspec
  rw [← hspec, ← sum_range_reflect]
  refine sum_congr rfl fun k hk => ?_
  have hk := mem_range.mp hk
  rw [h.entryAt_turned (by omega) hk, entry_reverse (by rw [size_forward, size_turned]; omega), size_forward, size_turned,
    show l.size - 1 - (l.size - 1 - i) = i by omega, show l.size - 1 - (l.size - 1 - k) = k by omega]

/-! ## The factor -/

/-- The entries of the symmetric matrix with the given lower triangle, with a ridge on its diagonal. -/
noncomputable def symmetric (m : Triangle ℝ) (ridge : ℝ) (i j : Nat) : ℝ :=
  entryAt m (max i j) (min i j) + if i = j then ridge else 0

theorem symmetric_comm (m : Triangle ℝ) (ridge : ℝ) (i j : Nat) : symmetric m ridge i j = symmetric m ridge j i := by
  unfold symmetric
  rw [max_comm, min_comm]
  simp only [eq_comm]

theorem symmetric_push_lt {i j : Nat} (hi : i < m.size) (hj : j < m.size) (row : Pattern ℝ) (ridge : ℝ) :
    symmetric (m.push row) ridge i j = symmetric m ridge i j := by
  unfold symmetric
  rw [entryAt_push_lt (by omega)]

theorem symmetric_push_size {j : Nat} (hj : j < m.size) (row : Pattern ℝ) (ridge : ℝ) :
    symmetric (m.push row) ridge m.size j = row.entry j := by
  unfold symmetric
  rw [max_eq_left hj.le, min_eq_right hj.le, entryAt_push_size, if_neg hj.ne', add_zero]

theorem symmetric_push_self (m : Triangle ℝ) (row : Pattern ℝ) (ridge : ℝ) :
    symmetric (m.push row) ridge m.size m.size = row.entry m.size + ridge := by
  unfold symmetric
  rw [max_self, min_self, entryAt_push_size, if_pos rfl]

/-- A lower triangle whose product with its transpose is the matrix with the ridge. -/
structure Factors (l m : Triangle ℝ) (ridge : ℝ) : Prop where
  size : l.size = m.size
  lower : Lower l
  product : ∀ i < m.size, ∀ j < m.size, ∑ k ∈ range m.size, entryAt l i k * entryAt l j k = symmetric m ridge i j

theorem factor_push (ridge : ℝ) (m : Triangle ℝ) (row : Pattern ℝ) :
    factor? ridge (m.push row) = (factor? ridge m).bind fun above => (factorRow? ridge above row).map above.push := by
  rw [factor?, Array.foldlM_push, ← factor?]
  rfl

/-- What is left of the diagonal entry when the row left of it is taken out. -/
noncomputable def pivot (l : Triangle ℝ) (row : Pattern ℝ) (ridge : ℝ) : ℝ :=
  row.entry l.size + ridge - ∑ k ∈ range l.size, (forward l row).entry k * (forward l row).entry k

theorem factorRow_eq (ridge : ℝ) (l : Triangle ℝ) (row : Pattern ℝ) : factorRow? ridge l row =
    if 0 < pivot l row ridge then some ((forward l row).push (Real.sqrt (pivot l row ridge))) else none := by
  have hpivot : row.entry (forward l row).size + ridge - (forward l row).dot (forward l row) = pivot l row ridge := by
    rw [dot_eq rfl, size_forward, pivot]
  unfold factorRow?
  simp only [leftEntries_eq_forward, hpivot, Scalar.lt_eq_true]
  rfl

/-- The matrix with one more row is the product of the factor with the row left of the diagonal under
it, but for the pivot. -/
theorem Factors.symmetric_push (h : Factors l m ridge) (row : Pattern ℝ) {i j : Nat} (hi : i < m.size + 1)
    (hj : j < m.size + 1) : symmetric (m.push row) ridge i j =
      ∑ k ∈ range m.size, entryAt (l.push (forward l row)) i k * entryAt (l.push (forward l row)) j k +
        if i = m.size ∧ j = m.size then pivot l row ridge else 0 := by
  have hcross : ∀ j < m.size, ∑ k ∈ range m.size,
      entryAt (l.push (forward l row)) m.size k * entryAt (l.push (forward l row)) j k = row.entry j := by
    intro j hj
    rw [← forward_spec h.lower row (h.size ▸ hj), h.size]
    exact sum_congr rfl fun k _ => by rw [← h.size, entryAt_push_size, entryAt_push_lt (h.size ▸ hj), mul_comm]
  rcases Nat.lt_succ_iff_lt_or_eq.mp hi with hi | rfl <;> rcases Nat.lt_succ_iff_lt_or_eq.mp hj with hj | rfl
  · rw [if_neg fun h => hi.ne h.1, add_zero, symmetric_push_lt hi hj, ← h.product i hi j hj]
    exact sum_congr rfl fun k _ => by rw [entryAt_push_lt (h.size ▸ hi), entryAt_push_lt (h.size ▸ hj)]
  · rw [if_neg fun h => hi.ne h.1, add_zero, symmetric_comm, symmetric_push_size hi, ← hcross i hi]
    exact sum_congr rfl fun k _ => mul_comm _ _
  · rw [if_neg fun h => hj.ne h.2, add_zero, symmetric_push_size hj, ← hcross j hj]
  · have hsum : ∑ k ∈ range m.size, entryAt (l.push (forward l row)) m.size k * entryAt (l.push (forward l row)) m.size k =
        ∑ k ∈ range l.size, (forward l row).entry k * (forward l row).entry k := by
      rw [h.size]
      exact sum_congr rfl fun k _ => by rw [← h.size, entryAt_push_size]
    rw [if_pos ⟨rfl, rfl⟩, symmetric_push_self, hsum, pivot, h.size]
    ring

/-- One more row of the factor. -/
theorem Factors.push (h : Factors l m ridge) (hpivot : 0 < pivot l row ridge) :
    Factors (l.push ((forward l row).push (Real.sqrt (pivot l row ridge)))) (m.push row) ridge := by
  set root := Real.sqrt (pivot l row ridge) with hroot
  have hlast : entry ((forward l row).push root) l.size = root := by
    rw [← size_forward l row, entry_push_size]
  have hold : ∀ i < m.size + 1, ∀ k ∈ range m.size,
      entryAt (l.push ((forward l row).push root)) i k = entryAt (l.push (forward l row)) i k := by
    intro i hi k hk
    rcases Nat.lt_succ_iff_lt_or_eq.mp hi with hi | rfl
    · rw [entryAt_push_lt (h.size ▸ hi), entryAt_push_lt (h.size ▸ hi)]
    · rw [← h.size, entryAt_push_size, entryAt_push_size,
        entry_push_lt _ (by rw [size_forward, h.size]; exact mem_range.mp hk)]
  have hnew : ∀ i < m.size + 1, entryAt (l.push ((forward l row).push root)) i m.size = if i = m.size then root else 0 := by
    intro i hi
    rcases Nat.lt_succ_iff_lt_or_eq.mp hi with hi | rfl
    · rw [if_neg hi.ne, entryAt_push_lt (h.size ▸ hi), h.lower.entryAt_of_lt (h.size ▸ hi) hi]
    · rw [if_pos rfl, ← h.size, entryAt_push_size, hlast]
  refine ⟨by simp [h.size], lower_push.mpr ⟨h.lower, by simp, by rw [hlast]; exact Real.sqrt_pos.mpr hpivot⟩,
    fun i hi j hj => ?_⟩
  rw [Array.size_push] at hi hj ⊢
  rw [sum_range_succ, h.symmetric_push row hi hj, hnew i hi, hnew j hj]
  congr 1
  · exact sum_congr rfl fun k hk => by rw [hold i hi k hk, hold j hj k hk]
  · by_cases hij : i = m.size ∧ j = m.size
    · rw [if_pos hij.1, if_pos hij.2, if_pos hij, hroot, Real.mul_self_sqrt hpivot.le]
    · rw [if_neg hij]
      rcases not_and_or.mp hij with hne | hne
      · rw [if_neg hne, zero_mul]
      · rw [if_neg hne, mul_zero]

/-- A factor that is found factors the matrix. -/
theorem factors_of_factor {ridge : ℝ} {m l : Triangle ℝ} (h : factor? ridge m = some l) : Factors l m ridge := by
  induction m using array_push_induction generalizing l with
  | nil =>
    cases h
    exact ⟨rfl, lower_nil, fun i hi => (Nat.not_lt_zero i hi).elim⟩
  | push m row ih =>
    rw [factor_push] at h
    obtain ⟨above, habove, hrow⟩ := Option.bind_eq_some_iff.mp h
    rw [factorRow_eq] at hrow
    split at hrow
    next hpivot =>
      cases hrow
      exact (ih habove).push hpivot
    next => cases hrow

/-! ## Positive matrices have a factor -/

/-- Every vector that ends in a one is taken to a positive number. -/
def Positive (m : Triangle ℝ) (ridge : ℝ) : Prop := ∀ n < m.size, ∀ v : Nat → ℝ, v n = 1 →
  0 < ∑ i ∈ range (n + 1), ∑ j ∈ range (n + 1), v i * v j * symmetric m ridge i j

theorem Positive.of_push (h : Positive (m.push row) ridge) : Positive m ridge := by
  intro n hn v hv
  have hpos := h n (by simp; omega) v hv
  refine hpos.trans_eq (sum_congr rfl fun i hi => sum_congr rfl fun j hj => ?_)
  rw [mem_range] at hi hj
  rw [symmetric_push_lt (by omega) (by omega)]

/-- The vector that makes up for the row left of the diagonal is taken to the pivot. -/
theorem Factors.exists_form_eq_pivot (h : Factors l m ridge) (row : Pattern ℝ) : ∃ v : Nat → ℝ, v m.size = 1 ∧
    ∑ i ∈ range (m.size + 1), ∑ j ∈ range (m.size + 1), v i * v j * symmetric (m.push row) ridge i j = pivot l row ridge := by
  set n := m.size with hn
  have hl : l.size = n := h.size
  -- the unknowns that the transpose takes to the row left of the diagonal
  set z := (forward (turned l) (forward l row).reverse).reverse with hz
  let v : Nat → ℝ := fun i => if i = n then 1 else -entry z i
  have hvn : v n = 1 := if_pos rfl
  have hzero : ∀ k ∈ range n, ∑ i ∈ range (n + 1), v i * entryAt (l.push (forward l row)) i k = 0 := by
    intro k hk
    have hback := backward_spec h.lower (size_forward l row) (i := k) (by rw [hl]; exact mem_range.mp hk)
    rw [hl, ← hz] at hback
    rw [sum_range_succ, hvn, one_mul, ← hl, entryAt_push_size, hl, ← hback, ← sum_add_distrib]
    refine sum_eq_zero fun i hi => ?_
    rw [show v i = -entry z i from if_neg (mem_range.mp hi).ne, entryAt_push_lt (hl ▸ mem_range.mp hi)]
    ring
  refine ⟨v, hvn, ?_⟩
  calc ∑ i ∈ range (n + 1), ∑ j ∈ range (n + 1), v i * v j * symmetric (m.push row) ridge i j
      = ∑ i ∈ range (n + 1), ∑ j ∈ range (n + 1), (v i * v j * ∑ k ∈ range n,
          entryAt (l.push (forward l row)) i k * entryAt (l.push (forward l row)) j k +
          v i * v j * if i = n ∧ j = n then pivot l row ridge else 0) :=
        sum_congr rfl fun i hi => sum_congr rfl fun j hj => by
          rw [h.symmetric_push row (mem_range.mp hi) (mem_range.mp hj), mul_add]
    _ = ∑ k ∈ range n, (∑ i ∈ range (n + 1), v i * entryAt (l.push (forward l row)) i k) ^ 2 +
          ∑ i ∈ range (n + 1), ∑ j ∈ range (n + 1), v i * v j * if i = n ∧ j = n then pivot l row ridge else 0 := by
        simp only [sum_add_distrib]
        rw [sum_sum_mul_sum]
    _ = v n * v n * pivot l row ridge := by
        rw [sum_eq_zero fun k hk => by rw [hzero k hk]; ring, zero_add, sum_eq_single n, sum_eq_single n, if_pos ⟨rfl, rfl⟩]
        · intro j _ hj
          rw [if_neg fun h => hj h.2, mul_zero]
        · exact fun h => absurd (mem_range.mpr (Nat.lt_succ_self n)) h
        · intro i _ hi
          exact sum_eq_zero fun j _ => by rw [if_neg fun h => hi h.1, mul_zero]
        · exact fun h => absurd (mem_range.mpr (Nat.lt_succ_self n)) h
    _ = pivot l row ridge := by rw [hvn, one_mul, one_mul]

/-- A positive matrix has a factor. -/
theorem exists_factor {m : Triangle ℝ} {ridge : ℝ} (h : Positive m ridge) : ∃ l, factor? ridge m = some l := by
  induction m using array_push_induction with
  | nil => exact ⟨#[], rfl⟩
  | push m row ih =>
    obtain ⟨l, hl⟩ := ih h.of_push
    obtain ⟨v, hv, hform⟩ := (factors_of_factor hl).exists_form_eq_pivot row
    have hpivot : 0 < pivot l row ridge := hform ▸ h m.size (by simp) v hv
    refine ⟨l.push ((forward l row).push (Real.sqrt (pivot l row ridge))), ?_⟩
    rw [factor_push, hl, Option.bind_some, factorRow_eq, if_pos hpivot]
    rfl

/-! ## Solving -/

@[simp] theorem size_solve (l t : Triangle ℝ) (b : Pattern ℝ) : (solve l t b).size = t.size := by
  rw [solve, Array.size_reverse, size_forward]

/-- The factor solves the system of its matrix. -/
theorem Factors.solve_spec (h : Factors l m ridge) (b : Pattern ℝ) {i : Nat} (hi : i < m.size) :
    ∑ j ∈ range m.size, symmetric m ridge i j * (solve l (turned l) b).entry j = b.entry i := by
  set y := forward l b with hy
  have hback : ∀ k ∈ range m.size, ∑ j ∈ range m.size, entryAt l j k * (solve l (turned l) b).entry j = y.entry k := by
    intro k hk
    have hspec := backward_spec h.lower (b := y) (size_forward l b) (i := k) (by rw [h.size]; exact mem_range.mp hk)
    rw [h.size] at hspec
    exact hspec
  calc ∑ j ∈ range m.size, symmetric m ridge i j * (solve l (turned l) b).entry j
      = ∑ j ∈ range m.size, ∑ k ∈ range m.size, entryAt l i k * (entryAt l j k * (solve l (turned l) b).entry j) := by
        refine sum_congr rfl fun j hj => ?_
        rw [← h.product i hi j (mem_range.mp hj), sum_mul]
        exact sum_congr rfl fun k _ => by ring
    _ = ∑ k ∈ range m.size, entryAt l i k * y.entry k := by
        rw [sum_comm]
        exact sum_congr rfl fun k hk => by rw [← mul_sum, hback k hk]
    _ = b.entry i := by
        have hspec := forward_spec h.lower b (i := i) (by rw [h.size]; exact hi)
        rw [h.size] at hspec
        exact hspec

end Cholesky

end Engram
