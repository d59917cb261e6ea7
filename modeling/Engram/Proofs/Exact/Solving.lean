/-
  Engram.Proofs.Exact.Solving — what a factor is of a matrix, and which systems it solves.

  The triangles of the factorization stand for matrices: that of a symmetric matrix `G` holds its
  entries on and below the diagonal, and a factor `L` has zeros above it. So a factor says
  `L Lᵀ = G + ridge`, and substitution solves every system of this matrix, with any number of right
  sides. Since there is a solution for all of them the matrix is invertible, and no other matrix is a
  solution.

  The matrix of a batch is `Uᵀ U` for the matrix `U` with its inputs as columns. It has a factor for
  every ridge, so the first attempt is the one that counts (`factor_solves`).
-/

import Engram.Proofs.Exact.Batches
import Mathlib.LinearAlgebra.Matrix.NonsingularInverse
import Mathlib.LinearAlgebra.Matrix.Symmetric

open scoped Matrix

/-- A matrix of real numbers. -/
abbrev RealMatrix (m n : Nat) : Type := Matrix (Fin m) (Fin n) ℝ

namespace Engram

open Finset Pattern

namespace Cholesky

variable {m n k : Nat} {G : RealMatrix n n} {l : Triangle ℝ} {ridge : ℝ}

/-! ## Triangles as matrices -/

/-- The entries of a matrix on and below its diagonal. -/
def ofMatrix (G : RealMatrix n n) : Triangle ℝ :=
  Array.ofFn fun i : Fin n => Array.ofFn fun j : Fin (i + 1) => G i ⟨j, by omega⟩

/-- The matrix with the entries of a triangle, and zeros elsewhere. -/
noncomputable def toMatrix (n : Nat) (l : Triangle ℝ) : RealMatrix n n := Matrix.of fun i j => entryAt l i j

@[simp] theorem size_ofMatrix (G : RealMatrix n n) : (ofMatrix G).size = n := by simp [ofMatrix]

@[simp] theorem toMatrix_apply (l : Triangle ℝ) (i j : Fin n) : toMatrix n l i j = entryAt l i j := rfl

theorem entryAt_ofMatrix (G : RealMatrix n n) {i j : Fin n} (h : j ≤ i) : entryAt (ofMatrix G) i j = G i j := by
  have hj : (j : Nat) < i + 1 := Nat.lt_succ_of_le h
  have hrow : (ofMatrix G).getD i #[] = Array.ofFn fun j : Fin (i + 1) => G i ⟨j, by omega⟩ := by
    simp [ofMatrix, Array.getD]
  rw [entryAt, hrow, entry_ofFn _ hj]

theorem symmetric_ofMatrix (hG : G.IsSymm) (ridge : ℝ) (i j : Fin n) :
    symmetric (ofMatrix G) ridge i j = (G + ridge • (1 : RealMatrix n n)) i j := by
  have hentry : entryAt (ofMatrix G) (max (i : Nat) j) (min (i : Nat) j) = G i j := by
    rcases le_total j i with h | h
    · rw [max_eq_left (Fin.le_def.mp h), min_eq_right (Fin.le_def.mp h), entryAt_ofMatrix G h]
    · rw [max_eq_right (Fin.le_def.mp h), min_eq_left (Fin.le_def.mp h), entryAt_ofMatrix G h, hG.apply]
  rw [symmetric, hentry, Matrix.add_apply, Matrix.smul_apply, Matrix.one_apply]
  simp [Fin.ext_iff]

/-- A lower triangle holds nothing but the entries of its matrix. -/
theorem Lower.ofMatrix_toMatrix (h : Lower l) (hsize : l.size = n) : ofMatrix (toMatrix n l) = l := by
  apply Array.ext
  · rw [size_ofMatrix, hsize]
  · intro i hi hl
    have hi : i < n := by simpa using hi
    have hrow : l[i].size = i + 1 := by
      rw [← h.size i hl, getD_of_lt hl]
    apply ext_entry
    · simp [ofMatrix, hrow]
    · intro j hj
      have hj : j < i + 1 := by simpa [ofMatrix] using hj
      have hentry := entryAt_ofMatrix (toMatrix n l) (i := ⟨i, hi⟩) (j := ⟨j, by omega⟩) (Nat.le_of_lt_succ hj)
      rw [entryAt, getD_of_lt (by simpa using hi)] at hentry
      rw [hentry, toMatrix_apply, entryAt, getD_of_lt hl]

/-! ## The factor -/

namespace Factors

variable (hG : G.IsSymm) (h : Factors l (ofMatrix G) ridge)

include h

theorem size_eq : l.size = n := by rw [h.size, size_ofMatrix]

theorem toMatrix_of_lt {i j : Fin n} (hij : i < j) : toMatrix n l i j = 0 :=
  h.lower.entryAt_of_lt (by rw [h.size_eq]; exact i.isLt) hij

theorem toMatrix_diagonal_pos (i : Fin n) : 0 < toMatrix n l i i :=
  h.lower.diagonal i (by rw [h.size_eq]; exact i.isLt)

include hG

theorem mul_transpose : toMatrix n l * (toMatrix n l)ᵀ = G + ridge • (1 : RealMatrix n n) := by
  ext i j
  have hproduct := h.product i (by simp) j (by simp)
  rw [size_ofMatrix, symmetric_ofMatrix hG] at hproduct
  rw [Matrix.mul_apply, ← hproduct, ← Fin.sum_univ_eq_sum_range fun k => entryAt l i k * entryAt l j k]
  rfl

end Factors

/-! ## Systems of equations -/

/-- What the factor gives for a matrix of right sides, column by column. -/
noncomputable def solveAll (l : Triangle ℝ) (B : RealMatrix n k) : RealMatrix n k :=
  Matrix.of fun i p => (solve l (turned l) (Array.ofFn fun q => B q p)).entry i

namespace Factors

variable (hG : G.IsSymm) (h : Factors l (ofMatrix G) ridge)

include hG h

theorem mul_solveAll (B : RealMatrix n k) : (G + ridge • (1 : RealMatrix n n)) * solveAll l B = B := by
  ext i p
  have hspec := h.solve_spec (Array.ofFn fun q => B q p) (i := i) (by simp)
  rw [entry_ofFn _ i.isLt, size_ofMatrix] at hspec
  rw [Matrix.mul_apply, ← hspec, ← Fin.sum_univ_eq_sum_range fun j =>
    symmetric (ofMatrix G) ridge i j * (solve l (turned l) (Array.ofFn fun q => B q p)).entry j]
  exact sum_congr rfl fun j _ => by rw [symmetric_ofMatrix hG]; rfl

/-- No other matrix is a solution: the one for the unit vectors is an inverse. -/
theorem mul_eq_iff (B Z : RealMatrix n k) : (G + ridge • (1 : RealMatrix n n)) * Z = B ↔ Z = solveAll l B := by
  have hinverse : solveAll l (1 : RealMatrix n n) * (G + ridge • (1 : RealMatrix n n)) = 1 :=
    mul_eq_one_comm.mp (h.mul_solveAll hG 1)
  constructor
  · intro hZ
    calc Z = solveAll l (1 : RealMatrix n n) * ((G + ridge • (1 : RealMatrix n n)) * Z) := by
          rw [← Matrix.mul_assoc, hinverse, Matrix.one_mul]
      _ = solveAll l (1 : RealMatrix n n) * ((G + ridge • (1 : RealMatrix n n)) * solveAll l B) := by
          rw [hZ, h.mul_solveAll hG B]
      _ = solveAll l B := by rw [← Matrix.mul_assoc, hinverse, Matrix.one_mul]
  · intro hZ
    rw [hZ, h.mul_solveAll hG B]

end Factors

end Cholesky

/-! ## The matrix of a batch -/

namespace Association

open Cholesky

variable {m n : Nat}

/-- The columns of a matrix, as the inputs of a batch. -/
def columnsOf (U : RealMatrix m n) : Array (Pattern ℝ) := Array.ofFn fun p => Array.ofFn fun i => U i p

theorem size_of_mem_columnsOf {U : RealMatrix m n} {x : Pattern ℝ} (h : x ∈ columnsOf U) : x.size = m := by
  obtain ⟨p, rfl⟩ := Array.mem_ofFn.mp h
  simp

theorem dot_columnsOf (U : RealMatrix m n) (p q : Fin n) :
    ((columnsOf U).getD p #[]).dot ((columnsOf U).getD q #[]) = (Uᵀ * U) p q := by
  have hcolumn (p : Fin n) : (columnsOf U).getD p #[] = Array.ofFn fun i => U i p := by simp [columnsOf, Array.getD]
  rw [hcolumn, hcolumn, dot_eq (by simp), Array.size_ofFn, Matrix.mul_apply]
  rw [← Fin.sum_univ_eq_sum_range fun i => entry (Array.ofFn fun i => U i p) i * entry (Array.ofFn fun i => U i q) i]
  exact sum_congr rfl fun i _ => by rw [entry_ofFn _ i.isLt, entry_ofFn _ i.isLt]; rfl

theorem gram_columnsOf (U : RealMatrix m n) : gram (columnsOf U) = ofMatrix (Uᵀ * U) := by
  have hsize : (columnsOf U).size = n := by simp [columnsOf]
  apply Array.ext
  · simp [hsize]
  · intro i hi _
    have hi : i < n := by simpa [hsize] using hi
    apply ext_entry
    · simp [gram, ofMatrix, hsize]
      omega
    · intro j hj
      have hj : j < i + 1 := by
        simp [gram, hsize] at hj
        omega
      have hgram : entryAt (gram (columnsOf U)) i j = ((columnsOf U).getD i #[]).dot ((columnsOf U).getD j #[]) :=
        entryAt_gram (by omega) (by omega)
      rw [entryAt, getD_of_lt (by simpa [hsize] using hi)] at hgram
      have hentry := entryAt_ofMatrix (Uᵀ * U) (i := ⟨i, hi⟩) (j := ⟨j, by omega⟩) (Fin.le_def.mpr (by simp; omega))
      rw [entryAt, getD_of_lt (by simpa using hi)] at hentry
      rw [hgram, hentry, ← dot_columnsOf]

/-- Solving column by column solves for all columns. -/
theorem map_solve_columnsOf {l : Triangle ℝ} (hl : l.size = n) {k : Nat} (B : RealMatrix n k) :
    (columnsOf B).map (solve l (turned l)) = columnsOf (solveAll l B) := by
  apply Array.ext
  · simp [columnsOf]
  · intro p hp _
    have hp : p < k := by simpa [columnsOf] using hp
    apply ext_entry
    · simp [columnsOf, hl]
    · intro i hi
      have hi : i < n := by simpa [hl] using hi
      simp only [columnsOf, Array.getElem_map, Array.getElem_ofFn, entry_ofFn _ hi]
      rfl

/-- A factor of a symmetric matrix with a ridge is lower triangular with a positive diagonal, its product
with its transpose is that matrix, and for any number of right sides substitution gives the one solution.
The matrix of a batch has a factor for every ridge. So its first factorization succeeds, and the coefficients
of the batch solve the system with the first ridge. -/
theorem factor_solves (n : Nat) :
    (∀ (G : RealMatrix n n) (ridge : ℝ) (l : Triangle ℝ), G.IsSymm → factor? ridge (ofMatrix G) = some l →
      (∃ L : RealMatrix n n, l = ofMatrix L ∧ (∀ i j, i < j → L i j = 0) ∧ (∀ i, 0 < L i i) ∧
        L * Lᵀ = G + ridge • (1 : RealMatrix n n)) ∧
      ∀ (k : Nat) (B Z : RealMatrix n k), (G + ridge • (1 : RealMatrix n n)) * Z = B ↔ Z = solveAll l B) ∧
    ∀ (m : Nat) (U : RealMatrix m n), (∀ ridge > 0, ∃ l, factor? ridge (ofMatrix (Uᵀ * U)) = some l) ∧
      ∃ l, factor? (firstRidge (ofMatrix (Uᵀ * U))) (ofMatrix (Uᵀ * U)) = some l ∧
        ∀ (k : Nat) (B : RealMatrix n k),
          coefficients .rehebbian (columnsOf U) (columnsOf B) = (columnsOf (solveAll l B), true) := by
  constructor
  · intro G ridge l hG hl
    have h := factors_of_factor hl
    refine ⟨⟨toMatrix n l, ?_, fun i j hij => h.toMatrix_of_lt hij, h.toMatrix_diagonal_pos, h.mul_transpose hG⟩, ?_⟩
    · exact (h.lower.ofMatrix_toMatrix h.size_eq).symm
    · intro k B Z
      exact h.mul_eq_iff hG B Z
  · intro m U
    have hfactor (ridge : ℝ) (hridge : 0 < ridge) : ∃ l, factor? ridge (ofMatrix (Uᵀ * U)) = some l := by
      rw [← gram_columnsOf]
      exact exists_factor (positive_gram (fun _ hx => size_of_mem_columnsOf hx) hridge)
    refine ⟨hfactor, ?_⟩
    obtain ⟨l, hl⟩ := hfactor (firstRidge (ofMatrix (Uᵀ * U))) (firstRidge_pos _)
    refine ⟨l, hl, fun k B => ?_⟩
    have hattempts : factorWithin? (ofMatrix (Uᵀ * U)) maxAttempts (firstRidge (ofMatrix (Uᵀ * U))) = some l := by
      rw [maxAttempts, factorWithin?, hl]
    simp only [coefficients, gram_columnsOf, hattempts]
    rw [map_solve_columnsOf (factors_of_factor hl).size_eq]

/-- A batch of one input twice. -/
def repeatedInput : RealMatrix 1 2 := !![1, 1]

/-- Its matrix is not invertible; with a ridge it has a factor, which solves its systems. -/
theorem factor_solves_repeated : ∃ l, factor? 1 (ofMatrix (repeatedInputᵀ * repeatedInput)) = some l ∧
    ∀ (k : Nat) (B Z : RealMatrix 2 k),
      (repeatedInputᵀ * repeatedInput + (1 : ℝ) • (1 : RealMatrix 2 2)) * Z = B ↔ Z = solveAll l B := by
  obtain ⟨hsolves, hbatch⟩ := factor_solves 2
  obtain ⟨l, hl⟩ := (hbatch 1 repeatedInput).1 1 one_pos
  have hsymm : (repeatedInputᵀ * repeatedInput).IsSymm := by
    rw [Matrix.IsSymm, Matrix.transpose_mul, Matrix.transpose_transpose]
  exact ⟨l, hl, (hsolves _ 1 l hsymm hl).2⟩

end Association

end Engram
