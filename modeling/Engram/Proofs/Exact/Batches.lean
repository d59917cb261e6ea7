/-
  Engram.Proofs.Exact.Batches — what the two rules write for a batch of any size.

  The matrix of a batch is that of the overlaps of its inputs, so with a ridge it is positive and
  has a factor at the first attempt (`exists_factorWithin_gram`). Hence for each row of a
  connection, with `e` the residuals of the batch before the flash,

    hebbian     a drive grows by  Σ e_p ⟨x_p, ·⟩ / ⟨x_p, x_p⟩      (`out_hebbian`)
    rehebbian   it grows by  Σ z_p ⟨x_p, ·⟩,  and at the inputs of the batch it then misses
                what it should be by the ridge times z              (`exists_out_rehebbian`)

  A batch of one association has the residual over the overlap of the input with itself for its
  coefficient, by the second rule with the ridge added (`out_flash_single`).
-/

import Engram.Proofs.Exact.Flash
import Engram.Proofs.Exact.Cholesky

namespace Engram

open Finset Pattern

/-- The pattern in a column, with no units outside. -/
abbrev Columns.column {α : Type} (x : Columns α) (p : Nat) : Pattern α := x.patterns.getD p #[]

theorem Columns.column_mem {α : Type} {x : Columns α} {p : Nat} (h : p < x.count) : x.column p ∈ x.patterns := by
  rw [Columns.column, List.getD_eq_getElem _ _ h]
  exact List.getElem_mem h

theorem getD_of_lt {β : Type} {xs : Array β} {i : Nat} (h : i < xs.size) (d : β) : xs.getD i d = xs[i] := by
  rw [Array.getD_eq_getD_getElem?, Array.getElem?_eq_getElem h, Option.getD_some]

namespace Association

/-! ## The matrix of a batch -/

section Gram

variable {inputs : Array (Pattern ℝ)} {w : Nat}

@[simp] theorem size_gram (inputs : Array (Pattern ℝ)) : (gram inputs).size = inputs.size := by simp [gram]

theorem entryAt_gram {i j : Nat} (hi : i < inputs.size) (hj : j ≤ i) :
    Cholesky.entryAt (gram inputs) i j = (inputs.getD i #[]).dot (inputs.getD j #[]) := by
  have hj' : j < inputs.size := by omega
  have hlt : j < ((inputs.extract 0 (i + 1)).map inputs[i].dot).size := by
    rw [Array.size_map, Array.size_extract]
    omega
  have hrow : (gram inputs).getD i #[] = (inputs.extract 0 (i + 1)).map inputs[i].dot := by
    rw [getD_of_lt (by rw [size_gram]; exact hi)]
    simp only [gram, Array.getElem_mapIdx]
  rw [Cholesky.entryAt, hrow, entry_of_lt hlt, Array.getElem_map, Array.getElem_extract, getD_of_lt hi, getD_of_lt hj']
  simp only [Nat.zero_add]

theorem size_getD (hw : ∀ x ∈ inputs, x.size = w) {k : Nat} (hk : k < inputs.size) : (inputs.getD k #[]).size = w := by
  rw [getD_of_lt hk]
  exact hw _ (Array.getElem_mem hk)

theorem symmetric_gram (hw : ∀ x ∈ inputs, x.size = w) (ridge : ℝ) {i j : Nat} (hi : i < inputs.size)
    (hj : j < inputs.size) : Cholesky.symmetric (gram inputs) ridge i j =
      (inputs.getD i #[]).dot (inputs.getD j #[]) + if i = j then ridge else 0 := by
  unfold Cholesky.symmetric
  congr 1
  rcases le_total j i with h | h
  · rw [max_eq_left h, min_eq_right h, entryAt_gram hi h]
  · rw [max_eq_right h, min_eq_left h, entryAt_gram hj h, dot_comm (by rw [size_getD hw hj, size_getD hw hi])]

/-- A ridge makes the matrix of a batch positive: its form is a sum of squares with the ridge times the
square of the vector. -/
theorem positive_gram (hw : ∀ x ∈ inputs, x.size = w) {ridge : ℝ} (hridge : 0 < ridge) :
    Cholesky.Positive (gram inputs) ridge := by
  intro n hn v hv
  rw [size_gram] at hn
  let r : Nat → Nat → ℝ := fun i k => (inputs.getD i #[]).entry k
  have hterm : ∀ i ∈ range (n + 1), ∀ j ∈ range (n + 1), v i * v j * Cholesky.symmetric (gram inputs) ridge i j =
      v i * v j * ∑ k ∈ range w, r i k * r j k + if i = j then ridge * v i ^ 2 else 0 := by
    intro i hi j hj
    have hi : i < inputs.size := by rw [mem_range] at hi; omega
    have hj : j < inputs.size := by rw [mem_range] at hj; omega
    rw [symmetric_gram hw ridge hi hj, dot_eq (by rw [size_getD hw hi, size_getD hw hj]), size_getD hw hi, mul_add]
    congr 1
    by_cases h : i = j
    · rw [if_pos h, if_pos h, h]
      ring
    · rw [if_neg h, if_neg h, mul_zero]
  have hsquares : 0 ≤ ∑ k ∈ range w, (∑ i ∈ range (n + 1), v i * r i k) ^ 2 := sum_nonneg fun k _ => sq_nonneg _
  have hridges : ridge ≤ ∑ i ∈ range (n + 1), ridge * v i ^ 2 := by
    have hmem : n ∈ range (n + 1) := mem_range.mpr (Nat.lt_succ_self n)
    refine le_trans ?_ (single_le_sum (fun i _ => mul_nonneg hridge.le (sq_nonneg (v i))) hmem)
    rw [hv, one_pow, mul_one]
  calc (0 : ℝ) < ∑ k ∈ range w, (∑ i ∈ range (n + 1), v i * r i k) ^ 2 + ∑ i ∈ range (n + 1), ridge * v i ^ 2 := by
        linarith
    _ = _ := by
        rw [sum_congr rfl fun i hi => sum_congr rfl (hterm i hi), ← sum_sum_mul_sum]
        simp only [sum_add_distrib]
        congr 1
        exact sum_congr rfl fun i hi => by rw [sum_ite_eq, if_pos hi]

/-- The largest entry on the diagonal, if one is positive. -/
noncomputable def largest (matrix : Cholesky.Triangle ℝ) : ℝ :=
  (Array.range matrix.size).foldl (fun acc i => Scalar.larger acc (Cholesky.entryAt matrix i i)) 0

theorem firstRidge_eq (matrix : Cholesky.Triangle ℝ) :
    firstRidge matrix = max (largest matrix) Scalar.tiny * (1 / 10 ^ 10) := by
  unfold firstRidge largest
  simp only [Scalar.larger_eq_max]
  norm_num

theorem firstRidge_pos (matrix : Cholesky.Triangle ℝ) : 0 < firstRidge matrix := by
  rw [firstRidge_eq]
  exact mul_pos (lt_max_of_lt_right Scalar.tiny_pos) (by norm_num)

/-- Where all inputs overlap with themselves alike, the first ridge is a ten-billionth of that. -/
theorem firstRidge_of_diagonal {matrix : Cholesky.Triangle ℝ} {g : ℝ} (hne : 0 < matrix.size) (hg : 1 ≤ g)
    (h : ∀ i < matrix.size, Cholesky.entryAt matrix i i = g) : firstRidge matrix = g / 10 ^ 10 := by
  have hfold : ∀ n, 0 < n → n ≤ matrix.size →
      (Array.range n).foldl (fun acc i => Scalar.larger acc (Cholesky.entryAt matrix i i)) 0 = g := by
    intro n
    induction n with
    | zero => exact fun h => absurd h (Nat.lt_irrefl 0)
    | succ n ih =>
      intro _ hle
      rw [Array.range_succ, ← Array.push_eq_append, Array.foldl_push, h n (by omega), Scalar.larger_eq_max]
      rcases Nat.eq_zero_or_pos n with rfl | hn
      · exact max_eq_right (zero_le_one.trans hg)
      · rw [ih hn (by omega), max_self]
  rw [firstRidge_eq, largest, hfold matrix.size hne le_rfl, max_eq_left (Scalar.tiny_le_one.trans hg)]
  ring

/-- The matrix of a batch is factored at the first attempt. -/
theorem exists_factorWithin_gram (hw : ∀ x ∈ inputs, x.size = w) :
    ∃ l, factorWithin? (gram inputs) maxAttempts (firstRidge (gram inputs)) = some l ∧
      Cholesky.Factors l (gram inputs) (firstRidge (gram inputs)) := by
  obtain ⟨l, hl⟩ := Cholesky.exists_factor (positive_gram hw (firstRidge_pos (gram inputs)))
  refine ⟨l, ?_, Cholesky.factors_of_factor hl⟩
  rw [maxAttempts, factorWithin?, hl]

end Gram

/-! ## The residuals of a batch -/

/-- A batch with the dimensions of a connection. -/
structure Batch (c : Connection ℝ) (x y : Columns ℝ) : Prop where
  fits : c.Fits
  height : y.height = c.weights.height
  width : x.height = c.weights.width
  inputs : ∀ u ∈ x.patterns, u.size = c.weights.width
  count : x.count = y.count

/-- What row `i` should produce for column `p` and does not produce yet. -/
noncomputable def residual (c : Connection ℝ) (x y : Columns ℝ) (target : Activator ℝ) (i p : Nat) : ℝ :=
  target.inverse ((y.column p).entry i) - c.out i (x.column p)

/-- The residuals as the rules find them, a row for each row of the weights. -/
noncomputable def residuals (c : Connection ℝ) (x y : Columns ℝ) (source target : Activator ℝ) : Array (Pattern ℝ) :=
  (c.weights.rows.mapIdx fun i row => extendRow source.midpoint row (c.bias.entry i)).zipWith
    (fun row goals => goals.zipWith (fun goal input => target.inverse goal - row.dot input)
      (x.patterns.map (extend source.midpoint)).toArray)
    (Matrix.transpose y.height y.patterns.toArray)

variable {rule : Rule} {c : Connection ℝ} {x y : Columns ℝ} {source target : Activator ℝ}

/-- The inputs that a batch is written with. -/
noncomputable def extended (x : Columns ℝ) (source : Activator ℝ) : Array (Pattern ℝ) :=
  (x.patterns.map (extend source.midpoint)).toArray

theorem solution_eq (rule : Rule) (c : Connection ℝ) (x y : Columns ℝ) (source target : Activator ℝ) :
    solution rule c x y source target = (coefficients rule (extended x source) (residuals c x y source target)).1 := rfl

@[simp] theorem size_extended (x : Columns ℝ) (source : Activator ℝ) : (extended x source).size = x.count := by
  simp [extended, Columns.count]

theorem getD_extended {p : Nat} (hp : p < x.count) :
    (extended x source).getD p #[] = extend source.midpoint (x.column p) := by
  have hp : p < x.patterns.length := hp
  simp [extended, Array.getD_eq_getD_getElem?, List.getD_eq_getElem?_getD, hp]

namespace Batch

theorem fits_eq (h : Batch c x y) : Association.fits c x y = true := by
  have hbias : c.bias.size = c.weights.height := h.fits
  simp only [Association.fits, Bool.and_eq_true, beq_iff_eq]
  exact ⟨⟨⟨h.height.symm, h.width.symm⟩, hbias.trans h.height.symm⟩, h.count⟩

/-- A batch that fits is flashed if the levels of the target are in order. -/
theorem flash?_eq (h : Batch c x y) (hordered : target.ordered = true) :
    flash? rule c x y source target = .ok (flash rule c x y source target) := by
  rw [flash?, h.fits_eq, if_neg (by simp), if_pos (.inr (.inr hordered))]

theorem size_extended (h : Batch c x y) : ∀ u ∈ extended x source, u.size = c.weights.width + 1 := by
  intro u hu
  obtain ⟨v, hv, rfl⟩ := List.mem_map.mp (List.mem_toArray.mp hu)
  rw [size_extend, h.inputs v hv]

theorem size_column (h : Batch c x y) {p : Nat} (hp : p < x.count) : (x.column p).size = c.weights.width :=
  h.inputs _ (Columns.column_mem hp)

/-- The overlaps of a batch are the products of its extended inputs. -/
theorem dot_extended {p q : Nat} (hp : p < x.count) (hq : q < x.count) :
    ((extended x source).getD p #[]).dot ((extended x source).getD q #[]) =
      overlap source.midpoint (x.column p) (x.column q) := by
  rw [getD_extended hp, getD_extended hq, overlap]

theorem size_residuals (h : Batch c x y) : (residuals c x y source target).size = c.weights.height := by
  simp [residuals, Matrix.transpose, h.height]

theorem getD_residuals (h : Batch c x y) {i : Nat} (hi : i < c.weights.height) :
    (residuals c x y source target).getD i #[] =
      Array.ofFn fun p : Fin x.count => residual c x y target i p := by
  have hlt : i < (residuals c x y source target).size := by rw [h.size_residuals]; exact hi
  rw [Array.getD, dif_pos hlt]
  apply Array.ext
  · have hcount : x.patterns.length = y.patterns.length := h.count
    simp [residuals, Matrix.transpose, Columns.count, hcount]
  · intro p h₁ h₂
    have hp : p < x.patterns.length := by simpa [Columns.count] using h₂
    have hp' : p < y.patterns.length := hp.trans_eq h.count
    have hrow : (extendRow source.midpoint (c.weights.row i) (c.bias.entry i)).dot
        (extend source.midpoint (x.patterns[p])) = c.out i x.patterns[p] := by
      have hx : x.patterns[p].size = c.weights.width := h.inputs _ (List.getElem_mem hp)
      rw [dot_extendRow (by rw [Matrix.size_row hi, hx]), Matrix.size_row hi, Connection.out]
      congr 1
      exact sum_congr rfl fun j hj => by rw [Matrix.entry_row hi (mem_range.mp hj)]
    simp [residuals, residual, Matrix.transpose, Matrix.rows, List.getD_eq_getElem?_getD, hp, hp', hrow]

/-- What the rules make of the residuals, row by row. -/
theorem getD_map_residuals (h : Batch c x y) (f : Pattern ℝ → Pattern ℝ) {i : Nat} (hi : i < c.weights.height) :
    ((residuals c x y source target).map f).getD i #[] = f (Array.ofFn fun p : Fin x.count => residual c x y target i p) := by
  have hlt : i < (residuals c x y source target).size := by rw [h.size_residuals]; exact hi
  rw [getD_of_lt (by rw [Array.size_map]; exact hlt), Array.getElem_map, ← getD_of_lt hlt #[], h.getD_residuals hi]

/-! ## The laws of the rules -/

/-- Each input is written with its residual over its overlap with itself. -/
theorem out_hebbian (h : Batch c x y) (hne : x.patterns ≠ []) {i : Nat} (hi : i < c.weights.height) {u : Pattern ℝ}
    (hu : u.size = c.weights.width) : (flash .hebbian c x y source target).connection.out i u = c.out i u +
      ∑ p ∈ range x.count, residual c x y target i p / overlap source.midpoint (x.column p) (x.column p) *
        overlap source.midpoint (x.column p) u := by
  have hrow : ∀ k (hk : k < c.weights.height), (solution .hebbian c x y source target).getD k #[] =
      Array.ofFn fun p : Fin x.count =>
        residual c x y target k p / overlap source.midpoint (x.column p) (x.column p) := by
    intro k hk
    rw [solution_eq, coefficients, h.getD_map_residuals _ hk]
    apply ext_entry
    · simp
    · intro p hp
      have hp : p < x.count := by simpa using hp
      have hself : ((extended x source).getD p #[]).dot ((extended x source).getD p #[]) =
          overlap source.midpoint (x.column p) (x.column p) := dot_extended hp hp
      rw [getD_of_lt (by simpa using hp)] at hself
      rw [entry_zipWith _ (by simpa using hp) (by simpa using hp), entry_ofFn _ hp, entry_ofFn _ hp,
        entry_of_lt (by simpa using hp), Array.getElem_map, hself]
  rw [out_flash hne h.height h.inputs ?_ hi hu, hrow i hi]
  · congr 1
    exact sum_congr rfl fun p hp => by rw [entry_ofFn _ (mem_range.mp hp)]
  · intro z hz
    obtain ⟨k, hk, rfl⟩ := Array.getElem_of_mem hz
    have hk' : k < c.weights.height := by rw [size_solution h.height] at hk; exact hk
    rw [← getD_of_lt hk #[], hrow k hk', Array.size_ofFn]

/-- The coefficients of the second rule leave of each residual the ridge times themselves. -/
theorem exists_out_rehebbian (h : Batch c x y) (hne : x.patterns ≠ []) : ∃ z : Nat → Nat → ℝ,
    ∀ i < c.weights.height,
      (∀ u : Pattern ℝ, u.size = c.weights.width → (flash .rehebbian c x y source target).connection.out i u =
        c.out i u + ∑ p ∈ range x.count, z i p * overlap source.midpoint (x.column p) u) ∧
      ∀ q < x.count, (flash .rehebbian c x y source target).connection.out i (x.column q) =
        target.inverse ((y.column q).entry i) - firstRidge (gram (extended x source)) * z i q := by
  set inputs := extended x source with hinputs
  have hinsize : ∀ u ∈ inputs, u.size = c.weights.width + 1 := h.size_extended
  obtain ⟨l, hl, hfactors⟩ := exists_factorWithin_gram hinsize
  set ridge := firstRidge (gram inputs) with hridge
  have hsize : (gram inputs).size = x.count := by rw [size_gram, hinputs, Association.size_extended]
  have hsolution : solution .rehebbian c x y source target =
      (residuals c x y source target).map (Cholesky.solve l (Cholesky.turned l)) := by
    rw [solution_eq, coefficients, ← hinputs, ← hridge, hl]
  have hrow : ∀ k (hk : k < c.weights.height), (solution .rehebbian c x y source target).getD k #[] =
      Cholesky.solve l (Cholesky.turned l) (Array.ofFn fun p : Fin x.count => residual c x y target k p) := by
    intro k hk
    rw [hsolution, h.getD_map_residuals _ hk]
  refine ⟨fun i p => ((solution .rehebbian c x y source target).getD i #[]).entry p, fun i hi => ?_⟩
  have hout : ∀ u : Pattern ℝ, u.size = c.weights.width → (flash .rehebbian c x y source target).connection.out i u =
      c.out i u + ∑ p ∈ range x.count, ((solution .rehebbian c x y source target).getD i #[]).entry p *
        overlap source.midpoint (x.column p) u := by
    intro u hu
    refine out_flash hne h.height h.inputs ?_ hi hu
    intro z hz
    rw [hsolution] at hz
    obtain ⟨e, -, rfl⟩ := Array.mem_map.mp hz
    rw [Cholesky.size_solve, Cholesky.size_turned, hfactors.size, hsize]
  refine ⟨hout, fun q hq => ?_⟩
  rw [hout _ (h.size_column hq)]
  set z := (solution .rehebbian c x y source target).getD i #[] with hz
  have hspec := hfactors.solve_spec (Array.ofFn fun p : Fin x.count => residual c x y target i p) (i := q)
    (by rw [hsize]; exact hq)
  rw [← hrow i hi, ← hz, hsize, entry_ofFn _ hq] at hspec
  have hterm : ∀ p ∈ range x.count, Cholesky.symmetric (gram inputs) ridge q p * z.entry p =
      z.entry p * overlap source.midpoint (x.column p) (x.column q) + if q = p then ridge * z.entry p else 0 := by
    intro p hp
    have hp := mem_range.mp hp
    rw [symmetric_gram hinsize ridge (by rw [Association.size_extended]; exact hq)
      (by rw [Association.size_extended]; exact hp), dot_extended hq hp,
      overlap_comm (by rw [h.size_column hp, h.size_column hq]), add_mul]
    congr 1
    · ring
    · by_cases hqp : q = p
      · rw [if_pos hqp, if_pos hqp]
      · rw [if_neg hqp, if_neg hqp, zero_mul]
  rw [sum_congr rfl hterm, sum_add_distrib, sum_ite_eq, if_pos (mem_range.mpr hq)] at hspec
  simp only [residual] at hspec
  linarith

end Batch

end Association

/-! ## One association -/

/-- The share of its residual that a flash of one association writes: all of it, or what the
ridge leaves. -/
noncomputable def Rule.share : Rule → ℝ
  | .hebbian => 1
  | .rehebbian => 1 / (1 + 1 / 10 ^ 10)

namespace Association

variable {c : Connection ℝ}

theorem Batch.single (hfits : c.Fits) {u v : Pattern ℝ} (hu : u.size = c.weights.width) (hv : v.size = c.weights.height) :
    Batch c (.single u) (.single v) :=
  ⟨hfits, hv, hu, fun _ hmem => (List.mem_singleton.mp hmem) ▸ hu, rfl⟩

/-- What a row produces after a flash of one association. -/
theorem out_flash_single (rule : Rule) {u v w : Pattern ℝ} (source target : Activator ℝ) (hfits : c.Fits)
    (hu : u.size = c.weights.width) (hv : v.size = c.weights.height) (hw : w.size = c.weights.width) {i : Nat}
    (hi : i < c.weights.height) :
    (flash rule c (.single u) (.single v) source target).connection.out i w = c.out i w +
      rule.share * (target.inverse (v.entry i) - c.out i u) / overlap source.midpoint u u *
        overlap source.midpoint u w := by
  have hbatch := Batch.single hfits hu hv
  have hne : (Columns.single u).patterns ≠ [] := List.cons_ne_nil _ _
  have hcount : (Columns.single u).count = 1 := rfl
  set g := overlap source.midpoint u u with hg
  have hone : 1 ≤ g := one_le_overlap_self u
  cases rule with
  | hebbian =>
    rw [hbatch.out_hebbian hne hi hw, hcount, sum_range_one, Rule.share, one_mul]
    rfl
  | rehebbian =>
    obtain ⟨z, hz⟩ := @Batch.exists_out_rehebbian c _ _ source target hbatch hne
    obtain ⟨hout, hinput⟩ := hz i hi
    have hridge : firstRidge (gram (extended (.single u) source)) = g / 10 ^ 10 := by
      refine firstRidge_of_diagonal (by simp [hcount]) hone fun k hk => ?_
      obtain rfl : k = 0 := by simpa [hcount] using hk
      rw [entryAt_gram (by simp [hcount]) le_rfl, Batch.dot_extended (by simp [hcount]) (by simp [hcount])]
      rfl
    -- of what it should write to its own input the coefficient leaves the ridge
    have hcoefficient : c.out i u + z i 0 * g = target.inverse (v.entry i) - g / 10 ^ 10 * z i 0 := by
      have hself := hout u hu
      rw [hcount, sum_range_one] at hself
      rw [← hridge]
      exact hself.symm.trans (hinput 0 Nat.one_pos)
    have hz : z i 0 = Rule.rehebbian.share * (target.inverse (v.entry i) - c.out i u) / g := by
      have hpos : g ≠ 0 := by linarith
      rw [Rule.share, eq_div_iff hpos, div_mul_eq_mul_div, one_mul, eq_div_iff (by norm_num)]
      linear_combination hcoefficient
    rw [hout w hw, hcount, sum_range_one, hz]
    rfl

end Association

end Engram
