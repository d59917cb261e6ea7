/-
  Engram.Proofs.Exact.Activator — the activator over the real numbers.

  With a pad between 0 and 1/2 the levels lie on both sides of the midpoint at the same distance,
  the `span`, and the inverse takes them to opposite values, plus and minus the `depth`. The two
  families of squashing functions differ in nothing else that the results on associations use: a
  unit squashed from x is on exactly when x is positive.
-/

import Mathlib.Analysis.SpecialFunctions.Artanh
import Mathlib.Analysis.SpecialFunctions.Trigonometric.DerivHyp
import Engram.Layer.Activator
import Engram.Proofs.Exact.Numbers

namespace Engram.Activator

/-- The pads that a valid configuration can have. -/
structure Proper (a : Activator ℝ) : Prop where
  pad_pos : 0 < a.pad
  pad_lt : a.pad < 1 / 2

/-- Half the distance between the levels. -/
noncomputable def span (a : Activator ℝ) : ℝ := (a.on - a.off) / 2

/-- The input that squashes to the `on` level. -/
noncomputable def depth (a : Activator ℝ) : ℝ := a.inverse a.on

/-- One for a unit that is on, minus one for one that is off. -/
def sign (bit : Bool) : ℝ := if bit then 1 else -1

@[simp] theorem sign_true : sign true = 1 := rfl

@[simp] theorem sign_false : sign false = -1 := rfl

theorem sign_mul_self (b : Bool) : sign b * sign b = 1 := by cases b <;> simp

theorem sign_not (b : Bool) : sign (!b) = -sign b := by cases b <;> simp

theorem abs_sign (b : Bool) : |sign b| = 1 := by cases b <;> simp

theorem proper_standard : (standard : Activator ℝ).Proper := by
  constructor
  · show (0 : ℝ) < 1 / ((1000 : Nat) : ℝ)
    norm_num
  · show (1 : ℝ) / ((1000 : Nat) : ℝ) < 1 / 2
    norm_num

variable {a : Activator ℝ}

theorem midpoint_tanh (h : a.kind = .tanh) : a.midpoint = 0 := by
  simp [midpoint, on, off, h]

theorem midpoint_logistic (h : a.kind = .logistic) : a.midpoint = 1 / 2 := by
  simp [midpoint, on, off, h]

theorem span_tanh (h : a.kind = .tanh) : a.span = 1 - a.pad := by
  simp only [span, on, off, h]; ring

theorem span_logistic (h : a.kind = .logistic) : a.span = 1 / 2 - a.pad := by
  simp only [span, on, off, h]; ring

/-- The levels lie at the span from the midpoint. -/
theorem level_eq (a : Activator ℝ) (b : Bool) : a.level b = a.midpoint + sign b * a.span := by
  cases b <;> simp [level, midpoint, span] <;> ring

namespace Proper

theorem span_pos (h : a.Proper) : 0 < a.span := by
  obtain ⟨h₀, h₁⟩ := h
  cases hk : a.kind with
  | tanh => rw [span_tanh hk]; linarith
  | logistic => rw [span_logistic hk]; linarith

theorem off_lt_on (h : a.Proper) : a.off < a.on := by
  have := h.span_pos
  unfold span at this
  linarith

theorem isOn_level (h : a.Proper) (b : Bool) : a.isOn (a.level b) = b := by
  have hs := h.span_pos
  have hl := a.level_eq b
  cases b with
  | true =>
    rw [isOn, Scalar.lt_eq_true, hl]
    simpa using hs
  | false =>
    rw [isOn, Scalar.lt_eq_false, hl]
    simpa using hs.le

/-- A pattern has the bits that it was made of. -/
theorem bits_pattern (h : a.Proper) (b : Bits) : a.bits (a.pattern b) = b := by
  simp only [bits, pattern, List.map_map]
  calc b.map (a.isOn ∘ a.level) = b.map id := List.map_congr_left fun c _ => h.isOn_level c
    _ = b := List.map_id b

/-- A unit squashed from `x` is on exactly when `x` is positive. -/
theorem isOn_squash (_ : a.Proper) (x : ℝ) : a.isOn (a.squash x) = true ↔ 0 < x := by
  rw [isOn, Scalar.lt_eq_true]
  cases hk : a.kind with
  | tanh =>
    simp only [midpoint_tanh hk, squash, hk]
    show 0 < Real.tanh x ↔ 0 < x
    rw [Real.tanh_eq_sinh_div_cosh, div_pos_iff_of_pos_right (Real.cosh_pos x), Real.sinh_pos_iff]
  | logistic =>
    simp only [midpoint_logistic hk, squash, hk]
    show 1 / 2 < 1 / (1 + Real.exp (-x)) ↔ 0 < x
    rw [one_div_lt_one_div (by norm_num) (by positivity)]
    constructor
    · intro h
      have : Real.exp (-x) < 1 := by linarith
      rw [Real.exp_lt_one_iff] at this
      linarith
    · intro h
      have : Real.exp (-x) < 1 := by rw [Real.exp_lt_one_iff]; linarith
      linarith

theorem isOn_squash_eq_false (h : a.Proper) (x : ℝ) : a.isOn (a.squash x) = false ↔ x ≤ 0 := by
  rw [← not_lt, ← h.isOn_squash x, Bool.not_eq_true]

/-- A unit driven by an input with the sign of a bit takes that bit. -/
theorem isOn_squash_of_sign (h : a.Proper) {b : Bool} {x : ℝ} (hx : 0 < sign b * x) :
    a.isOn (a.squash x) = b := by
  cases b with
  | true => rw [h.isOn_squash]; simpa using hx
  | false =>
    rw [h.isOn_squash_eq_false]
    have : 0 < -x := by simpa using hx
    linarith

theorem inverse_tanh (hk : a.kind = .tanh) {y : ℝ} (h₁ : a.off ≤ y) (h₂ : y ≤ a.on)
    (hy : y ∈ Set.Ioo (-1 : ℝ) 1) : a.inverse y = Real.artanh y := by
  rw [Real.artanh_eq_half_log (Set.Ioo_subset_Icc_self hy)]
  have h3 : 1 - y ≠ 0 := by have := hy.2; intro h; linarith
  simp only [inverse, hk, Scalar.clamp_of_mem h₁ h₂]
  show Real.log (1 + ((2 : Nat) : ℝ) * y / (1 - y)) / ((2 : Nat) : ℝ) = _
  have : 1 + ((2 : Nat) : ℝ) * y / (1 - y) = (1 + y) / (1 - y) := by
    field_simp
    push_cast
    ring
  rw [this]
  push_cast
  ring

theorem inverse_logistic (hk : a.kind = .logistic) {y : ℝ} (h₁ : a.off ≤ y) (h₂ : y ≤ a.on) :
    a.inverse y = Real.log (y / (1 - y)) := by
  simp only [inverse, hk, Scalar.clamp_of_mem h₁ h₂]
  rfl

theorem depth_pos (h : a.Proper) : 0 < a.depth := by
  obtain ⟨h₀, h₁⟩ := h
  have hoff : a.off ≤ a.on := (Proper.off_lt_on ⟨h₀, h₁⟩).le
  unfold depth
  cases hk : a.kind with
  | tanh =>
    have hon : a.on = 1 - a.pad := rfl
    have hm : a.on ∈ Set.Ioo (-1 : ℝ) 1 := by rw [hon]; constructor <;> linarith
    rw [inverse_tanh hk hoff le_rfl hm]
    exact Real.artanh_pos ⟨by rw [hon]; linarith, hm.2⟩
  | logistic =>
    have hon : a.on = 1 - a.pad := rfl
    rw [inverse_logistic hk hoff le_rfl, hon]
    apply Real.log_pos
    rw [lt_div_iff₀ (by linarith)]
    linarith

theorem inverse_off (h : a.Proper) : a.inverse a.off = -a.depth := by
  have hlt := h.off_lt_on.le
  obtain ⟨h₀, h₁⟩ := h
  unfold depth
  cases hk : a.kind with
  | tanh =>
    have hon : a.on = 1 - a.pad := rfl
    have hoff : a.off = -a.on := by simp [off, on, hk]
    have hm : a.on ∈ Set.Ioo (-1 : ℝ) 1 := by rw [hon]; constructor <;> linarith
    have hm' : a.off ∈ Set.Ioo (-1 : ℝ) 1 := by rw [hoff, hon]; constructor <;> linarith
    rw [inverse_tanh hk hlt le_rfl hm, inverse_tanh hk le_rfl hlt hm', hoff]
    rw [Real.artanh_eq_half_log (by rw [← hoff]; exact Set.Ioo_subset_Icc_self hm'),
      Real.artanh_eq_half_log (Set.Ioo_subset_Icc_self hm)]
    have : (1 + -a.on) / (1 - -a.on) = ((1 + a.on) / (1 - a.on))⁻¹ := by
      rw [inv_div]; ring
    rw [this, Real.log_inv]
    ring
  | logistic =>
    have hon : a.on = 1 - a.pad := rfl
    have hoff : a.off = a.pad := by simp [off, hk]
    rw [inverse_logistic hk hlt le_rfl, inverse_logistic hk le_rfl hlt, ← Real.log_inv, inv_div, hon, hoff]
    congr 2
    ring

/-- The inverse takes the levels to opposite values. -/
theorem inverse_level (h : a.Proper) (b : Bool) : a.inverse (a.level b) = sign b * a.depth := by
  cases b with
  | true => simp [level, depth]
  | false => simpa [level] using h.inverse_off

/-- The levels are what opposite values squash to. -/
theorem squash_level (h : a.Proper) (b : Bool) : a.squash (sign b * a.depth) = a.level b := by
  have hlt := h.off_lt_on.le
  obtain ⟨h₀, h₁⟩ := h
  have hon : a.on = 1 - a.pad := rfl
  unfold depth
  cases hk : a.kind with
  | tanh =>
    have hm : a.on ∈ Set.Ioo (-1 : ℝ) 1 := by rw [hon]; constructor <;> linarith
    rw [inverse_tanh hk hlt le_rfl hm]
    simp only [squash, hk]
    cases b with
    | true =>
      rw [sign_true, one_mul]
      exact Real.tanh_artanh hm
    | false =>
      rw [sign_false, neg_one_mul]
      show Real.tanh (-Real.artanh a.on) = a.off
      rw [Real.tanh_neg, Real.tanh_artanh hm]
      simp [off, on, hk]
  | logistic =>
    have hpos : 0 < 1 - a.on := by rw [hon]; linarith
    have hpos' : 0 < a.on := by rw [hon]; linarith
    rw [inverse_logistic hk hlt le_rfl]
    simp only [squash, hk]
    cases b with
    | true =>
      rw [sign_true, one_mul]
      show 1 / (1 + Real.exp (-Real.log (a.on / (1 - a.on)))) = a.on
      rw [Real.exp_neg, Real.exp_log (div_pos hpos' hpos)]
      field_simp
      ring
    | false =>
      rw [sign_false, neg_one_mul, neg_neg]
      show 1 / (1 + Real.exp (Real.log (a.on / (1 - a.on)))) = a.off
      have hoff : a.off = 1 - a.on := by simp [off, on, hk]
      rw [Real.exp_log (div_pos hpos' hpos), hoff]
      field_simp
      ring

theorem squash_le_squash (_ : a.Proper) (x y : ℝ) : a.squash x ≤ a.squash y ↔ x ≤ y := by
  cases hk : a.kind with
  | tanh =>
    simp only [squash, hk]
    show Real.tanh x ≤ Real.tanh y ↔ x ≤ y
    rw [← Real.artanh_le_artanh_iff ⟨Real.neg_one_lt_tanh x, Real.tanh_lt_one x⟩
      ⟨Real.neg_one_lt_tanh y, Real.tanh_lt_one y⟩, Real.artanh_tanh, Real.artanh_tanh]
  | logistic =>
    simp only [squash, hk]
    show 1 / (1 + Real.exp (-x)) ≤ 1 / (1 + Real.exp (-y)) ↔ x ≤ y
    rw [one_div_le_one_div (by positivity) (by positivity), add_le_add_iff_left, Real.exp_le_exp, neg_le_neg_iff]

/-- Up to the depth the inverse undoes squashing. -/
theorem inverse_squash (h : a.Proper) {x : ℝ} (hx : |x| ≤ a.depth) : a.inverse (a.squash x) = x := by
  obtain ⟨hlow, hhigh⟩ := abs_le.mp hx
  have hoff : a.off ≤ a.squash x := by
    rw [← neg_one_mul] at hlow
    exact (h.squash_level false).symm.le.trans ((h.squash_le_squash _ _).mpr hlow)
  have hon : a.squash x ≤ a.on := by
    rw [← one_mul a.depth] at hhigh
    exact ((h.squash_le_squash _ _).mpr hhigh).trans (h.squash_level true).le
  cases hk : a.kind with
  | tanh =>
    have hsquash : a.squash x = Real.tanh x := by simp only [squash, hk]; rfl
    rw [hsquash] at hoff hon ⊢
    rw [inverse_tanh hk hoff hon ⟨Real.neg_one_lt_tanh x, Real.tanh_lt_one x⟩, Real.artanh_tanh]
  | logistic =>
    have hsquash : a.squash x = 1 / (1 + Real.exp (-x)) := by simp only [squash, hk]; rfl
    have hpos := Real.exp_pos (-x)
    have hquotient : 1 / (1 + Real.exp (-x)) / (1 - 1 / (1 + Real.exp (-x))) = (Real.exp (-x))⁻¹ := by
      field_simp
      ring
    rw [hsquash] at hoff hon ⊢
    rw [inverse_logistic hk hoff hon, hquotient, Real.log_inv, Real.log_exp, neg_neg]

theorem squash_zero (_ : a.Proper) : a.squash 0 = a.midpoint := by
  cases hk : a.kind with
  | tanh =>
    rw [midpoint_tanh hk]
    simp only [squash, hk]
    exact Real.tanh_zero
  | logistic =>
    rw [midpoint_logistic hk]
    simp only [squash, hk]
    show 1 / (1 + Real.exp (-0)) = 1 / 2
    rw [neg_zero, Real.exp_zero]
    norm_num

theorem inverse_midpoint (h : a.Proper) : a.inverse a.midpoint = 0 := by
  rw [← h.squash_zero]
  exact h.inverse_squash (by rw [abs_zero]; exact h.depth_pos.le)

end Proper

end Engram.Activator
