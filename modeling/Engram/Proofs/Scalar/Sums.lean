/-
  Engram.Proofs.Scalar.Sums — numbers that add up exactly.

  Doubles are rounded, and the sum of a row depends on where it is cut. Over numbers with the laws
  of addition it does not (`sumBelow_add`). Real numbers have these laws, and so do the numbers in
  millionths, whose products are rounded but whose sums are not.
-/

import Engram.Proofs.Exact.Activator
import Engram.Proofs.Data.Store
import Engram.Proofs.Scalar.Fixed

namespace Engram

/-- Numbers whose sums are exact, and in which the two levels of a valid configuration are told
apart. -/
class ExactSums (α : Type) [Scalar α] : Prop where
  add_comm (a b : α) : a + b = b + a
  add_assoc (a b c : α) : a + b + c = a + (b + c)
  add_zero (a : α) : a + 0 = a
  mul_zero (a : α) : a * 0 = 0
  on_isOn {c : Config α} (h : c.validate = .ok ()) : c.activator.isOn c.activator.on = true
  off_isOff {c : Config α} (h : c.validate = .ok ()) : c.activator.isOn c.activator.off = false

noncomputable instance : ExactSums ℝ where
  add_comm := add_comm
  add_assoc := add_assoc
  add_zero := add_zero
  mul_zero := mul_zero
  on_isOn h := (Config.sized_of_validate h).proper.isOn_level true
  off_isOff h := (Config.sized_of_validate h).proper.isOn_level false

theorem Fixed.positive_iff (i : Int) : Fixed.positive i = true ↔ 0 < i := by
  cases i with
  | ofNat n =>
    cases n with
    | zero => decide
    | succ n => exact iff_of_true rfl (Int.natCast_succ_pos n)
  | negSucc n => exact iff_of_false Bool.false_ne_true (Int.not_lt.mpr (Int.negSucc_lt_zero n).le)

namespace Fixed

theorem pad_of_validate {c : Config Fixed} (h : c.validate = .ok ()) : 0 < c.pad.millionths ∧ c.pad.millionths < 500000 := by
  have hfault := Config.fault?_eq_none h
  unfold Config.fault? at hfault
  split at hfault
  · cases hfault
  split at hfault
  · cases hfault
  split at hfault
  · cases hfault
  split at hfault
  · cases hfault
  split at hfault
  · cases hfault
  next hpad =>
  simp only [Bool.not_eq_true', Bool.and_eq_false_iff, not_or, Bool.not_eq_false] at hpad
  have h₀ : Fixed.positive (c.pad.millionths - 0) = true := hpad.1
  have h₁ : Fixed.positive (500000 - c.pad.millionths) = true := hpad.2
  rw [positive_iff] at h₀ h₁
  omega

/-- The levels lie on both sides of the midpoint. -/
theorem isOn_level {c : Config Fixed} (h : c.validate = .ok ()) (b : Bool) :
    c.activator.isOn (c.activator.level b) = b := by
  obtain ⟨h₀, h₁⟩ := pad_of_validate h
  have hactivator : c.activator = ⟨c.squashing, c.pad⟩ := rfl
  rw [hactivator]
  generalize c.squashing = kind
  generalize c.pad = pad at h₀ h₁
  obtain ⟨p⟩ := pad
  dsimp only at h₀ h₁
  have htanh : Int.tdiv ((scale - p + -(scale - p)) * scale) (2 * scale) = 0 := by
    rw [Int.add_right_neg, Int.zero_mul, Int.zero_tdiv]
  have hlogistic : Int.tdiv ((scale - p + p) * scale) (2 * scale) = 500000 := by
    rw [Int.sub_add_cancel]
    rfl
  have hone : scale = 1000000 := rfl
  cases kind with
  | tanh =>
    cases b with
    | true =>
      show Fixed.positive (scale - p - Int.tdiv ((scale - p + -(scale - p)) * scale) (2 * scale)) = true
      rw [htanh, positive_iff]
      omega
    | false =>
      show Fixed.positive (-(scale - p) - Int.tdiv ((scale - p + -(scale - p)) * scale) (2 * scale)) = false
      rw [htanh, Bool.eq_false_iff, ne_eq, positive_iff]
      omega
  | logistic =>
    cases b with
    | true =>
      show Fixed.positive (scale - p - Int.tdiv ((scale - p + p) * scale) (2 * scale)) = true
      rw [hlogistic, positive_iff]
      omega
    | false =>
      show Fixed.positive (p - Int.tdiv ((scale - p + p) * scale) (2 * scale)) = false
      rw [hlogistic, Bool.eq_false_iff, ne_eq, positive_iff]
      omega

end Fixed

instance : ExactSums Fixed where
  add_comm a b := congrArg Fixed.mk (Int.add_comm _ _)
  add_assoc a b c := congrArg Fixed.mk (Int.add_assoc _ _ _)
  add_zero a := congrArg Fixed.mk (Int.add_zero _)
  mul_zero a := by
    show Fixed.mk (Int.tdiv (a.millionths * 0) Fixed.scale) = ⟨0⟩
    rw [Int.mul_zero, Int.zero_tdiv]
  on_isOn h := Fixed.isOn_level h true
  off_isOff h := Fixed.isOn_level h false

namespace Scalar

variable {α : Type} [Scalar α] [ExactSums α]

theorem zero_add (a : α) : 0 + a = a := by rw [ExactSums.add_comm, ExactSums.add_zero]

/-- A sum may be cut anywhere. -/
theorem sumBelow_add (m n : Nat) (f : Nat → α) :
    sumBelow (m + n) f = sumBelow m f + sumBelow n fun i => f (m + i) := by
  induction n with
  | zero => rw [Nat.add_zero, sumBelow_zero, ExactSums.add_zero]
  | succ n ih => rw [← Nat.add_assoc, sumBelow_succ, sumBelow_succ, ih, ExactSums.add_assoc]

omit [ExactSums α] in
theorem sumBelow_congr {n : Nat} {f g : Nat → α} (h : ∀ i < n, f i = g i) : sumBelow n f = sumBelow n g := by
  induction n with
  | zero => rfl
  | succ n ih => rw [sumBelow_succ, sumBelow_succ, ih fun i hi => h i (Nat.lt_succ_of_lt hi), h n (Nat.lt_succ_self n)]

theorem sumBelow_eq_zero {n : Nat} {f : Nat → α} (h : ∀ i < n, f i = 0) : sumBelow n f = 0 := by
  induction n with
  | zero => rfl
  | succ n ih =>
    rw [sumBelow_succ, ih fun i hi => h i (Nat.lt_succ_of_lt hi), h n (Nat.lt_succ_self n), ExactSums.add_zero]

/-- A sum with one term that is not zero. -/
theorem sumBelow_eq_term {n i : Nat} (hi : i < n) {f : Nat → α} (h : ∀ j < n, j ≠ i → f j = 0) : sumBelow n f = f i := by
  induction n with
  | zero => omega
  | succ n ih =>
    rw [sumBelow_succ]
    by_cases heq : i = n
    · subst heq
      rw [sumBelow_eq_zero fun j hj => h j (Nat.lt_succ_of_lt hj) (Nat.ne_of_lt hj), zero_add]
    · rw [ih (by omega) fun j hj => h j (Nat.lt_succ_of_lt hj), h n (Nat.lt_succ_self n) (Ne.symm heq),
        ExactSums.add_zero]

end Scalar

end Engram
