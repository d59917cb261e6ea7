/-
  Engram.Proofs.Exact.Holding — what retention does with a unit.

  Seen from the midpoint and measured in spans, both families of squashing functions retain by the
  same map: a unit at u goes to tanh (d u) / tanh d, on either side of the midpoint
  (`semiconj_hold`). The map is increasing, it leaves 1 where it is, and since the hyperbolic tangent
  is strictly concave above 0 it takes every other positive number closer to 1, from the same side
  (`lt_steepen`, `steepen_lt`).

  So a unit off the midpoint stays on its side, is never taken away from the level of that side, and
  comes as close to it as one likes (`Proper.settles`).
-/

import Engram.Proofs.Exact.Activator
import Mathlib.Analysis.Convex.Deriv
import Mathlib.Dynamics.FixedPoints.Topology
import Mathlib.Topology.Algebra.Module.ModuleTopology
import Mathlib.Topology.Order.MonotoneConvergence

namespace Engram

open Filter Topology

/-! ## The hyperbolic tangent -/

theorem hasDerivAt_tanh (x : ℝ) : HasDerivAt Real.tanh (1 / Real.cosh x ^ 2) x := by
  have hcosh := (Real.cosh_pos x).ne'
  have hquotient := (Real.hasDerivAt_sinh x).div (Real.hasDerivAt_cosh x) hcosh
  have hone : Real.cosh x * Real.cosh x - Real.sinh x * Real.sinh x = 1 := by
    linarith [Real.cosh_sq_sub_sinh_sq x, sq (Real.cosh x), sq (Real.sinh x)]
  rw [hone] at hquotient
  exact hquotient.congr_of_eventuallyEq (Eventually.of_forall fun y => Real.tanh_eq_sinh_div_cosh y)

theorem continuous_tanh : Continuous Real.tanh :=
  continuous_iff_continuousAt.mpr fun x => (hasDerivAt_tanh x).continuousAt

theorem strictMono_tanh : StrictMono Real.tanh := by
  refine strictMono_of_deriv_pos fun x => ?_
  rw [(hasDerivAt_tanh x).deriv]
  have := Real.cosh_pos x
  positivity

theorem strictConcaveOn_tanh : StrictConcaveOn ℝ (Set.Ici 0) Real.tanh := by
  refine StrictAntiOn.strictConcaveOn_of_deriv (convex_Ici 0) continuous_tanh.continuousOn fun x hx y hy hxy => ?_
  rw [interior_Ici, Set.mem_Ioi] at hx hy
  rw [(hasDerivAt_tanh x).deriv, (hasDerivAt_tanh y).deriv]
  have hcosh := Real.cosh_strictMonoOn hx.le hy.le hxy
  have hpos := Real.cosh_pos x
  gcongr

theorem tanh_pos {x : ℝ} (hx : 0 < x) : 0 < Real.tanh x := Real.tanh_zero ▸ strictMono_tanh hx

/-- The tangent is above its chord from 0. -/
theorem mul_tanh_lt {s x : ℝ} (hs : 0 < s) (hs' : s < 1) (hx : 0 < x) : s * Real.tanh x < Real.tanh (s * x) := by
  have h := strictConcaveOn_tanh.2 (Set.mem_Ici.mpr le_rfl) (Set.mem_Ici.mpr hx.le) hx.ne (sub_pos.mpr hs') hs
    (sub_add_cancel 1 s)
  simpa using h

/-! ## The map -/

/-- What becomes of a unit at `u` spans from the midpoint. -/
noncomputable def steepen (d u : ℝ) : ℝ := Real.tanh (d * u) / Real.tanh d

section Steepen

variable {d u : ℝ}

theorem continuous_steepen (d : ℝ) : Continuous (steepen d) :=
  (continuous_tanh.comp (continuous_const_mul d)).div_const _

theorem steepen_one (hd : 0 < d) : steepen d 1 = 1 := by
  rw [steepen, mul_one, div_self (tanh_pos hd).ne']

theorem monotone_steepen (hd : 0 < d) : Monotone (steepen d) := fun _ _ h =>
  div_le_div_of_nonneg_right (strictMono_tanh.monotone (mul_le_mul_of_nonneg_left h hd.le)) (tanh_pos hd).le

theorem steepen_pos (hd : 0 < d) (hu : 0 < u) : 0 < steepen d u :=
  div_pos (tanh_pos (mul_pos hd hu)) (tanh_pos hd)

theorem lt_steepen (hd : 0 < d) (hu : 0 < u) (hu' : u < 1) : u < steepen d u := by
  rw [steepen, lt_div_iff₀ (tanh_pos hd), mul_comm d]
  exact mul_tanh_lt hu hu' hd

theorem le_steepen (hd : 0 < d) (hu : 0 < u) (hu' : u ≤ 1) : u ≤ steepen d u := by
  rcases hu'.lt_or_eq with h | rfl
  · exact (lt_steepen hd hu h).le
  · exact (steepen_one hd).ge

theorem steepen_lt (hd : 0 < d) (hu : 1 < u) : steepen d u < u := by
  have hpos := zero_lt_one.trans hu
  have h := mul_tanh_lt (inv_pos.mpr hpos) (inv_lt_one_of_one_lt₀ hu) (mul_pos hd hpos)
  rw [mul_comm d, inv_mul_cancel_left₀ hpos.ne'] at h
  rw [steepen, div_lt_iff₀ (tanh_pos hd), mul_comm d]
  rwa [inv_mul_lt_iff₀ hpos] at h

theorem steepen_le (hd : 0 < d) (hu : 1 ≤ u) : steepen d u ≤ u := by
  rcases hu.lt_or_eq with h | rfl
  · exact (steepen_lt hd h).le
  · exact (steepen_one hd).le

theorem eq_one_of_isFixedPt (hd : 0 < d) (hu : 0 < u) (h : Function.IsFixedPt (steepen d) u) : u = 1 := by
  rcases lt_trichotomy u 1 with hlt | heq | hgt
  · exact absurd h (lt_steepen hd hu hlt).ne'
  · exact heq
  · exact absurd h (steepen_lt hd hgt).ne

/-- A step leads closer to 1. -/
theorem abs_steepen_sub_one_le (hd : 0 < d) (hu : 0 < u) : |steepen d u - 1| ≤ |u - 1| := by
  rcases le_total u 1 with h | h
  · have hone := (monotone_steepen hd h).trans_eq (steepen_one hd)
    rw [abs_of_nonpos (sub_nonpos.mpr hone), abs_of_nonpos (sub_nonpos.mpr h)]
    linarith [le_steepen hd hu h]
  · have hone := (steepen_one hd).symm.trans_le (monotone_steepen hd h)
    rw [abs_of_nonneg (sub_nonneg.mpr hone), abs_of_nonneg (sub_nonneg.mpr h)]
    linarith [steepen_le hd h]

theorem iterate_steepen_pos (hd : 0 < d) (hu : 0 < u) (k : Nat) : 0 < (steepen d)^[k] u := by
  induction k with
  | zero => exact hu
  | succ k ih =>
    rw [Function.iterate_succ_apply']
    exact steepen_pos hd ih

/-- The steps of a positive number go up to 1 or down to it. -/
theorem tendsto_iterate_steepen (hd : 0 < d) (hu : 0 < u) : Tendsto (fun k => (steepen d)^[k] u) atTop (𝓝 1) := by
  have hmono := monotone_steepen hd
  have hone : ∀ k, (steepen d)^[k] 1 = 1 := Function.iterate_fixed (steepen_one hd)
  obtain ⟨limit, hlimit, hpos⟩ : ∃ limit, Tendsto (fun k => (steepen d)^[k] u) atTop (𝓝 limit) ∧ 0 < limit := by
    rcases le_total u 1 with h | h
    · have hbounded : BddAbove (Set.range fun k => (steepen d)^[k] u) :=
        ⟨1, Set.forall_mem_range.mpr fun k => (hmono.iterate k h).trans_eq (hone k)⟩
      exact ⟨_, tendsto_atTop_ciSup (hmono.monotone_iterate_of_le_map (le_steepen hd hu h)) hbounded,
        hu.trans_le (le_ciSup hbounded 0)⟩
    · have habove : ∀ k, 1 ≤ (steepen d)^[k] u := fun k => (hone k).symm.trans_le (hmono.iterate k h)
      exact ⟨_, tendsto_atTop_ciInf (hmono.antitone_iterate_of_map_le (steepen_le hd h))
        ⟨1, Set.forall_mem_range.mpr habove⟩, zero_lt_one.trans_le (le_ciInf habove)⟩
  have hfixed := isFixedPt_of_tendsto_iterate hlimit (continuous_steepen d).continuousAt
  rwa [eq_one_of_isFixedPt hd hpos hfixed] at hlimit

end Steepen

/-! ## Units -/

namespace Activator

variable {a : Activator ℝ}

/-- By how much a squashing function narrows the hyperbolic tangent, in both directions. -/
noncomputable def scale (a : Activator ℝ) : ℝ :=
  match a.kind with
  | .tanh => 1
  | .logistic => 1 / ((2 : Nat) : ℝ)

theorem scale_pos (a : Activator ℝ) : 0 < a.scale := by
  unfold scale
  cases a.kind <;> norm_num

theorem squash_eq (a : Activator ℝ) (x : ℝ) : a.squash x = a.midpoint + a.scale * Real.tanh (a.scale * x) := by
  cases hk : a.kind with
  | tanh =>
    rw [midpoint_tanh hk, zero_add]
    simp only [squash, scale, hk, one_mul]
    rfl
  | logistic =>
    rw [midpoint_logistic hk]
    simp only [squash, scale, hk]
    show 1 / (1 + Real.exp (-x)) = 1 / 2 + 1 / 2 * Real.tanh (1 / 2 * x)
    have hinverse : Real.exp (1 / 2 * x) * Real.exp (-(1 / 2 * x)) = 1 := by
      rw [← Real.exp_add, add_neg_cancel, Real.exp_zero]
    have hsquare : Real.exp (-x) = Real.exp (-(1 / 2 * x)) * Real.exp (-(1 / 2 * x)) := by
      rw [← Real.exp_add]
      congr 1
      ring
    have hpos := Real.exp_pos (1 / 2 * x)
    have hpos' := Real.exp_pos (-(1 / 2 * x))
    rw [Real.tanh_eq, hsquare]
    generalize Real.exp (1 / 2 * x) = p at *
    generalize Real.exp (-(1 / 2 * x)) = q at *
    field_simp
    linear_combination (-2 * q) * hinverse

/-- A unit at `u` spans from the midpoint, on the side of a bit. -/
noncomputable def place (a : Activator ℝ) (b : Bool) (u : ℝ) : ℝ := a.midpoint + sign b * (a.span * u)

theorem place_one (a : Activator ℝ) (b : Bool) : a.place b 1 = a.level b := by
  rw [place, mul_one, level_eq]

/-- Retention keeps a unit on its side of the midpoint, never takes it away from the level of that side, and
brings it within the pad of that level. -/
structure Settles (a : Activator ℝ) (y : ℝ) : Prop where
  above : a.midpoint < y → ∀ k, a.midpoint < a.hold^[k] y
  below : y < a.midpoint → ∀ k, a.hold^[k] y < a.midpoint
  closer : ∀ k, |a.hold^[k + 1] y - a.level (a.isOn y)| ≤ |a.hold^[k] y - a.level (a.isOn y)|
  near : ∃ n, ∀ k ≥ n, |a.hold^[k] y - a.level (a.isOn y)| < a.pad

namespace Proper

theorem abs_place_sub_level (h : a.Proper) (b : Bool) (u : ℝ) : |a.place b u - a.level b| = a.span * |u - 1| := by
  have hsub : a.place b u - a.place b 1 = sign b * (a.span * (u - 1)) := by
    simp only [place]
    ring
  rw [← place_one, hsub, abs_mul, abs_sign, one_mul, abs_mul, abs_of_pos h.span_pos]

theorem midpoint_lt_place (h : a.Proper) {u : ℝ} (hu : 0 < u) : a.midpoint < a.place true u := by
  have := mul_pos h.span_pos hu
  rw [place, sign_true]
  linarith

theorem place_lt_midpoint (h : a.Proper) {u : ℝ} (hu : 0 < u) : a.place false u < a.midpoint := by
  have := mul_pos h.span_pos hu
  rw [place, sign_false]
  linarith

theorem isOn_place (h : a.Proper) {u : ℝ} (hu : 0 < u) (b : Bool) : a.isOn (a.place b u) = b := by
  cases b with
  | true => exact (Scalar.lt_eq_true _ _).mpr (h.midpoint_lt_place hu)
  | false => exact (Scalar.lt_eq_false _ _).mpr (h.place_lt_midpoint hu).le

theorem exists_place (h : a.Proper) {y : ℝ} (hy : y ≠ a.midpoint) : ∃ b u, 0 < u ∧ y = a.place b u := by
  have hspan := h.span_pos
  rcases hy.lt_or_gt with hlt | hgt
  · refine ⟨false, (a.midpoint - y) / a.span, div_pos (sub_pos.mpr hlt) hspan, ?_⟩
    rw [place, sign_false, mul_div_cancel₀ _ hspan.ne']
    ring
  · refine ⟨true, (y - a.midpoint) / a.span, div_pos (sub_pos.mpr hgt) hspan, ?_⟩
    rw [place, sign_true, mul_div_cancel₀ _ hspan.ne']
    ring

theorem gain_eq (h : a.Proper) : a.gain = a.depth / a.span := by
  rw [gain, h.inverse_off, ← depth, span]
  have := h.off_lt_on
  have : a.on - a.off ≠ 0 := (sub_pos.mpr this).ne'
  field_simp
  ring

theorem span_eq (h : a.Proper) : a.span = a.scale * Real.tanh (a.scale * a.depth) := by
  have hlevel := h.squash_level true
  rw [squash_eq, level_eq, sign_true, one_mul, one_mul] at hlevel
  linarith

/-- On both sides of the midpoint a tick of retention is one step of the map. -/
theorem semiconj_hold (h : a.Proper) (b : Bool) :
    Function.Semiconj (a.place b) (steepen (a.scale * a.depth)) a.hold := by
  intro u
  have hspan := h.span_pos
  have hodd : ∀ x, Real.tanh (sign b * x) = sign b * Real.tanh x := by
    intro x
    cases b <;> simp [Real.tanh_neg]
  have hrecurrent : a.recurrent (a.place b u) = sign b * (a.depth * u) := by
    rw [recurrent, h.inverse_midpoint, h.gain_eq, place]
    field_simp
    ring
  have htanh := (tanh_pos (mul_pos a.scale_pos h.depth_pos)).ne'
  calc a.place b (steepen (a.scale * a.depth) u)
      = a.midpoint + sign b * (a.scale * Real.tanh (a.scale * a.depth * u)) := by
        rw [place, steepen, h.span_eq, mul_assoc a.scale, mul_div_cancel₀ _ htanh]
    _ = a.midpoint + a.scale * Real.tanh (a.scale * (sign b * (a.depth * u))) := by
        rw [mul_left_comm a.scale (sign b), hodd, ← mul_assoc a.scale a.depth, mul_left_comm (sign b)]
    _ = a.hold (a.place b u) := by rw [hold, hrecurrent, squash_eq]

theorem iterate_hold_place (h : a.Proper) (b : Bool) (u : ℝ) (k : Nat) :
    a.hold^[k] (a.place b u) = a.place b ((steepen (a.scale * a.depth))^[k] u) :=
  ((h.semiconj_hold b).iterate_right k u).symm

theorem hold_midpoint (h : a.Proper) : a.hold a.midpoint = a.midpoint := by
  rw [hold, recurrent, h.inverse_midpoint, sub_self, mul_zero, add_zero, h.squash_zero]

/-- Retention keeps the bit of a unit. -/
theorem isOn_iterate_hold (h : a.Proper) (y : ℝ) (k : Nat) : a.isOn (a.hold^[k] y) = a.isOn y := by
  by_cases hy : y = a.midpoint
  · rw [hy, Function.iterate_fixed h.hold_midpoint]
  obtain ⟨b, u, hu, rfl⟩ := h.exists_place hy
  have hsteps := iterate_steepen_pos (mul_pos a.scale_pos h.depth_pos) hu k
  rw [h.iterate_hold_place, h.isOn_place hsteps, h.isOn_place hu]

theorem bits_map_iterate_hold (h : a.Proper) (p : Pattern ℝ) (k : Nat) : a.bits (p.map a.hold^[k]) = a.bits p := by
  rw [bits, bits, Array.toList_map, List.map_map]
  exact List.map_congr_left fun y _ => h.isOn_iterate_hold y k

/-- Retention takes every unit that is off the midpoint to the level of its side. -/
theorem settles (h : a.Proper) {y : ℝ} (hy : y ≠ a.midpoint) : a.Settles y := by
  obtain ⟨b, u, hu, rfl⟩ := h.exists_place hy
  have hspan := h.span_pos
  have hd := mul_pos a.scale_pos h.depth_pos
  have hsteps := iterate_steepen_pos hd hu
  have hdistance : ∀ k, |a.hold^[k] (a.place b u) - a.level (a.isOn (a.place b u))| =
      a.span * |(steepen (a.scale * a.depth))^[k] u - 1| := by
    intro k
    rw [h.isOn_place hu, h.iterate_hold_place, h.abs_place_sub_level]
  refine ⟨?above, ?below, fun k => ?closer, ?near⟩
  case above =>
    intro hlt k
    cases b with
    | true =>
      rw [h.iterate_hold_place]
      exact h.midpoint_lt_place (hsteps k)
    | false => exact absurd hlt (h.place_lt_midpoint hu).not_gt
  case below =>
    intro hlt k
    cases b with
    | true => exact absurd hlt (h.midpoint_lt_place hu).not_gt
    | false =>
      rw [h.iterate_hold_place]
      exact h.place_lt_midpoint (hsteps k)
  case closer =>
    rw [hdistance, hdistance, Function.iterate_succ_apply']
    exact mul_le_mul_of_nonneg_left (abs_steepen_sub_one_le hd (hsteps k)) hspan.le
  case near =>
    obtain ⟨n, hn⟩ := Metric.tendsto_atTop.mp (tendsto_iterate_steepen hd hu) _ (div_pos h.pad_pos hspan)
    refine ⟨n, fun k hk => ?_⟩
    rw [hdistance, ← Real.dist_eq]
    exact (lt_div_iff₀' hspan).mp (hn k hk)

end Proper

end Activator

end Engram
