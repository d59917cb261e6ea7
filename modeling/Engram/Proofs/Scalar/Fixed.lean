/-
  Engram.Proofs.Scalar.Fixed — numbers in millionths.

  Results about the network are stated over any numbers, or over those that are told apart by an
  equivalence. That such results speak of some network at all is shown on a small one, which has
  to be computed in full. Here are numbers that this can be done with: integers count millionths,
  and the squashing function changes nothing, with an inverse to it on the saturation levels; and
  the small network.
-/

import Engram.Network.Basic
import Engram.Proofs.Association.Targets

namespace Engram

/-- Numbers in millionths. -/
structure Fixed where
  millionths : Int
  deriving DecidableEq

namespace Fixed

def scale : Int := 1000000

def positive : Int → Bool
  | .ofNat 0 => false
  | .ofNat (_ + 1) => true
  | .negSucc _ => false

end Fixed

instance : Scalar Fixed where
  add a b := ⟨Int.add a.millionths b.millionths⟩
  sub a b := ⟨Int.sub a.millionths b.millionths⟩
  mul a b := ⟨Int.tdiv (Int.mul a.millionths b.millionths) Fixed.scale⟩
  div a b := ⟨Int.tdiv (Int.mul a.millionths Fixed.scale) b.millionths⟩
  neg a := ⟨Int.neg a.millionths⟩
  zero := ⟨Int.ofNat 0⟩
  one := ⟨Fixed.scale⟩
  natCast n := ⟨Int.mul (Int.ofNat n) Fixed.scale⟩
  lt a b := Fixed.positive (Int.sub b.millionths a.millionths)
  le a b := !Fixed.positive (Int.sub a.millionths b.millionths)
  same a b := decide (a = b)
  sqrt a := a
  exp a := a
  log a := a
  -- twice the y that the argument 2 y / (1 - y) comes from
  logOnePlus a :=
    ⟨Int.tdiv (Int.mul (Int.mul (Int.ofNat 2) a.millionths) Fixed.scale)
      (Int.add a.millionths (Int.mul (Int.ofNat 2) Fixed.scale))⟩
  tanh a := a
  tiny := ⟨Int.ofNat 1⟩

theorem Fixed.same_iff (a b : Fixed) : Scalar.same a b = true ↔ a = b := decide_eq_true_iff

instance : SameLaws Fixed where
  refl a := (Fixed.same_iff a a).mpr rfl
  symm h := (Fixed.same_iff _ _).mpr ((Fixed.same_iff _ _).mp h).symm
  trans h h' := (Fixed.same_iff _ _).mpr (((Fixed.same_iff _ _).mp h).trans ((Fixed.same_iff _ _).mp h'))

/-! ## A small network -/

/-- Small layers and one register. -/
def smallConfig : Config Fixed :=
  { (Config.standard : Config Fixed) with
    registers := ["r0"], layerSize := 8, hiddenSize := 32, rule := .hebbian, orthogonal := true, pointerSlots := 2 }

def smallNetwork : Network Fixed :=
  match (Network.build smallConfig).value with
  | .ok n => n
  | .error _ => ⟨#[], [], ⟨[], List.nodup_nil⟩, .hebbian, 0⟩

theorem build_smallConfig : (Network.build smallConfig).value = .ok smallNetwork := by
  have hok : (Network.build smallConfig).value.toOption.isSome = true := by decide +kernel
  unfold smallNetwork
  cases h : (Network.build smallConfig).value with
  | ok n => rfl
  | error e =>
    rw [h] at hok
    cases hok

end Engram
