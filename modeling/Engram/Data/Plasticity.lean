/-
  Engram.Data.Plasticity — how pathways are written while a program runs.

  A plastic pathway starts from a baseline and is written one association at a time. A store
  keeps what it holds and adds the association. The dipole from the comparison input to its
  output forgets everything first: only the newest key leads to `true`, all else to `false`.
-/

import Engram.Association.Flash
import Engram.Control.Microcode
import Engram.Network.Weights

namespace Engram

open LayerId

inductive Plasticity (α : Type) where
  | store
  | dipole (on off : Pattern α)

namespace Plasticity

variable {α : Type} [Scalar α]

/-- What a pathway holds before anything is written, given the sizes of its layers. -/
def baseline (r : Plasticity α) (target : Activator α) (height width : Nat) : Connection α :=
  match r with
  | .store => .zero height width
  | .dipole _ off => ⟨.zero height width, off.map target.inverse⟩

/-- The connection with the association of `x` with `y` written into it. -/
def write (r : Plasticity α) (rule : Rule) (c : Connection α) (x y : Pattern α)
    (source target : Activator α) : Flash α :=
  match r with
  | .store => Association.flash rule c (.single x) (.single y) source target
  | .dipole on off =>
    let cleared : Connection α := ⟨.zero c.weights.height c.weights.width, off.map target.inverse⟩
    Association.flash rule cleared (.single x) (.single on) source target

end Plasticity

/-- How each plastic pathway is written. -/
abbrev PlasticityMap (α : Type) := Std.TreeMap Pathway (Plasticity α)

namespace Network

variable {α : Type} [Scalar α]

/-- How each plastic pathway of a network is written. The tokens of the comparison output get
patterns. -/
def plasticity (n : Network α) : PlasticityMap α × Network α :=
  let (on, n) := n.encode co trueToken
  let (off, n) := n.encode co falseToken
  let rule (p : Pathway) : Plasticity α := if p = ⟨co, ci⟩ then .dipole on off else .store
  (n.plastic.foldl (fun (m : PlasticityMap α) p => m.insert p (rule p)) {}, n)

/-- What a plastic pathway of a network holds before anything is written. -/
def baseline (n : Network α) (p : Pathway) (r : Plasticity α) : Connection α :=
  r.baseline (n.activator p.target) (n.size p.target) (n.size p.source)

/-- The weights with every plastic pathway at its baseline. -/
def resetPlastic (n : Network α) (m : PlasticityMap α) (w : Weights α) : Weights α :=
  m.foldl (fun w p r => w.insert p (n.baseline p r)) w

end Network

end Engram
