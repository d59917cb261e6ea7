/-
  Engram.Data.Pointer — the stack pointer and the memory pointer.

  A pointer is a pair of layers that hold the same slot in a forward and a backward form. One
  step moves both layers from one of them:

    on       forward <- forward : slot i to i + 1     backward <- forward : slot i to i + 1
    back     backward <- backward : slot i to i - 1   forward <- backward : slot i to i - 1

  The memory pointer can be staged: mp takes the slot of mb, and mf and mb take that of mp. The
  slots have orthogonal patterns on each layer.
-/

import Engram.Data.PairMap

namespace Engram

open LayerId

namespace Pointer

/-- What a pathway does with a slot. -/
inductive Shift where
  | on
  | back
  | stay
  deriving DecidableEq, Repr

/-- The token of a slot. -/
def slotToken (i : Nat) : String := toString i

/-- The layers that hold slots. -/
def layers : List LayerId := [sf, sb, mf, mb, mp]

/-- The moves of a pair of layers. -/
def pairMoves (forward backward : LayerId) : List (Pathway × Shift) :=
  [(⟨forward, forward⟩, .on), (⟨backward, forward⟩, .on),
   (⟨backward, backward⟩, .back), (⟨forward, backward⟩, .back)]

/-- Every pathway of the pointers, and what it does. -/
def moves : List (Pathway × Shift) :=
  pairMoves sf sb ++ pairMoves mf mb ++ [(⟨mp, mb⟩, .stay), (⟨mf, mp⟩, .stay), (⟨mb, mp⟩, .stay)]

/-- The slots that have one to move to, with that one. -/
def Shift.pairs {β γ : Type} (s : Shift) (source : List β) (target : List γ) : List (β × γ) :=
  match s with
  | .on => source.zip (target.drop 1)
  | .back => (source.drop 1).zip target
  | .stay => source.zip target

variable {α : Type} [Scalar α]

/-- The associations of a move, as two batches. -/
def Shift.columns (s : Shift) (source target : Columns α) : Columns α × Columns α :=
  let pairs := s.pairs source.patterns target.patterns
  (⟨source.height, pairs.map (·.1)⟩, ⟨target.height, pairs.map (·.2)⟩)

/-- The slot patterns of the given layers. -/
def encodeSlots (tokens : List String) (n : Network α) :
    List LayerId → Except (Fault α) (List (LayerId × Columns α)) × Network α
  | [] => (.ok [], n)
  | layer :: rest =>
    match n.encodeAll layer true tokens with
    | (.error e, n) => (.error e, n)
    | (.ok columns, n) =>
      match encodeSlots tokens n rest with
      | (.error e, n) => (.error e, n)
      | (.ok more, n) => (.ok ((layer, columns) :: more), n)

/-- The associations of all moves, over the slot patterns of the layers. -/
def movePairs (n : Network α) (patterns : List (LayerId × Columns α)) : Except Breach (PairMap α) :=
  moves.foldlM (fun (m : PairMap α) (p, shift) =>
    let columns (l : LayerId) := (patterns.lookup l).getD ⟨0, []⟩
    let (x, y) := shift.columns (columns p.source) (columns p.target)
    m.add? n p x y) {}

/-- Writes the pathways of the pointers over the given number of slots. -/
def flash (n : Network α) (slots : Nat) : Noted (Except (Fault α) (Weights α × Nat) × Network α) :=
  match encodeSlots ((List.range slots).map slotToken) n layers with
  | (.error e, n) => pure (.error e, n)
  | (.ok patterns, n) =>
    match movePairs n patterns with
    | .error e => pure (.error (.breach e), n)
    | .ok pairs => do
      let (weights, errors) ← pairs.flash n fun p errors _ =>
        "pointer pathway " ++ n.pathwayName p ++ ": " ++ toString errors ++ " errors"
      Noted.debug ("devices: " ++ toString weights.size ++ " pointer pathways over " ++
        toString slots ++ " slots")
      return (.ok (weights, errors), n)

end Pointer

end Engram
