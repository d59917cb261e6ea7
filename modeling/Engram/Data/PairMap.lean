/-
  Engram.Data.PairMap — the gathered associations of several pathways.
-/

import Engram.Association.Pairs
import Engram.Network.Basic
import Engram.Network.Weights

namespace Engram

/-- The associations of each pathway that has any. -/
abbrev PairMap (α : Type) := Std.TreeMap Pathway (Pairs α)

namespace PairMap

variable {α : Type} [Scalar α]

/-- Stores associations of a pathway of a network. -/
def add? (m : PairMap α) (n : Network α) (p : Pathway) (x y : Columns α) : Except Breach (PairMap α) := do
  let pairs ← (m.getD p (.empty (n.size p.target) (n.size p.source))).add? x y
  return m.insert p pairs

/-- The connections that realize all associations of every pathway, and how many are missed in
all. A pathway that misses some is warned about. -/
def flash (m : PairMap α) (n : Network α) (warning : Pathway → (errors count : Nat) → String) :
    Noted (Weights α × Nat) :=
  m.toList.foldlM (fun (weights, errors) (p, pairs) => do
    let f ← pairs.flash n.rule (n.activator p.source) (n.activator p.target)
    if f.errors > 0 then Noted.warn (warning p f.errors pairs.count)
    return (weights.insert p f.connection, errors + f.errors)) (({} : Weights α), 0)

end PairMap

end Engram
