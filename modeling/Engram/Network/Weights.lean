/-
  Engram.Network.Weights — the connection of each pathway.

  Pathways are ordered by the number of their target, then by that of their source.
-/

import Engram.Association.Basic
import Engram.Network.Gate
import Std.Data.TreeMap.Basic

namespace Engram

instance : Ord Pathway := ⟨compareLex (compareOn (·.target.index)) (compareOn (·.source.index))⟩

instance : Std.TransOrd Pathway :=
  inferInstanceAs (Std.TransCmp
    (compareLex (compareOn fun (p : Pathway) => p.target.index) (compareOn fun p => p.source.index)))

instance : Std.LawfulEqOrd Pathway where
  eq_of_compare {p q} h := by
    have h : (compare p.target.index q.target.index).then (compare p.source.index q.source.index) = .eq := h
    rw [Ordering.then_eq_eq, Std.LawfulEqOrd.compare_eq_iff_eq, Std.LawfulEqOrd.compare_eq_iff_eq] at h
    obtain ⟨⟨a⟩, ⟨b⟩⟩ := p
    obtain ⟨⟨c⟩, ⟨d⟩⟩ := q
    simp_all

/-- Connections by pathway. -/
abbrev Weights (α : Type) := Std.TreeMap Pathway (Connection α)

namespace Weights

variable {α : Type}

/-- All connections of both, those of the second where both have one. -/
def extend (w later : Weights α) : Weights α := later.foldl (fun w p c => w.insert p c) w

end Weights

end Engram
