/-
  Engram.Network.Gate — layers, pathways, gates, and which unit of the gate layer is which gate.

  A gate switches one behaviour of a pathway:

    (t <- s : copy)     the activity of `s` is carried into `t`
    (t <- t : decay)    `t` forgets its previous activity
    (t <- s : learn)    the association of the activity of `s` with that of `t` is stored

  A gate map lists the gates, each once; its positions are the units of the gate layer.
-/

namespace Engram

/-- The number of a layer in its network. -/
structure LayerId where
  index : UInt16
  deriving DecidableEq, Repr, Inhabited

/-- A connection from the source layer into the target layer. -/
structure Pathway where
  target : LayerId
  source : LayerId
  deriving DecidableEq, Repr

inductive GateMode where
  | copy
  | decay
  | learn
  deriving DecidableEq, Repr

/-- The letter that stands for a mode in the name of a gate. -/
def GateMode.symbol : GateMode → String
  | copy => "u"
  | decay => "d"
  | learn => "l"

/-- One switch of the network. -/
structure Gate where
  target : LayerId
  source : LayerId
  mode : GateMode
  deriving DecidableEq, Repr

namespace Gate

def copy (target source : LayerId) : Gate := ⟨target, source, .copy⟩

def decay (layer : LayerId) : Gate := ⟨layer, layer, .decay⟩

def learn (target source : LayerId) : Gate := ⟨target, source, .learn⟩

/-- The gates that move an activity: carry it, and let the target forget its own. -/
def flow (target source : LayerId) : List Gate := [copy target source, decay target]

/-- The name of a gate, given the names of layers. -/
def name (g : Gate) (layer : LayerId → String) : String :=
  "(" ++ layer g.target ++ "<-" ++ layer g.source ++ ":" ++ g.mode.symbol ++ ")"

/-- The name of a gate by the numbers of its layers. -/
def number (g : Gate) : String := g.name fun l => toString l.index

end Gate

/-- Gates in the order of their units, each once. -/
structure GateMap where
  gates : List Gate
  nodup : gates.Nodup

namespace GateMap

/-- The gates that `rest` adds to those already listed, or the first that is listed twice. -/
def firstRepeated? (seen : List Gate) : List Gate → Option Gate
  | [] => none
  | g :: rest => if g ∈ seen then some g else firstRepeated? (g :: seen) rest

theorem disjoint_of_firstRepeated? {seen gates : List Gate} (h : firstRepeated? seen gates = none) :
    gates.Nodup ∧ ∀ g ∈ gates, g ∉ seen := by
  induction gates generalizing seen with
  | nil => simp
  | cons g rest ih =>
    rw [firstRepeated?] at h
    split at h
    · cases h
    · next hg =>
      obtain ⟨hrest, hseen⟩ := ih h
      refine ⟨List.nodup_cons.2 ⟨fun hmem => hseen g hmem (by simp), hrest⟩, fun x hx => ?_⟩
      rcases List.mem_cons.1 hx with rfl | hx
      · exact hg
      · exact fun hs => hseen x hx (List.mem_cons_of_mem _ hs)

/-- The map of the listed gates, or the first gate that is listed again. -/
def ofList (gates : List Gate) : Except Gate GateMap :=
  match h : firstRepeated? [] gates with
  | some g => .error g
  | none => .ok ⟨gates, (disjoint_of_firstRepeated? h).1⟩

def size (m : GateMap) : Nat := m.gates.length

/-- The unit of a gate. -/
def unit? (m : GateMap) (g : Gate) : Option Nat := m.gates.idxOf? g

/-- The gate of a unit. -/
def gate? (m : GateMap) (unit : Nat) : Option Gate := m.gates[unit]?

/-- The gates whose unit is on. -/
def openGates (m : GateMap) (bits : List Bool) : List Gate :=
  ((m.gates.zip bits).filter (·.2)).map (·.1)

end GateMap

end Engram
