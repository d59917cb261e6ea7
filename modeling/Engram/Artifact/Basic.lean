/-
  Engram.Artifact.Basic — weights under the names of their layers.

  An artifact lists connections with the names of the layers they join, so that it can be read
  by a network whose layers are numbered differently. Reading resolves the names, entry by
  entry, and checks the dimensions; of two entries for one pathway the later counts.
-/

import Engram.Network.Basic
import Engram.Network.Weights

namespace Engram

/-- A connection and the names of the layers it joins. -/
structure NamedConnection (α : Type) where
  target : String
  source : String
  connection : Connection α

structure Artifact (α : Type) where
  version : Nat
  entries : List (NamedConnection α)

namespace Artifact

variable {α : Type} [Scalar α]

/-- The version that is written, and the only one that is read. -/
def currentVersion : Nat := 1

def ofWeights (n : Network α) (w : Weights α) : Artifact α :=
  ⟨currentVersion, w.toList.map fun (p, c) => ⟨n.name p.target, n.name p.source, c⟩⟩

/-- The pathway of an entry, if its layers are known and the connection has their sizes. -/
def resolve (n : Network α) (e : NamedConnection α) : Except (Fault α) Pathway := do
  let target ← n.id e.target
  let source ← n.id e.source
  let w := e.connection.weights
  if w.height = n.size target ∧ w.width = n.size source ∧ e.connection.bias.size = n.size target then
    return ⟨target, source⟩
  else throw (.shapeMismatch [n.size target, n.size source] [w.height, w.width])

/-- Adds entries to weights. -/
def resolveAll (n : Network α) (w : Weights α) : List (NamedConnection α) → Except (Fault α) (Weights α)
  | [] => .ok w
  | e :: rest => do
    let p ← resolve n e
    resolveAll n (w.insert p e.connection) rest

/-- The weights of an artifact over a network. -/
def toWeights (a : Artifact α) (n : Network α) : Except (Fault α) (Weights α) :=
  if a.version = currentVersion then resolveAll n {} a.entries
  else .error (.config (.artifactVersion a.version))

def size (a : Artifact α) : Nat := a.entries.length

def isEmpty (a : Artifact α) : Bool := a.entries.isEmpty

end Artifact

end Engram
