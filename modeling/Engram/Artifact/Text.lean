/-
  Engram.Artifact.Text — artifacts as JSON.

    { "version": 1,
      "pathways": [ { "to": "gh", "from": "opc", "weights": …, "bias": … }, … ] }

  A matrix or vector is an object with its format number "v", its dimensions "dim" and its
  entries "data", row by row. Objects of the outer two kinds ignore other keys and refuse a
  known key given twice; an object for a matrix or vector refuses other keys, and of a key given
  twice the last counts. Each of these objects can be a list of its values instead. A number
  that is not finite is written as null, which no reader accepts as a number.
-/

import Engram.Artifact.Basic
import Engram.Json.Basic

namespace Engram

namespace Artifact

/-! ## Writing -/

def numberJson (x : Float) : Json :=
  match Json.Numeral.ofFloat? x with
  | some numeral => .number numeral
  | none => .null

def blockJson (dimensions : List Nat) (entries : List Float) : Json :=
  .record [("v", .ofNat 1), ("dim", .list (dimensions.map .ofNat)), ("data", .list (entries.map numberJson))]

def entryJson (e : NamedConnection Float) : Json :=
  let w := e.connection.weights
  let b := e.connection.bias
  .record [("to", .text e.target), ("from", .text e.source),
    ("weights", blockJson [w.height, w.width] w.entries.toList),
    ("bias", blockJson [b.size] b.toList)]

def toJson (a : Artifact Float) : Json :=
  .record [("version", .ofNat a.version), ("pathways", .list (a.entries.map entryJson))]

def text (a : Artifact Float) : String := a.toJson.write

/-! ## Reading -/

/-- The values of an object's keys, in the order of the given names, or of a list's items. A key
given twice is refused, other keys are ignored. -/
def values? (names : List String) (j : Json) : Option (List Json) :=
  match j with
  | .list vs => if vs.length = names.length then some vs else none
  | j => do
    let fields ← j.fields?
    names.mapM fun name =>
      match fields.filter (·.1 == name) with
      | [(_, v)] => some v
      | _ => none

/-- The keys of a matrix or vector. -/
structure BlockFields where
  version : Option Unit
  dimensions : Option (List Nat)
  entries : Option (List Float)

/-- The dimensions, which are the given number of natural numbers. -/
def dimensions? (rank : Nat) (j : Json) : Option (List Nat) := do
  let ds ← (← j.list?).mapM Json.toNat?
  if ds.length = rank then some ds else none

def entries? (j : Json) : Option (List Float) := do (← j.list?).mapM Json.toFloat?

/-- Sets the field of a key. -/
def setBlockField? (rank : Nat) (b : BlockFields) (key : String) (j : Json) : Option BlockFields :=
  match key with
  | "v" => if j.toNat? = some 1 then some { b with version := some () } else none
  | "dim" => (dimensions? rank j).map fun ds => { b with dimensions := some ds }
  | "data" => (entries? j).map fun xs => { b with entries := some xs }
  | _ => none

def setBlockFields? (rank : Nat) (b : BlockFields) : List (String × Json) → Option BlockFields
  | [] => some b
  | (key, j) :: rest => do setBlockFields? rank (← setBlockField? rank b key j) rest

/-- Whether the dimensions other than zero span fewer entries than can be numbered. -/
def inRange (dimensions : List Nat) : Bool :=
  (dimensions.filter (· != 0)).foldl (· * ·) 1 < Nat.pow 2 63

/-- A matrix or vector of the given rank: its dimensions, which can be numbered, and its entries. -/
def block? (rank : Nat) (j : Json) : Option (List Nat × List Float) := do
  let fields ← match j with
    | .list vs => if vs.length = 3 then some (["v", "dim", "data"].zip vs) else none
    | j => j.fields?
  match ← setBlockFields? rank ⟨none, none, none⟩ fields with
  | ⟨some (), some ds, some xs⟩ =>
    if inRange ds then some (ds, xs) else none
  | _ => none

def matrix? (j : Json) : Option (Matrix Float) := do
  match ← block? 2 j with
  | ([height, width], xs) =>
    if h : xs.length = height * width then some ⟨height, width, xs.toArray, h⟩ else none
  | _ => none

def vector? (j : Json) : Option (Pattern Float) := do
  let (dimensions, xs) ← block? 1 j
  if dimensions = [xs.length] then some xs.toArray else none

def entry? (j : Json) : Option (NamedConnection Float) := do
  match ← values? ["to", "from", "weights", "bias"] j with
  | [target, source, weights, bias] =>
    return ⟨← target.text?, ← source.text?, ⟨← matrix? weights, ← vector? bias⟩⟩
  | _ => none

def ofJson? (j : Json) : Option (Artifact Float) := do
  match ← values? ["version", "pathways"] j with
  | [version, pathways] =>
    let version ← version.toNat?
    let entries ← (← pathways.list?).mapM entry?
    if version < Nat.pow 2 32 then some ⟨version, entries⟩ else none
  | _ => none

/-- The artifact that a text writes. -/
def read (text : String) : Except (Fault Float) (Artifact Float) :=
  match (Json.parse? text).bind ofJson? with
  | some a => .ok a
  | none => .error .malformed

/-- The weights that a text writes, over a network. -/
def readWeights (n : Network Float) (text : String) : Except (Fault Float) (Weights Float) := do
  (← read text).toWeights n

end Artifact

end Engram
