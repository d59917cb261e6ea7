/-
  Engram.Network.ConfigReader — configurations from JSON.

  A configuration is an object, in which a missing key stands for the standard value, a key of
  another name means nothing and a key given twice is refused; or a list of the values in the
  order of the fields, in which the last ones may be missing. A name out of a fixed set is a
  string, or an object with the name as its only key and null as the value.
-/

import Engram.Json.Basic
import Engram.Network.Config

namespace Engram.Config

/-- A name out of a fixed set. -/
def choice? {β : Type} (ofName? : String → Option β) : Json → Option β
  | .string (some name) => ofName? name
  | .object [(some name, .null)] => ofName? name
  | _ => none

def texts? (j : Json) : Option (List String) := do (← j.list?).mapM Json.text?

/-- The names of the fields, in order. -/
def fieldNames : List String :=
  ["registers", "layer_size", "hidden_size", "activator", "pad", "rule", "orthogonal",
   "pointer_slots", "seed", "max_ticks"]

/-- Gives a field the value that a JSON value stands for. -/
def setField? (c : Config Float) (field : String) (j : Json) : Option (Config Float) :=
  match field with
  | "registers" => (texts? j).map fun v => { c with registers := v }
  | "layer_size" => j.toNat?.map fun v => { c with layerSize := v }
  | "hidden_size" => j.toNat?.map fun v => { c with hiddenSize := v }
  | "activator" => (choice? Squashing.ofName? j).map fun v => { c with squashing := v }
  | "pad" => j.toFloat?.map fun v => { c with pad := v }
  | "rule" => (choice? Rule.ofName? j).map fun v => { c with rule := v }
  | "orthogonal" => j.toBool?.map fun v => { c with orthogonal := v }
  | "pointer_slots" => j.toNat?.map fun v => { c with pointerSlots := v }
  | "seed" => j.toNat?.map fun v => { c with seed := UInt64.ofNat v }
  | "max_ticks" => j.toNat?.map fun v => { c with maxTicks := v }
  | _ => some c

/-- Sets fields one after the other. -/
def setFields? (c : Config Float) : List (String × Json) → Option (Config Float)
  | [] => some c
  | (field, j) :: rest => do setFields? (← c.setField? field j) rest

/-- The configuration that a JSON value stands for. -/
def ofJson? (j : Json) : Option (Config Float) :=
  match j with
  | .list values =>
    if values.length ≤ fieldNames.length then standard.setFields? (fieldNames.zip values) else none
  | j => do
    let fields ← j.fields?
    let known := (fields.map (·.1)).filter fieldNames.contains
    if known.eraseDups.length = known.length then standard.setFields? fields else none

/-- The valid configuration that a text writes. -/
def read (text : String) : Except (Fault Float) (Config Float) :=
  match (Json.parse? text).bind ofJson? with
  | none => .error .malformed
  | some c => do
    c.validate
    return c

end Engram.Config
