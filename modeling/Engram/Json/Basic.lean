/-
  Engram.Json.Basic — JSON values as trees, and how the text of one is read and written.

  A string value may name a character by two escapes that are the halves of a surrogate pair.
  A half without its partner names no character, and such a string has no text; it is still a
  string where nobody asks for its text, so the tree holds `none` for it.

  The reader is a recursive descent on the nesting depth. What it needs of a list or an object
  is done by loops over the elements, which take the reader of the next depth as an argument.
-/

import Engram.Json.Numeral

namespace Engram

inductive Json where
  | null
  | bool (b : Bool)
  | number (x : Json.Numeral)
  | string (text : Option String)
  | list (items : List Json)
  | object (fields : List (Option String × Json))

namespace Json

def text (s : String) : Json := .string (some s)

def ofNat (n : Nat) : Json := .number (.ofNat n)

def ofInt (i : Int) : Json := .number (.ofInt i)

/-- An object from its fields. -/
def record (fields : List (String × Json)) : Json := .object (fields.map fun f => (some f.1, f.2))

/-! ## Reading -/

def isSpace (c : Char) : Bool := c == ' ' || c == '\n' || c == '\t' || c == '\r'

def skipSpace (cs : List Char) : List Char := cs.dropWhile isSpace

def hexDigit? (c : Char) : Option Nat :=
  if c.isDigit then some (c.toNat - 48)
  else if 'a' ≤ c ∧ c ≤ 'f' then some (c.toNat - 87)
  else if 'A' ≤ c ∧ c ≤ 'F' then some (c.toNat - 55)
  else none

/-- The number that four hexadecimal digits write. -/
def hex4? (a b c d : Char) : Option Nat := do
  let a ← hexDigit? a
  let b ← hexDigit? b
  let c ← hexDigit? c
  let d ← hexDigit? d
  return ((a * 16 + b) * 16 + c) * 16 + d

/-- The character that a letter after a backslash stands for. -/
def escaped? (c : Char) : Option Char :=
  match c with
  | '"' => some '"'
  | '\\' => some '\\'
  | '/' => some '/'
  | 'b' => some '\x08'
  | 'f' => some '\x0c'
  | 'n' => some '\n'
  | 'r' => some '\r'
  | 't' => some '\t'
  | _ => none

def isHighHalf (n : Nat) : Bool := 0xD800 ≤ n && n ≤ 0xDBFF

def isLowHalf (n : Nat) : Bool := 0xDC00 ≤ n && n ≤ 0xDFFF

/-- What the string gathered so far becomes with one more code unit, which follows the code unit
`high` if that waits for the second half of its pair. The characters are in reverse order. -/
def addUnit (high : Option Nat) (unit : Nat) (gathered : Option (List Char)) :
    Option Nat × Option (List Char) :=
  match high with
  | some h =>
    if isLowHalf unit then
      (none, gathered.map (Char.ofNat (0x10000 + (h - 0xD800) * 0x400 + (unit - 0xDC00)) :: ·))
    else (none, none)
  | none =>
    if isHighHalf unit then (some unit, gathered)
    else if isLowHalf unit then (none, none)
    else (none, gathered.map (Char.ofNat unit :: ·))

/-- The rest of a string after its opening quote, and the text after its closing quote. -/
def stringFrom? (high : Option Nat) (gathered : Option (List Char)) :
    List Char → Option (Option String × List Char)
  | [] => none
  | '"' :: rest =>
    let whole := if high.isSome then none else gathered
    some (whole.map fun cs => String.ofList cs.reverse, rest)
  | '\\' :: 'u' :: a :: b :: c :: d :: rest =>
    match hex4? a b c d with
    | none => none
    | some unit =>
      let (high, gathered) := addUnit high unit gathered
      stringFrom? high gathered rest
  | '\\' :: c :: rest =>
    match escaped? c with
    | none => none
    | some x =>
      let gathered := if high.isSome then none else gathered
      stringFrom? none (gathered.map (x :: ·)) rest
  | c :: rest =>
    if c.toNat < 0x20 ∨ c = '\\' then none
    else
      let gathered := if high.isSome then none else gathered
      stringFrom? none (gathered.map (c :: ·)) rest

/-- Takes the given word off the front of a text. -/
def word? : List Char → List Char → Option (List Char)
  | [], rest => some rest
  | w :: ws, c :: rest => if c = w then word? ws rest else none
  | _ :: _, [] => none

/-- A reader of a part of a text: what it read, and the text after it. -/
abbrev Reader (β : Type) := List Char → Option (β × List Char)

/-- Items separated by commas up to `close`, after the first opening bracket and with at least
one item to come. The items read so far are in reverse order; `budget` bounds their number. -/
def itemsFrom? {β : Type} (item : Reader β) (close : Char) : Nat → List β → Reader (List β)
  | 0, _, _ => none
  | budget + 1, done, cs =>
    match item cs with
    | none => none
    | some (x, rest) =>
      match skipSpace rest with
      | [] => none
      | c :: rest =>
        if c = close then some ((x :: done).reverse, rest)
        else if c = ',' then itemsFrom? item close budget (x :: done) rest
        else none

/-- Items separated by commas up to `close`, possibly none. -/
def items? {β : Type} (item : Reader β) (close : Char) (budget : Nat) : Reader (List β) := fun cs =>
  match skipSpace cs with
  | [] => none
  | c :: rest => if c = close then some ([], rest) else itemsFrom? item close budget [] (c :: rest)

/-- A key, a colon and a value. -/
def field? (value : Reader Json) : Reader (Option String × Json) := fun cs =>
  match skipSpace cs with
  | '"' :: rest =>
    match stringFrom? none (some []) rest with
    | none => none
    | some (key, rest) =>
      match skipSpace rest with
      | ':' :: rest => (value rest).map fun (v, rest) => ((key, v), rest)
      | _ => none
  | _ => none

/-- A value nested at most `depth` deep. -/
def value? (budget : Nat) : Nat → Reader Json
  | 0, _ => none
  | depth + 1, cs =>
    match skipSpace cs with
    | [] => none
    | c :: rest =>
      match c with
      | 'n' => (word? ['u', 'l', 'l'] rest).map (null, ·)
      | 't' => (word? ['r', 'u', 'e'] rest).map (bool true, ·)
      | 'f' => (word? ['a', 'l', 's', 'e'] rest).map (bool false, ·)
      | '"' => (stringFrom? none (some []) rest).map fun (s, rest) => (string s, rest)
      | '[' => (items? (value? budget depth) ']' budget rest).map fun (xs, rest) => (list xs, rest)
      | '\x7b' =>
        (items? (field? (value? budget depth)) '\x7d' budget rest).map fun (fs, rest) => (object fs, rest)
      | c => (numeral? (c :: rest)).map fun (x, rest) => (number x, rest)

/-- The value that a whole text writes, with nothing but space around it. -/
def parse? (source : String) : Option Json :=
  let cs := source.toList
  let size := cs.length + 1
  match value? size size cs with
  | some (v, rest) => if (skipSpace rest).isEmpty then some v else none
  | none => none

/-! ## Taking a value apart -/

def text? : Json → Option String
  | .string s => s
  | _ => none

def toNat? : Json → Option Nat
  | .number x => x.toNat?
  | _ => none

def toFloat? : Json → Option Float
  | .number x => x.toFloat?
  | _ => none

def toBool? : Json → Option Bool
  | .bool b => some b
  | _ => none

def list? : Json → Option (List Json)
  | .list xs => some xs
  | _ => none

/-- The fields of an object whose keys all have a text. -/
def fields? : Json → Option (List (String × Json))
  | .object fs => fs.mapM fun f => f.1.map (·, f.2)
  | _ => none

/-! ## Writing -/

/-- How a character is written inside a string. -/
def escape (c : Char) : String :=
  if c = '"' then "\\\""
  else if c = '\\' then "\\\\"
  else if c = '\x08' then "\\b"
  else if c = '\x0c' then "\\f"
  else if c = '\n' then "\\n"
  else if c = '\r' then "\\r"
  else if c = '\t' then "\\t"
  else if c.toNat < 0x20 then
    "\\u00" ++ String.ofList [Nat.digitChar (c.toNat / 16), Nat.digitChar (c.toNat % 16)]
  else String.singleton c

def quote (s : String) : String := s.foldl (fun acc c => acc ++ escape c) "\"" ++ "\""

mutual

/-- The text before it, followed by the value. -/
def writeAfter (acc : String) : Json → String
  | .null => acc ++ "null"
  | .bool b => acc ++ (if b then "true" else "false")
  | .number x => acc ++ x.text
  | .string s => acc ++ quote (s.getD "\ufffd")
  | .list xs => writeItemsAfter (acc ++ "[") true xs ++ "]"
  | .object fs => writeFieldsAfter (acc ++ "\x7b") true fs ++ "\x7d"

def writeItemsAfter (acc : String) (first : Bool) : List Json → String
  | [] => acc
  | x :: xs => writeItemsAfter (writeAfter (if first then acc else acc ++ ",") x) false xs

def writeFieldsAfter (acc : String) (first : Bool) : List (Option String × Json) → String
  | [] => acc
  | (key, x) :: fs =>
    let acc := (if first then acc else acc ++ ",") ++ quote (key.getD "\ufffd") ++ ":"
    writeFieldsAfter (writeAfter acc x) false fs

end

/-- The text of a value, without spaces. -/
def write (v : Json) : String := writeAfter "" v

end Json

end Engram
