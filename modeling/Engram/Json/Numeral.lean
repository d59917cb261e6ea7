/-
  Engram.Json.Numeral — numbers as JSON writes them, and the double a numeral stands for.

  The digits of a numeral are gathered into a significand below 2^64. From the first digit
  that does not fit, digits before the point each count as a power of ten, and digits after it
  are dropped. The double is the significand, rounded, then multiplied or divided by a power of
  ten; a numeral whose double would be infinite stands for no number.
-/

import Engram.Decimal.Shortest

namespace Engram.Json

/-- `± significand · 10^scale`; `whole` if it was written without a point and exponent and with
every digit in the significand. -/
structure Numeral where
  negative : Bool
  significand : Nat
  scale : Int
  whole : Bool
  deriving DecidableEq, Repr

def limit : Nat := Nat.pow 2 64

/-- Gathers the digits before the point; returns the rest of the text. -/
def gatherWhole (significand : Nat) (scale : Int) : List Char → Nat × Int × List Char
  | [] => (significand, scale, [])
  | c :: rest =>
    if c.isDigit then
      let grown := significand * 10 + (c.toNat - 48)
      if scale = 0 ∧ grown < limit then gatherWhole grown 0 rest
      else gatherWhole significand (scale + 1) rest
    else (significand, scale, c :: rest)

/-- Gathers the digits after the point; `full` once one did not fit. -/
def gatherFraction (significand : Nat) (scale : Int) (full : Bool) : List Char → Nat × Int × List Char
  | [] => (significand, scale, [])
  | c :: rest =>
    if c.isDigit then
      let grown := significand * 10 + (c.toNat - 48)
      if !full && decide (grown < limit) then gatherFraction grown (scale - 1) false rest
      else gatherFraction significand scale true rest
    else (significand, scale, c :: rest)

/-- Reads the digits of a natural number. -/
def gatherNat (n : Nat) : List Char → Nat × List Char
  | [] => (n, [])
  | c :: rest => if c.isDigit then gatherNat (n * 10 + (c.toNat - 48)) rest else (n, c :: rest)

def startsWithDigit : List Char → Bool
  | c :: _ => c.isDigit
  | [] => false

/-- The part after a point, which needs a digit, if there is one. -/
def fraction? (x : Numeral) : List Char → Option (Numeral × List Char)
  | '.' :: rest =>
    if startsWithDigit rest then
      let (s, k, rest) := gatherFraction x.significand x.scale false rest
      some ({ x with significand := s, scale := k, whole := false }, rest)
    else none
  | rest => some (x, rest)

/-- The digits of an exponent, which are at least one. -/
def exponentDigits? (x : Numeral) (negative : Bool) (cs : List Char) : Option (Numeral × List Char) :=
  if startsWithDigit cs then
    let (e, rest) := gatherNat 0 cs
    some ({ x with scale := x.scale + (if negative then -(e : Int) else e), whole := false }, rest)
  else none

/-- The exponent, if there is one. -/
def exponent? (x : Numeral) : List Char → Option (Numeral × List Char)
  | [] => some (x, [])
  | c :: rest =>
    if c = 'e' ∨ c = 'E' then
      match rest with
      | '+' :: more => exponentDigits? x false more
      | '-' :: more => exponentDigits? x true more
      | more => exponentDigits? x false more
    else some (x, c :: rest)

/-- The digits before the point: a lone zero, or digits that start with another. -/
def wholePart? (negative : Bool) : List Char → Option (Numeral × List Char)
  | [] => none
  | c :: rest =>
    if c = '0' then
      if startsWithDigit rest then none else some (⟨negative, 0, 0, true⟩, rest)
    else if c.isDigit then
      let (s, k, rest) := gatherWhole 0 0 (c :: rest)
      some (⟨negative, s, k, k == 0⟩, rest)
    else none

/-- A number at the front of a text, and the text after it. -/
def numeral? (cs : List Char) : Option (Numeral × List Char) := do
  let (x, rest) ← match cs with
    | '-' :: rest => wholePart? true rest
    | rest => wholePart? false rest
  let (x, rest) ← fraction? x rest
  exponent? x rest

namespace Numeral

def ofNat (n : Nat) : Numeral := ⟨false, n, 0, true⟩

def ofInt (i : Int) : Numeral := ⟨decide (i < 0), i.natAbs, 0, true⟩

/-- The power of ten nearest to 10^k, for k up to 308. -/
def powerOfTen (k : Nat) : Float := OfScientific.ofScientific 1 false k

/-- `x / 10^k`, by steps that stay in range. -/
def divideByPower (x : Float) (k : Nat) : Float :=
  if k ≤ 308 then x / powerOfTen k
  else if x == 0.0 then x
  else divideByPower (x / powerOfTen 308) (k - 308)
termination_by k

/-- The double that the numeral stands for. -/
def toFloat? (x : Numeral) : Option Float :=
  let s := (UInt64.ofNat x.significand).toFloat
  let magnitude : Option Float :=
    if x.scale < 0 then some (divideByPower s (-x.scale).toNat)
    else if x.scale ≤ 308 then
      let y := s * powerOfTen x.scale.toNat
      if y.isInf then none else some y
    else if x.significand = 0 then some s
    else none
  magnitude.map fun y => if x.negative then -y else y

/-- The natural number that the numeral is written as, if it is one. -/
def toNat? (x : Numeral) : Option Nat :=
  if x.whole && !x.negative then some x.significand else none

/-- The numeral of a double that is a number. -/
def ofFloat? (x : Float) : Option Numeral :=
  match Decimal.shortest x with
  | .finite d => some ⟨d.negative, d.digits, d.scale, false⟩
  | _ => none

def text (x : Numeral) : String :=
  if x.whole then (if x.negative then "-" else "") ++ toString x.significand
  else Decimal.compact ⟨x.negative, x.significand, x.scale⟩

end Numeral

end Engram.Json
