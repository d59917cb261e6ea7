/-
  Engram.Decimal.Shortest — the shortest decimal that reads back as a given double.

  A double stands for every real number that rounds to it: an interval around its own value,
  whose ends belong to it when its significand is even. Multiples of 10^k form a grid, and a
  coarser grid is part of a finer one, so the coarsest grid with a point in the interval is
  found by trying one k after the other; if both neighbours of the value on that grid lie in
  the interval, the nearer is taken. All of this is exact arithmetic on natural numbers.
-/

namespace Engram

/-- A decimal number `± digits · 10^scale`. -/
structure Decimal where
  negative : Bool
  digits : Nat
  scale : Int
  deriving DecidableEq, Repr

namespace Decimal

/-- The numbers that round to one positive double: from `low` to `high`, around `value`, all
three over the denominator `unit`. -/
structure Interval where
  low : Nat
  value : Nat
  high : Nat
  unit : Nat
  closed : Bool

namespace Interval

/-- The interval of `m · 2^q`; `narrow` if the next double below is half as far as the one
above. -/
def around (m : Nat) (q : Int) (narrow : Bool) : Interval :=
  let scaleUp := Nat.pow 2 (q - 2).toNat
  { low := (4 * m - if narrow then 1 else 2) * scaleUp
    value := 4 * m * scaleUp
    high := (4 * m + 2) * scaleUp
    unit := Nat.pow 2 (2 - q).toNat
    closed := m % 2 == 0 }

/-- Whether `n · 10^k`, which is `n · up / down` for the powers `up` and `down` of ten, lies in
the interval. -/
def holds (i : Interval) (up down n : Nat) : Bool :=
  let x := n * up * i.unit
  let lo := i.low * down
  let hi := i.high * down
  if i.closed then decide (lo ≤ x) && decide (x ≤ hi) else decide (lo < x) && decide (x < hi)

/-- The multiple of 10^k in the interval that is nearest to the value, if there is one; of two
equally near ones the even. -/
def onGrid? (i : Interval) (k : Int) : Option Nat :=
  let up := Nat.pow 10 k.toNat
  let down := Nat.pow 10 (-k).toNat
  let step := up * i.unit
  let target := i.value * down
  let below := target / step
  let above := below + 1
  match i.holds up down below, i.holds up down above with
  | true, false => some below
  | false, true => some above
  | false, false => none
  | true, true =>
    let rest := target % step
    if 2 * rest < step then some below
    else if step < 2 * rest then some above
    else some (if below % 2 == 0 then below else above)

/-- From a point on the grid of 10^k, the point on the coarsest grid that has one, trying at
most the given number of coarser grids. -/
def coarsen (i : Interval) : Nat → Nat → Int → Nat × Int
  | 0, n, k => (n, k)
  | tries + 1, n, k =>
    match i.onGrid? (k + 1) with
    | none => (n, k)
    | some n => coarsen i tries n (k + 1)

end Interval

/-- The shortest decimal in the interval of `m · 2^q`. The first grid has at least seventeen
digits for the value, and no double needs more. -/
def ofBinary (m : Nat) (q : Int) (narrow : Bool) : Nat × Int :=
  let i := Interval.around m q narrow
  let exponent : Int := Int.fdiv ((q + (m.log2 : Int)) * 1233) 4096
  let k := exponent - 16
  i.coarsen 24 ((i.onGrid? k).getD 0) k

/-- A double as text shows it. -/
inductive Shown where
  | notANumber
  | infinite (negative : Bool)
  | finite (d : Decimal)

/-- The shortest decimal of a double. -/
def shortest (x : Float) : Shown :=
  let b := x.toBits.toNat
  let negative := b / Nat.pow 2 63 == 1
  let e : Nat := b / Nat.pow 2 52 % 2048
  let f : Nat := b % Nat.pow 2 52
  if e == 2047 then (if f == 0 then .infinite negative else .notANumber)
  else if e == 0 && f == 0 then .finite ⟨negative, 0, 0⟩
  else
    let m := if e == 0 then f else Nat.pow 2 52 + f
    let q : Int := (if e == 0 then 1 else (e : Int)) - 1075
    let (n, k) := ofBinary m q (f == 0 && decide (1 < e))
    .finite ⟨negative, n, k⟩

def zeros (n : Nat) : String := String.ofList (List.replicate n '0')

/-- The number written without an exponent, and without a point when it is whole. -/
def positional (d : Decimal) : String :=
  let sign := if d.negative then "-" else ""
  let text := toString d.digits
  let point : Int := text.length + d.scale
  if d.digits = 0 then sign ++ "0"
  else if 0 ≤ d.scale then sign ++ text ++ zeros d.scale.toNat
  else if 0 < point then
    sign ++ String.ofList (text.toList.take point.toNat) ++ "." ++ String.ofList (text.toList.drop point.toNat)
  else sign ++ "0." ++ zeros (-point).toNat ++ text

/-- The number with a point, and with an exponent below 10^-5 and from 10^16 on. -/
def compact (d : Decimal) : String :=
  let sign := if d.negative then "-" else ""
  let text := toString d.digits
  let point : Int := text.length + d.scale
  if d.digits = 0 then sign ++ "0.0"
  else if -5 < point ∧ point ≤ 16 then
    if 0 ≤ d.scale then sign ++ text ++ zeros d.scale.toNat ++ ".0" else d.positional
  else
    let lead := String.ofList (text.toList.take 1)
    let rest := String.ofList (text.toList.drop 1)
    sign ++ lead ++ (if rest.isEmpty then "" else "." ++ rest) ++ "e" ++ toString (point - 1)

/-- A double in a message: never an exponent, no point in a whole number. -/
def text (x : Float) : String :=
  match shortest x with
  | .notANumber => "NaN"
  | .infinite negative => if negative then "-inf" else "inf"
  | .finite d => d.positional

end Decimal

end Engram
