/-
  Engram.Association.Flash — writing a batch of associations into a connection at once.

  The targets are pulled back through the squashing function, which leaves a linear system for
  weights and bias. The inputs are centred on the midpoint of their layer and extended by a
  constant unit that carries the bias. What the connection does not produce yet, the residual
  `E`, is written by one of two rules, with `X` the extended inputs:

    hebbian     adds  Σ e xᵀ / |x|²        exact for inputs that are orthogonal to each other
    rehebbian   adds  E (Xᵀ X)⁻¹ Xᵀ        exact for inputs that are linearly independent

  The second inverts `Xᵀ X` with a small multiple of the identity added, the ridge; it is made
  larger when the matrix cannot be factored, and after the last attempt nothing is added.
-/

import Engram.Association.Basic
import Engram.Linear.Cholesky
import Engram.Notice

namespace Engram

inductive Rule where
  | hebbian
  | rehebbian
  deriving DecidableEq, Repr

namespace Rule

def name : Rule → String
  | hebbian => "hebbian"
  | rehebbian => "rehebbian"

def ofName? : String → Option Rule
  | "hebbian" => some hebbian
  | "rehebbian" => some rehebbian
  | _ => none

theorem ofName?_name (r : Rule) : ofName? r.name = some r := by cases r <;> rfl

end Rule

/-- What a flash leaves. -/
structure Flash (α : Type) where
  connection : Connection α
  /-- How many associations of the batch are missed afterwards. -/
  errors : Nat
  /-- Whether the system of the batch could be solved. -/
  solved : Bool

namespace Association

variable {α : Type} [Scalar α]

/-- An input around zero, with the constant unit. -/
def extend (mid : α) (x : Pattern α) : Pattern α := (x.map (· - mid)).push 1

/-- A row of weights with the bias that makes it act on extended inputs as on plain ones. -/
def extendRow (mid : α) (row : Pattern α) (bias : α) : Pattern α := row.push (bias + row.sum * mid)

/-- Takes the bias out of an extended row again. -/
def reduceRow (mid : α) (row : Pattern α) : Pattern α × α :=
  (row.pop, row.entry (row.size - 1) - row.pop.sum * mid)

/-- The lower triangle of the inner products of the inputs. -/
def gram (inputs : Array (Pattern α)) : Cholesky.Triangle α :=
  inputs.mapIdx fun i x => (inputs.extract 0 (i + 1)).map x.dot

/-- How often the ridge is made larger before the system is given up, counting the first. -/
def maxAttempts : Nat := 12

/-- The factor of the matrix with the given ridge, or the next larger one that works. -/
def factorWithin? (matrix : Cholesky.Triangle α) : Nat → α → Option (Cholesky.Triangle α)
  | 0, _ => none
  | attempts + 1, ridge =>
    match Cholesky.factor? ridge matrix with
    | some l => some l
    | none => factorWithin? matrix attempts (ridge * ((100 : Nat) : α))

/-- The first ridge: a ten-billionth of the largest entry on the diagonal. -/
def firstRidge (matrix : Cholesky.Triangle α) : α :=
  let largest := (Array.range matrix.size).foldl (fun acc i => Scalar.larger acc (Cholesky.entryAt matrix i i)) 0
  Scalar.larger largest Scalar.tiny * (1 / ((10000000000 : Nat) : α))

/-- The coefficients of the inputs in what is added to each row, given the residual of each row;
and whether they could be found. -/
def coefficients (rule : Rule) (inputs residuals : Array (Pattern α)) : Array (Pattern α) × Bool :=
  match rule with
  | .hebbian =>
    let norms := inputs.map fun x => x.dot x
    (residuals.map fun e => e.zipWith (· / ·) norms, true)
  | .rehebbian =>
    let matrix := gram inputs
    match factorWithin? matrix maxAttempts (firstRidge matrix) with
    | some l =>
      let t := Cholesky.turned l
      (residuals.map (Cholesky.solve l t), true)
    | none => (residuals.map fun e => e.map fun _ => 0, false)

/-- Writes the associations of each column of `x` with the same column of `y`. -/
def flash (rule : Rule) (c : Connection α) (x y : Columns α) (source target : Activator α) : Flash α :=
  if x.patterns.isEmpty then ⟨c, 0, true⟩
  else
    let mid := source.midpoint
    let inputs := (x.patterns.map (extend mid)).toArray
    let targets := Matrix.transpose y.height y.patterns.toArray
    let rows := c.weights.rows.mapIdx fun i row => extendRow mid row (c.bias.entry i)
    let residuals := rows.zipWith (fun row goals =>
      goals.zipWith (fun goal input => target.inverse goal - row.dot input) inputs) targets
    let (coefficients, solved) := coefficients rule inputs residuals
    let units := Matrix.transpose (c.weights.width + 1) inputs
    let added := coefficients.map fun z => units.map z.dot
    let reduced := (rows.zipWith Pattern.add added).map (reduceRow mid)
    let weights := Matrix.ofRows c.weights.height c.weights.width (reduced.map (·.1))
    let connection := ⟨weights, reduced.map (·.2)⟩
    ⟨connection, connection.errors target x y, solved⟩

/-- Whether the dimensions of a batch fit a connection. -/
def fits (c : Connection α) (x y : Columns α) : Bool :=
  c.weights.height == y.height && c.weights.width == x.height && c.bias.size == y.height &&
    x.count == y.count

/-- `flash`, refused when the dimensions do not fit, or when a target has to be pulled back and
the levels are out of order. -/
def flash? (rule : Rule) (c : Connection α) (x y : Columns α) (source target : Activator α) :
    Except Breach (Flash α) :=
  if !fits c x y then .error .dimensions
  else if x.count = 0 ∨ y.height = 0 ∨ target.ordered then .ok (flash rule c x y source target)
  else .error .levels

end Association

/-- Warns about a batch of the given count whose system could not be solved. -/
def Flash.note {α : Type} (f : Flash α) (count : Nat) : Noted Unit := do
  unless f.solved do
    Noted.warn ("Gram matrix of " ++ toString count ++
      " columns could not be factored, leaving weights unchanged")

end Engram
