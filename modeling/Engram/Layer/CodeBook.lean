/-
  Engram.Layer.CodeBook — tokens of a layer and the patterns that stand for them.

  A token is bound to a pattern when it is first encoded, and keeps it until it is bound to
  another one explicitly. A new pattern comes from one of two families: random bits, drawn
  again when they already stand for a token, or the columns of a Sylvester matrix in random
  order with each unit's sign flipped at random, of which there are as many as units and which
  exist for powers of two only.

  An activity decodes to the token that was bound last among those whose pattern had the same
  bits when it was bound; if there is none, to `?`.
-/

import Engram.Fault
import Engram.Layer.Activator
import Engram.Layer.Sylvester
import Engram.Random

namespace Engram

/-- What an activity decodes to that stands for no token. -/
def unknownToken : String := "?"

/-- The orthogonal patterns of a layer that have not been used. -/
structure OrthogonalFamily where
  /-- The units whose sign is kept. -/
  signs : Bits
  /-- The columns in the order in which they are used. -/
  order : List Nat
  /-- How many columns have been used. -/
  used : Nat

structure CodeBook (α : Type) where
  size : Nat
  activator : Activator α
  stream : Random.Stream
  /-- Tokens in the order in which they were first bound, with their patterns. -/
  bindings : List (String × Pattern α)
  /-- The bits of every pattern that was ever bound, with its token, latest first. -/
  history : List (Bits × String)
  family : Option OrthogonalFamily

/-- Binds a key in a list of pairs: a new key goes to the end. -/
def bindKey {β : Type} (key : String) (value : β) : List (String × β) → List (String × β)
  | [] => [(key, value)]
  | entry :: rest => if entry.1 = key then (key, value) :: rest else entry :: bindKey key value rest

namespace CodeBook

variable {α : Type} [Scalar α]

def new (size : Nat) (activator : Activator α) (seed : UInt64) : CodeBook α :=
  ⟨size, activator, .ofSeed seed, [], [], none⟩

/-- Known tokens, in the order in which they were first bound. -/
def tokens (b : CodeBook α) : List String := b.bindings.map (·.1)

def pattern? (b : CodeBook α) (token : String) : Option (Pattern α) := b.bindings.lookup token

def knows (b : CodeBook α) (token : String) : Bool := (b.pattern? token).isSome

def decodeBits (b : CodeBook α) (bits : Bits) : String := (b.history.lookup bits).getD unknownToken

def decode (b : CodeBook α) (p : Pattern α) : String := b.decodeBits (b.activator.bits p)

/-- Binds a token to a pattern. -/
def bind (b : CodeBook α) (token : String) (p : Pattern α) : CodeBook α :=
  { b with bindings := bindKey token p b.bindings, history := (b.activator.bits p, token) :: b.history }

/-- Random bits that stand for no token yet, if a number of draws finds any, else the last ones
drawn. -/
def drawBits (history : List (Bits × String)) (size : Nat) : Nat → Random.Stream → Bits × Random.Stream
  | 0, s => ([], s)
  | draws + 1, s =>
    let (bits, s) := s.bits size
    if draws ≠ 0 ∧ (history.lookup bits).isSome then drawBits history size draws s else (bits, s)

/-- How often random bits are drawn for one pattern. -/
def maxDraws : Nat := 64

/-- A fresh random pattern. -/
def drawRandom (b : CodeBook α) : Pattern α × CodeBook α :=
  let (bits, stream) := drawBits b.history b.size maxDraws b.stream
  (b.activator.pattern bits, { b with stream })

/-- The pattern of a token, fresh random bits if it is new. -/
def encode (b : CodeBook α) (token : String) : Pattern α × CodeBook α :=
  match b.pattern? token with
  | some p => (p, b)
  | none =>
    let (p, b) := b.drawRandom
    (p, b.bind token p)

/-- Draws the signs and the column order of the orthogonal patterns. -/
def drawFamily (size : Nat) (s : Random.Stream) : OrthogonalFamily × Random.Stream :=
  let (signs, s) := s.bits size
  let (order, s) := s.shuffle (Array.range size)
  (⟨signs, order.toList, 0⟩, s)

/-- The bits of a column of the family. -/
def OrthogonalFamily.bits (f : OrthogonalFamily) (column : Nat) : Bits :=
  f.signs.mapIdx fun i sign => sign != Sylvester.isNegative i column

/-- The next orthogonal pattern. The family is drawn when it is first needed. -/
def drawOrthogonal (b : CodeBook α) (layer : String) : Except (Fault α) (Pattern α) × CodeBook α :=
  if !Sylvester.isPowerOfTwo b.size then (.error (.config (.patternSize layer b.size)), b)
  else
    let (f, stream) := match b.family with
      | some f => (f, b.stream)
      | none => drawFamily b.size b.stream
    let b := { b with stream, family := some f }
    match f.order[f.used]? with
    | none => (.error (.exhausted layer (f.used + 1) b.size), b)
    | some column =>
      (.ok (b.activator.pattern (OrthogonalFamily.bits f column)),
        { b with family := some { f with used := f.used + 1 } })

/-- The pattern of a token, from the given family if it is new. -/
def encodeFrom (b : CodeBook α) (orthogonal : Bool) (layer token : String) :
    Except (Fault α) (Pattern α) × CodeBook α :=
  match b.pattern? token with
  | some p => (.ok p, b)
  | none =>
    match if orthogonal then b.drawOrthogonal layer else b.drawRandom.map Except.ok id with
    | (.ok p, b) => (.ok p, b.bind token p)
    | (.error e, b) => (.error e, b)

/-- A pattern as a column of a batch: one unit alone fills the column. -/
def column (size : Nat) (p : Pattern α) : Except Breach (Pattern α) :=
  if p.size = size then .ok p
  else match p[0]? with
    | some v => if p.size = 1 then .ok (Array.replicate size v) else .error .dimensions
    | none => .error .dimensions

/-- The patterns of several tokens, in their order. Tokens encoded before a failure stay bound. -/
def encodeAll (b : CodeBook α) (orthogonal : Bool) (layer : String) :
    List String → Except (Fault α) (List (Pattern α)) × CodeBook α
  | [] => (.ok [], b)
  | token :: rest =>
    match b.encodeFrom orthogonal layer token with
    | (.error e, b) => (.error e, b)
    | (.ok p, b) =>
      match column b.size p with
      | .error e => (.error (.breach e), b)
      | .ok p =>
        match encodeAll b orthogonal layer rest with
        | (.ok ps, b) => (.ok (p :: ps), b)
        | (.error e, b) => (.error e, b)

end CodeBook

end Engram
