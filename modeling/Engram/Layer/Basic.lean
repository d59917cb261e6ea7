/-
  Engram.Layer.Basic — a named layer: its units, its activator and its code book.
-/

import Engram.Layer.CodeBook

namespace Engram

structure Layer (α : Type) where
  name : String
  book : CodeBook α

namespace Layer

variable {α : Type} [Scalar α]

def new (name : String) (size : Nat) (activator : Activator α) (seed : UInt64) : Layer α :=
  ⟨name, .new size activator seed⟩

/-- A layer without units or tokens. -/
def absent : Layer α := .new "" 0 .standard 0

def size (l : Layer α) : Nat := l.book.size

def activator (l : Layer α) : Activator α := l.book.activator

/-- The activity with every unit at the midpoint. -/
def blank (l : Layer α) : Pattern α := Array.replicate l.size l.activator.midpoint

def bits (l : Layer α) (p : Pattern α) : Bits := l.activator.bits p

def decode (l : Layer α) (p : Pattern α) : String := l.book.decode p

def tokens (l : Layer α) : List String := l.book.tokens

def pattern? (l : Layer α) (token : String) : Option (Pattern α) := l.book.pattern? token

def knows (l : Layer α) (token : String) : Bool := l.book.knows token

def bind (l : Layer α) (token : String) (p : Pattern α) : Layer α := { l with book := l.book.bind token p }

def encode (l : Layer α) (token : String) : Pattern α × Layer α :=
  let (p, book) := l.book.encode token
  (p, { l with book })

def encodeAll (l : Layer α) (orthogonal : Bool) (tokens : List String) :
    Except (Fault α) (List (Pattern α)) × Layer α :=
  let (r, book) := l.book.encodeAll orthogonal l.name tokens
  (r, { l with book })

end Layer

end Engram
