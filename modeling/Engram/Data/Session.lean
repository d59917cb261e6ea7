/-
  Engram.Data.Session — programs as the weights of data pathways.

  A program `p` of n lines gets tokens on the instruction pointer: its name, which is the entry,
  one token for each line, `p.0` to `p.(n-1)` with equally many digits, and its labels, which
  share the pattern that loads their line. The pattern that loads line l is the one reached after
  line l - 1, or the entry; so the pathways learn

    ip <- ip               the pattern that loads line l to that of line l
    opc, op1, op2 <- ip    the pattern that loads line l to the fields of line l
    data pathways          each token that both layers know to itself

  A session keeps the associations of all its programs, and writes every pathway over all of
  them whenever a program is added.
-/

import Engram.Data.PairMap

namespace Engram

open LayerId

structure Session (α : Type) where
  network : Network α
  pairs : PairMap α
  /-- Names of the programs, in the order in which they were first added. -/
  programs : List String

/-- The weights that adding a program leaves, and how many associations they miss. -/
structure Assembly (α : Type) where
  weights : Weights α
  errors : Nat

/-- An operation on a session that can fail. What it did before it failed stays done. -/
abbrev Assembling (α β : Type) := ExceptT (Fault α) (StateT (Session α) Noted) β

namespace Session

/-- A number with zeros in front, up to the given count of digits. -/
def padded (width n : Nat) : String :=
  let digits := (toString n).toList
  String.ofList (List.replicate (width - digits.length) '0' ++ digits)

/-- The token of a line, where all line numbers have the given count of digits. -/
def lineToken (name : String) (width line : Nat) : String := name ++ "." ++ padded width line

/-- The digits that number so many lines from zero. -/
def lineDigits (lines : Nat) : Nat := (toString (lines - 1)).length

/-- The instruction pointer tokens of a program: the entry, then one for each line. -/
def pointerTokens (name : String) (lines : Nat) : List String :=
  name :: (List.range lines).map (lineToken name (lineDigits lines))

/-- Whether a name can be the name of a program, so that it looks like no line or label token. -/
def isProgramName (name : String) : Bool :=
  !name.isEmpty && !name.toList.any fun c => c == '.' || c == ':' || Text.isBlank c

variable {α : Type} [Scalar α]

def new (n : Network α) : Session α := ⟨n, {}, []⟩

/-- The patterns of tokens on a layer. -/
def encode (layer : LayerId) (orthogonal : Bool) (tokens : List String) : Assembling α (Columns α) := do
  let s ← get
  let (r, network) := s.network.encodeAll layer orthogonal tokens
  set { s with network }
  liftM r

/-- Stores associations of a pathway. -/
def learn (p : Pathway) (x y : Columns α) : Assembling α Unit := do
  let s ← get
  match s.pairs.add? s.network p x y with
  | .ok pairs => set { s with pairs }
  | .error e => throw (.breach e)

/-- The layers that the fields of an instruction are loaded into. -/
def fieldLayers : List (Field × LayerId) := [(.opcode, opc), (.first, op1), (.second, op2)]

/-- The pathways that carry tokens between layers. -/
def dataPathways (registers : List LayerId) : List Pathway :=
  registers.flatMap (fun r => registers.map (⟨r, ·⟩) ++ [⟨r, op2⟩, ⟨ci, r⟩, ⟨ip, r⟩]) ++
  [⟨ci, op2⟩, ⟨ip, op1⟩]

/-- The tokens that both layers of a pathway know. -/
def shared (n : Network α) (p : Pathway) : List String :=
  (n.layer p.source).tokens.filter (n.layer p.target).knows

/-- Learns each shared token of a pathway to itself. -/
def learnShared (p : Pathway) : Assembling α Unit := do
  let tokens := shared (← get).network p
  unless tokens.isEmpty do
    let x ← encode p.source false tokens
    let y ← encode p.target false tokens
    learn p x y

/-- Notes the name of a program. -/
def enrol (name : String) : Assembling α Unit := do
  let s ← get
  if s.programs.contains name then
    liftM (Noted.warn ("program " ++ name ++ " assembled again, earlier pairs are overridden"))
  else set { s with programs := s.programs ++ [name] }

/-- Gives a label the pattern that loads its line. -/
def bindLabel (patterns : Columns α) (label : String × Nat) : Assembling α Unit :=
  modify fun s =>
    { s with network := s.network.bindToken ip label.1 (patterns.patterns.getD label.2 #[]) }

/-- Writes every pathway over all associations. -/
def flash (name : String) (verbose : Bool) : Assembling α (Assembly α) := do
  let s ← get
  let (weights, errors) ← liftM (s.pairs.flash s.network fun p errors count =>
    name ++ ": pathway " ++ s.network.pathwayName p ++ " recalls " ++ toString errors ++ " of " ++
      toString count ++ " pairs wrong")
  let done := name ++ ": " ++ toString weights.size ++ " pathways flashed, " ++ toString errors ++ " errors"
  liftM (if verbose then Noted.info done else Noted.debug done)
  return ⟨weights, errors⟩

/-- Gives patterns to the tokens of a program whose labels are scoped, and stores what the
pathways have to learn of it. -/
def learnProgram (program : Program) (name : String) (orthogonal : Bool) : Assembling α Unit := do
  let n := (← get).network
  let literals := program.literals n.registerNames
  (ci :: n.registers).forM fun layer => do
    let _ ← encode layer orthogonal literals
  [(Field.first, op1), (.second, op2)].forM fun (f, layer) => do
    let _ ← encode layer orthogonal (program.fieldTokens f)
  let pointers ← encode ip orthogonal (pointerTokens name program.size)
  program.sortedLabels.forM (bindLabel pointers)
  let current := { pointers with patterns := pointers.patterns.take program.size }
  learn ⟨ip, ip⟩ current { pointers with patterns := pointers.patterns.drop 1 }
  fieldLayers.forM fun (f, layer) => do
    let targets ← encode layer false (program.instructions.map (·.field f))
    learn ⟨layer, ip⟩ current targets
  (dataPathways n.registers).forM learnShared

/-- Adds a program under a name and writes every pathway of the session. -/
def assemble (program : Program) (name : String) (orthogonal verbose : Bool) : Assembling α (Assembly α) := do
  unless isProgramName name do throw (.config (.programName name))
  if program.isEmpty then throw (.config (.emptyProgram name))
  enrol name
  learnProgram (program.withScope name) name orthogonal
  flash name verbose

end Session

end Engram
