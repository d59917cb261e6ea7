/-
  Engram.CommandLine.Options — the arguments of the command line.

  Arguments are read from left to right up to the first that is wrong or asks for help.
-/

import Engram.Text.Blank

namespace Engram.CommandLine

/-- The step limit unless another is given. -/
def standardSteps : Nat := 1000

structure Options where
  verbose : Bool := false
  config : Option String := none
  /-- Registers and the tokens they hold at first, in order. -/
  registers : List (String × String) := []
  maxSteps : Nat := standardSteps
  dump : Option String := none
  program : Option String := none

/-- Why the arguments cannot be used. -/
inductive Misuse where
  | missingValue (option : String)
  | notNumber (given : String)
  | notAssignment (given : String)
  | unknownOption (given : String)
  | extraArgument (given : String)
  | noProgram
  deriving DecidableEq, Repr

def Misuse.message : Misuse → String
  | missingValue option => option ++ " expects a value"
  | notNumber given => "--max-steps expects a number, got " ++ given
  | notAssignment given => "--set expects REG=TOKEN, got " ++ given
  | unknownOption given => "Unknown option: " ++ given
  | extraArgument given => "Unexpected argument: " ++ given
  | noProgram => "No program specified"

/-- A natural number below 2^64 in decimal digits, with or without a plus sign. -/
def number? (s : String) : Option Nat :=
  let digits := match s.toList with
    | '+' :: rest => rest
    | cs => cs
  if digits.isEmpty || !digits.all Char.isDigit then none
  else
    let n := digits.foldl (fun n c => n * 10 + (c.toNat - 48)) 0
    if n < Nat.pow 2 64 then some n else none

/-- A register and a token around the first equals sign. -/
def assignment? (s : String) : Option (String × String) :=
  let cs := s.toList
  if cs.contains '=' then
    some (String.ofList (cs.takeWhile (· != '=')), String.ofList ((cs.dropWhile (· != '=')).drop 1))
  else none

/-- Reads arguments into options; nothing if they ask for help. -/
def Options.read (o : Options) : List String → Except Misuse (Option Options)
  | [] => if o.program.isSome then .ok (some o) else .error .noProgram
  | "-v" :: rest | "--verbose" :: rest => { o with verbose := true }.read rest
  | "-h" :: _ | "--help" :: _ => .ok none
  | "--config" :: rest =>
    match rest with
    | [] => .error (.missingValue "--config")
    | path :: rest => { o with config := some path }.read rest
  | "--dump" :: rest =>
    match rest with
    | [] => .error (.missingValue "--dump")
    | path :: rest => { o with dump := some path }.read rest
  | "--max-steps" :: rest =>
    match rest with
    | [] => .error (.missingValue "--max-steps")
    | given :: rest =>
      match number? given with
      | none => .error (.notNumber given)
      | some n => { o with maxSteps := n }.read rest
  | "--set" :: rest =>
    match rest with
    | [] => .error (.missingValue "--set")
    | given :: rest =>
      match assignment? given with
      | none => .error (.notAssignment given)
      | some a => { o with registers := o.registers ++ [a] }.read rest
  | arg :: rest =>
    if arg.toList.head? = some '-' then .error (.unknownOption arg)
    else if o.program.isSome then .error (.extraArgument arg)
    else { o with program := some arg }.read rest

/-- The name of the last component of a path, if it has one. -/
def fileName? (path : List Char) : Option (List Char) :=
  let components := (path.splitBy fun a b => a != '/' && b != '/').filter fun c =>
    c.all (· != '/') && c != ['.']
  match components.getLast? with
  | some c => if c = ['.', '.'] then none else some c
  | none => none

/-- A file name without what follows its last dot; a dot in front counts as part of the name. -/
def stem (name : List Char) : List Char :=
  let back := name.reverse
  if back.contains '.' then
    let front := (back.dropWhile (· != '.')).drop 1
    if front.isEmpty then name else front.reverse
  else name

/-- The name of the program in a file. -/
def programName (path : String) : String :=
  let name := ((fileName? path.toList).map stem).getD ['m', 'a', 'i', 'n']
  let name := name.map fun c => if c == '.' || c == ':' || Text.isBlank c then '_' else c
  if name.isEmpty then "main" else String.ofList name

end Engram.CommandLine
