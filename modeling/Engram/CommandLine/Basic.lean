/-
  Engram.CommandLine.Basic — running one program from the command line.

  The status is 0 if the program reached `exit`, 1 if it stalled or met the step limit, and 2 if
  the arguments are wrong, a file cannot be used, or the machine cannot be built.
-/

import Engram.CommandLine.Options
import Engram.Machine.Run
import Engram.Storage.Documents

namespace Engram.CommandLine

/-- What a run leaves: its status, and the lines it printed to the two outputs. -/
structure Report where
  status : Nat
  out : List String := []
  err : List String := []

namespace Report

def failure (line : String) : Report := { status := 2, err := [line] }

/-- The report with lines printed before. -/
def after (r : Report) (out err : List String) : Report := { r with out := out ++ r.out, err := err ++ r.err }

end Report

def help : List String :=
  ["nvm-run - run a program on the neural virtual machine",
   "",
   "USAGE:",
   "    nvm-run [OPTIONS] <PROGRAM>",
   "",
   "OPTIONS:",
   "    -v, --verbose         Print the machine state after every instruction",
   "    --config <FILE>       JSON configuration (defaults otherwise)",
   "    --set <REG=TOKEN>     Initial register value, repeatable",
   "    --max-steps <N>       Instruction limit (default " ++ toString standardSteps ++ ")",
   "    --dump <FILE>         Write the final weights as JSON",
   "    -h, --help            Show this help",
   "",
   "EXIT CODES:",
   "    0  program exited",
   "    1  program stalled or hit the step limit",
   "    2  invalid arguments, IO or build error"]

def message (f : Fault Float) : String := f.message Decimal.text

/-- A text with spaces in front up to a width. -/
def rightAligned (width : Nat) (s : String) : String :=
  String.ofList (List.replicate (width - s.length) ' ') ++ s

def registerLines (m : Machine Float) : List String :=
  m.network.registers.map fun r => "  " ++ m.network.name r ++ " = " ++ m.holding r

/-- Runs instructions, after `done` of them. -/
def execute (verbose : Bool) (m : Machine Float) (done : Nat) : Nat → Report × Machine Float
  | 0 => ({ status := 1, out := registerLines m,
            err := ["step limit " ++ toString done ++ " reached"] }, m)
  | budget + 1 =>
    let (outcome, m) := (m.step m.config.maxTicks).value
    let steps := toString (done + 1)
    match outcome with
    | .exited _ => ({ status := 0, out := ("exited after " ++ steps ++ " steps") :: registerLines m }, m)
    | .stalled ticks =>
      ({ status := 1, err := ["stalled at step " ++ steps ++ " after " ++ toString ticks ++ " ticks",
                              "  " ++ m.stateText] }, m)
    | .completed ticks =>
      let line := "[" ++ rightAligned 4 steps ++ "] " ++ rightAligned 3 (toString ticks) ++
        " ticks  " ++ m.stateText
      let (report, m) := execute verbose m (done + 1) budget
      (report.after (if verbose then [line] else []) [], m)

/-- The machine with the program loaded and the warnings so far, or the line that says why there
is none. -/
def prepare (o : Options) (config : Config Float) (path source : String) :
    Except String (Machine Float × List String) := do
  let name := programName path
  let m ← match (Machine.build config).value with
    | .ok m => pure m
    | .error e => throw ("Error building machine: " ++ message e)
  let (errors, m) ← match (m.assemble source name).value with
    | (.ok errors, m) => pure (errors, m)
    | (.error e, _) => throw (path ++ ": " ++ message e)
  let warnings := if errors > 0 then ["warning: " ++ toString errors ++ " recall errors in " ++ name] else []
  match (m.load name o.registers).value with
  | (.ok (), m) => return (m, warnings)
  | (.error e, _) => throw ("\n".intercalate (warnings ++ ["Error loading " ++ name ++ ": " ++ message e]))

/-- The configuration that the options name. -/
def config {m : Type → Type} [Monad m] (files : Files m) (o : Options) : m (Except String (Config Float)) := do
  match o.config with
  | none => return .ok .standard
  | some path =>
    let c ← Config.load files path
    return c.mapError fun e => "Error loading config " ++ path ++ ": " ++ message e

/-- Runs the program that the options name. -/
def start {m : Type → Type} [Monad m] (files : Files m) (o : Options) (path : String) : m Report := do
  match ← config files o with
  | .error line => return .failure line
  | .ok c =>
    match ← files.read path with
    | .error e => return .failure ("Error reading " ++ path ++ ": " ++ e.message)
    | .ok source =>
      match prepare o c path source with
      | .error line => return .failure line
      | .ok (machine, warnings) =>
        let heading := toString machine.network.layers.size ++ " layers, " ++
          toString machine.weights.size ++ " pathways, " ++ toString machine.buildErrors ++ " build errors"
        let (report, machine) := execute o.verbose machine 0 o.maxSteps
        let report := report.after (if o.verbose then [heading] else []) warnings
        match o.dump with
        | none => return report
        | some dump =>
          match (← machine.network.saveWeights machine.weights files dump).value with
          | .ok () => return report
          | .error e =>
            return { report with
              status := 2
              err := report.err ++ ["Error writing " ++ dump ++ ": " ++ message e] }

/-- Runs the command line. -/
def run {m : Type → Type} [Monad m] (files : Files m) (args : List String) : m Report := do
  match Options.read {} args with
  | .error misuse => return { status := 2, err := ["Error: " ++ misuse.message, ""] ++ help }
  | .ok none => return { status := 0, err := help }
  | .ok (some o) => start files o (o.program.getD "")

end Engram.CommandLine
