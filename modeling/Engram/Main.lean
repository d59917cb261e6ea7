/-
  Engram.Main — the command line over the files of the system.
-/

import Engram.CommandLine.Basic

namespace Engram

/-- Why the system refused a file. -/
def FileFault.ofError : IO.Error → FileFault
  | .noFileOrDirectory .. => .notFound
  | .inappropriateType _ 21 _ => .isDirectory
  | .inappropriateType .. => .notDirectory
  | .invalidArgument (some _) .. => .nameTooLong
  | .permissionDenied .. => .denied
  | e => .other (toString e)

/-- The result of an action on a file. -/
def FileFault.capture {β : Type} (act : IO β) : IO (Except FileFault β) := do
  try
    return .ok (← act)
  catch e => return .error (ofError e)

/-- The files of the system. -/
def systemFiles : Files IO where
  read path := do
    let bytes ← FileFault.capture (IO.FS.readBinFile path)
    return bytes.bind fun b => (String.fromUTF8? b).elim (.error .invalidText) .ok
  write path text := FileFault.capture (IO.FS.writeFile path text)

end Engram

def main (args : List String) : IO UInt32 := do
  let report ← Engram.CommandLine.run Engram.systemFiles args
  let out ← IO.getStdout
  let err ← IO.getStderr
  report.out.forM out.putStrLn
  report.err.forM err.putStrLn
  return UInt32.ofNat report.status
