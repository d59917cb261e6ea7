/-
  Engram.Storage.Files — how text files are read and written, whatever holds them.
-/

import Engram.Fault

namespace Engram

/-- Reading and writing text files by path. -/
structure Files (m : Type → Type) where
  read : String → m (Except FileFault String)
  write : String → String → m (Except FileFault Unit)

end Engram
