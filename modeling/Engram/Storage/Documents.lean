/-
  Engram.Storage.Documents — weights and configurations in files.
-/

import Engram.Artifact.Text
import Engram.Network.ConfigReader
import Engram.Notice
import Engram.Storage.Files

namespace Engram

variable {m : Type → Type} [Monad m]

/-- Writes the weights of a network to a file. -/
def Network.saveWeights (n : Network Float) (w : Weights Float) (files : Files m) (path : String) :
    m (Noted (Except (Fault Float) Unit)) := do
  let a := Artifact.ofWeights n w
  match ← files.write path a.text with
  | .error e => return pure (.error (.file e))
  | .ok () => return do
      Noted.debug ("saved " ++ toString a.size ++ " pathways")
      return .ok ()

/-- The weights of a network that a file holds. -/
def Network.loadWeights (n : Network Float) (files : Files m) (path : String) :
    m (Except (Fault Float) (Weights Float)) := do
  match ← files.read path with
  | .error e => return .error (.file e)
  | .ok text => return Artifact.readWeights n text

/-- The valid configuration that a file holds. -/
def Config.load (files : Files m) (path : String) : m (Except (Fault Float) (Config Float)) := do
  match ← files.read path with
  | .error e => return .error (.file e)
  | .ok text => return Config.read text

end Engram
