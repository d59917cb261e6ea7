import Engram.Artifact.Basic
import Engram.Artifact.Text
import Engram.Association.Basic
import Engram.Association.Flash
import Engram.Association.Pairs
import Engram.Breach
import Engram.CommandLine.Basic
import Engram.CommandLine.Options
import Engram.Control.Automaton
import Engram.Control.Microcode
import Engram.Control.Sequencer
import Engram.Data.PairMap
import Engram.Data.Plasticity
import Engram.Data.Pointer
import Engram.Data.Session
import Engram.Decimal.Shortest
import Engram.Fault
import Engram.Json.Basic
import Engram.Json.Numeral
import Engram.Layer.Activator
import Engram.Layer.Basic
import Engram.Layer.CodeBook
import Engram.Layer.Sylvester
import Engram.Linear.Cholesky
import Engram.Linear.Matrix
import Engram.Machine.Basic
import Engram.Machine.Run
import Engram.Main
import Engram.Network.Basic
import Engram.Network.Config
import Engram.Network.ConfigReader
import Engram.Network.Gate
import Engram.Network.Weights
import Engram.Notice
import Engram.Program.Basic
import Engram.Program.Opcode
import Engram.Program.Parser
import Engram.Proofs.Artifact.Reordering
import Engram.Proofs.Artifact.Resolving
import Engram.Proofs.Artifact.Roundtrip
import Engram.Proofs.Association.Gathering
import Engram.Proofs.Association.Overwriting
import Engram.Proofs.Association.Shapes
import Engram.Proofs.Association.Targets
import Engram.Proofs.CommandLine.Agreement
import Engram.Proofs.Control.Blocks
import Engram.Proofs.Control.Calls
import Engram.Proofs.Control.Compiled
import Engram.Proofs.Control.Conflicts
import Engram.Proofs.Control.Coverage
import Engram.Proofs.Control.Determinism
import Engram.Proofs.Control.Dispatching
import Engram.Proofs.Control.Failing
import Engram.Proofs.Control.Governing
import Engram.Proofs.Control.Keying
import Engram.Proofs.Control.Legal
import Engram.Proofs.Control.Mirroring
import Engram.Proofs.Control.Readers
import Engram.Proofs.Control.Realizing
import Engram.Proofs.Control.Recording
import Engram.Proofs.Control.Refusals
import Engram.Proofs.Control.Sequencing
import Engram.Proofs.Control.Table
import Engram.Proofs.Control.Walks
import Engram.Proofs.Control.Ways
import Engram.Proofs.Data.Assembling
import Engram.Proofs.Data.Checking
import Engram.Proofs.Data.Comparison
import Engram.Proofs.Data.Enduring
import Engram.Proofs.Data.Failing
import Engram.Proofs.Data.Families
import Engram.Proofs.Data.Interference
import Engram.Proofs.Data.Moves
import Engram.Proofs.Data.Namespaces
import Engram.Proofs.Data.Pathways
import Engram.Proofs.Data.Reassembling
import Engram.Proofs.Data.Retention
import Engram.Proofs.Data.Shifts
import Engram.Proofs.Data.Slots
import Engram.Proofs.Data.Stock
import Engram.Proofs.Data.Store
import Engram.Proofs.Exact.Activator
import Engram.Proofs.Exact.Batches
import Engram.Proofs.Exact.Cholesky
import Engram.Proofs.Exact.Crosstalk
import Engram.Proofs.Exact.Entries
import Engram.Proofs.Exact.Flash
import Engram.Proofs.Exact.Gathered
import Engram.Proofs.Exact.Holding
import Engram.Proofs.Exact.Linear
import Engram.Proofs.Exact.Numbers
import Engram.Proofs.Exact.Regression
import Engram.Proofs.Exact.Repeating
import Engram.Proofs.Exact.Solving
import Engram.Proofs.Exact.Survival
import Engram.Proofs.Layer.Bindings
import Engram.Proofs.Layer.Columns
import Engram.Proofs.Layer.Decoding
import Engram.Proofs.Layer.Distances
import Engram.Proofs.Layer.Exhausting
import Engram.Proofs.Layer.Orthogonal
import Engram.Proofs.Layer.Rebinding
import Engram.Proofs.Layer.Registrations
import Engram.Proofs.Machine.Building
import Engram.Proofs.Machine.Built
import Engram.Proofs.Machine.Checking
import Engram.Proofs.Machine.Closed
import Engram.Proofs.Machine.Control
import Engram.Proofs.Machine.Execution
import Engram.Proofs.Machine.Forgetting
import Engram.Proofs.Machine.Frames
import Engram.Proofs.Machine.Later
import Engram.Proofs.Machine.Loading
import Engram.Proofs.Machine.Operations
import Engram.Proofs.Machine.Processor
import Engram.Proofs.Machine.Reading
import Engram.Proofs.Machine.Resuming
import Engram.Proofs.Machine.Shapes
import Engram.Proofs.Machine.Unfinished
import Engram.Proofs.Network.Books
import Engram.Proofs.Network.Built
import Engram.Proofs.Network.Capacity
import Engram.Proofs.Network.Gates
import Engram.Proofs.Network.Rebinding
import Engram.Proofs.Program.Errors
import Engram.Proofs.Program.Grammar
import Engram.Proofs.Program.Labels
import Engram.Proofs.Program.Scoping
import Engram.Proofs.Program.Tokens
import Engram.Proofs.Scalar.Fixed
import Engram.Proofs.Scalar.Sums
import Engram.Proofs.Text.Pieces
import Engram.Random
import Engram.Scalar
import Engram.Scalar.Double
import Engram.Storage.Documents
import Engram.Storage.FileTree
import Engram.Storage.Files
import Engram.Text.Blank
import Engram.Text.Quoted
import Engram.Text.Unseen
