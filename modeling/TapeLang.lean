import TapeLang.Assembly.Code
import TapeLang.Assembly.Emit
import TapeLang.Assembly.Line
import TapeLang.Assembly.Listing
import TapeLang.Assembly.Print
import TapeLang.Build.Artifact
import TapeLang.Build.Output
import TapeLang.Build.Tool
import TapeLang.Command.Invocation
import TapeLang.Command.Option
import TapeLang.Command.Settings
import TapeLang.Cursor
import TapeLang.Error
import TapeLang.Execution
import TapeLang.File.Path
import TapeLang.File.Stream
import TapeLang.File.Tree
import TapeLang.Json.Binary
import TapeLang.Json.Encoding
import TapeLang.Json.Read
import TapeLang.Json.Shortest
import TapeLang.Json.Value
import TapeLang.Json.Write
import TapeLang.Label
import TapeLang.Log
import TapeLang.Machine
import TapeLang.Main
import TapeLang.Program
import TapeLang.Run
import TapeLang.Service.App
import TapeLang.Service.Integer
import TapeLang.Service.Launch
import TapeLang.Service.Response
import TapeLang.Service.Route
import TapeLang.Service.Target
import TapeLang.Service.Validation
import TapeLang.Source
import TapeLang.Symbol
import TapeLang.TapeSize
import TapeLang.Text.Digit
import TapeLang.Text.Integer
import TapeLang.Text.Loose
import TapeLang.Text.Printable
import TapeLang.Text.Quoted
import TapeLang.Text.Utf8
import TapeLang.Text.Wide
import TapeLang.Token
import TapeLang.Proofs.Assembly.Processor
import TapeLang.Proofs.Grouping
import TapeLang.Proofs.Labelling
import TapeLang.Proofs.Store
import TapeLang.Proofs.Nest
import TapeLang.Proofs.Execution
import TapeLang.Proofs.Coalescing
import TapeLang.Proofs.Assembly.Emission
import TapeLang.Proofs.Assembly.Layout
import TapeLang.Proofs.Assembly.Progress
import TapeLang.Proofs.Assembly.Block
import TapeLang.Proofs.Tracking
import TapeLang.Proofs.Assembly.Pointer
import TapeLang.Proofs.Assembly.Simulation
import TapeLang.Proofs.Assembly.Correctness
import TapeLang.Proofs.Visible
import TapeLang.Proofs.Acceptance
import TapeLang.Proofs.Chunking
import TapeLang.Proofs.Agreement
import TapeLang.Proofs.Assembly.LoopLabels
import TapeLang.Proofs.JumpTable
import TapeLang.Proofs.Observation
import TapeLang.Proofs.Budget
import TapeLang.Proofs.Outcome
import TapeLang.Proofs.Placement
import TapeLang.Proofs.Service.Answers
import TapeLang.Proofs.Command.Arguments
import TapeLang.Proofs.Command.Batch
import TapeLang.Proofs.File.Path
import TapeLang.Proofs.File.Tree
import TapeLang.Proofs.Build.Course
import TapeLang.Proofs.Build.Effects
import TapeLang.Proofs.Build.Footprint
import TapeLang.Proofs.Command.Compilation
import TapeLang.Proofs.Command.Concord
import TapeLang.Proofs.Command.Independence
import TapeLang.Proofs.Command.Publication
import TapeLang.Proofs.Assembly.Moves
import TapeLang.Proofs.Matching
import TapeLang.Proofs.Interruption
import TapeLang.Proofs.Command.Confinement
import TapeLang.Proofs.Coordinates
import TapeLang.Proofs.Displacement
import TapeLang.Proofs.Causality
import TapeLang.Proofs.Rotation
import TapeLang.Proofs.Collecting
import TapeLang.Proofs.LabelHistory
import TapeLang.Proofs.Build.Output
import TapeLang.Proofs.Boundary
