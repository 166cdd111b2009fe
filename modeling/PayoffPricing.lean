import PayoffPricing.Scalar
import PayoffPricing.Fault
import PayoffPricing.Decimal.Format
import PayoffPricing.Text.Lowercase
import PayoffPricing.Text.Blank
import PayoffPricing.Normal
import PayoffPricing.Adjoint.Arena
import PayoffPricing.Adjoint.Tape
import PayoffPricing.Quantity
import PayoffPricing.Smoothing
import PayoffPricing.Market
import PayoffPricing.Calendar.Schedule
import PayoffPricing.Script.Lexer
import PayoffPricing.Script.Error
import PayoffPricing.Script.Listing
import PayoffPricing.Script.Parser
import PayoffPricing.Script.Intrinsic
import PayoffPricing.Script.Domain
import PayoffPricing.Script.Effects
import PayoffPricing.Script.Inference
import PayoffPricing.Script.Collapse
import PayoffPricing.Script.Folding
import PayoffPricing.Script.Fuzzy
import PayoffPricing.Script.Machine
import PayoffPricing.Product.Macros
import PayoffPricing.Product.Plan
import PayoffPricing.Product.Build
import PayoffPricing.Product.Definition
import PayoffPricing.Product.Evaluator
import PayoffPricing.Product.Sensitivity
import PayoffPricing.Random.ChaCha
import PayoffPricing.Random.Ziggurat
import PayoffPricing.Random.Stream
import PayoffPricing.Model.Error
import PayoffPricing.Model.Observables
import PayoffPricing.Model.BlackScholes
import PayoffPricing.Model.LocalVol
import PayoffPricing.Model.Basic
import PayoffPricing.Simulation.Config
import PayoffPricing.Simulation.BatchQueue
import PayoffPricing.Simulation.Worker
import PayoffPricing.Simulation.Run
import PayoffPricing.Toml.Value
import PayoffPricing.Toml.Section
import PayoffPricing.Toml.Reading
import PayoffPricing.App.Error
import PayoffPricing.App.Options
import PayoffPricing.App.ProductFile
import PayoffPricing.App.Report
import PayoffPricing.App.Command
import PayoffPricing.App.Invocation
import PayoffPricing.Main
import PayoffPricing.Proofs.Exact
import PayoffPricing.Proofs.Script.MachineAgreement
import PayoffPricing.Proofs.Adjoint.Derivative
import PayoffPricing.Proofs.Adjoint.Checkpoint
import PayoffPricing.Proofs.Adjoint.Number
import PayoffPricing.Proofs.Product.Meaning
import PayoffPricing.Proofs.Script.Conservative
import PayoffPricing.Proofs.Model.BlackScholes
import PayoffPricing.Proofs.Model.Likeness
import PayoffPricing.Proofs.Product.Likeness
import PayoffPricing.Proofs.Simulation.Likeness
import PayoffPricing.Proofs.Simulation.Runs
import PayoffPricing.Proofs.Simulation.Reverse
import PayoffPricing.Proofs.Model.Prototype
import PayoffPricing.Proofs.Simulation.Recording
import PayoffPricing.Proofs.Simulation.Schedule
import PayoffPricing.Proofs.Simulation.Independence
import PayoffPricing.Proofs.Script.Reached
import PayoffPricing.Proofs.Script.FoldedRuns
import PayoffPricing.Proofs.Adjoint.Accumulation
import PayoffPricing.Proofs.Simulation.Alone
import PayoffPricing.Proofs.Simulation.Sensitivities
import PayoffPricing.Proofs.Script.ParserCompleteness
import PayoffPricing.Proofs.Script.Branching
import PayoffPricing.Proofs.Product.Safety
import PayoffPricing.Proofs.Product.Reuse
import PayoffPricing.Proofs.Simulation.Leftovers
import PayoffPricing.Proofs.Product.Crispness
import PayoffPricing.Proofs.Simulation.SamePaths
import PayoffPricing.Proofs.Adjoint.OneNode
import PayoffPricing.Proofs.Adjoint.Ledger
import PayoffPricing.Proofs.Adjoint.Replay
import PayoffPricing.Proofs.Adjoint.Reissue
import PayoffPricing.Proofs.Script.Collapse
import PayoffPricing.Proofs.Product.Collapse
import PayoffPricing.Proofs.Script.Insertion
import PayoffPricing.Proofs.Script.Gaps
import PayoffPricing.Proofs.Script.FoldedCalls
import PayoffPricing.Proofs.Product.Blending
import PayoffPricing.Proofs.Model.Preparation
import PayoffPricing.Proofs.Model.Aggregation
import PayoffPricing.Proofs.Model.Refusal
import PayoffPricing.Proofs.Product.Windowless
import PayoffPricing.Proofs.Product.Sequencing
import PayoffPricing.Proofs.Calendar.Schedule
import PayoffPricing.Proofs.Script.Printing
import PayoffPricing.Proofs.Random.Seeds
import PayoffPricing.Proofs.Simulation.Batches
import PayoffPricing.Proofs.Model.PathEnds
import PayoffPricing.Proofs.Adjoint.Merging
import PayoffPricing.Proofs.Product.Macros
import PayoffPricing.Proofs.Product.Marking
import PayoffPricing.Proofs.Script.Covering
