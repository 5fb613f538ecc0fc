import Peephole.Instruction
import Peephole.Instruction.Shape
import Peephole.Instruction.Assembly
import Peephole.Line
import Peephole.Fault
import Peephole.LabelTable
import Peephole.LabelTable.Call
import Peephole.Body
import Peephole.Body.Assemble
import Peephole.Body.Audit
import Peephole.Body.Stepwise
import Peephole.Body.Listing
import Peephole.Machine
import Peephole.Edit
import Peephole.Rule.Straight
import Peephole.Rule.LastLoad
import Peephole.Rule.Control
import Peephole.Rule
import Peephole.Optimizer.Settings
import Peephole.Optimizer.Report
import Peephole.Optimizer
import Peephole.Arena
import Peephole.Arena.Window
import Peephole.Arena.Work
import Peephole.Arena.Rule
import Peephole.Arena.Audit
import Peephole.Arena.Optimizer
import Peephole.Program
import Peephole.Program.InPlace
import Peephole.Json
import Peephole.Json.Digits
import Peephole.Json.Quoted
import Peephole.Json.Token
import Peephole.Json.Reader
import Peephole.Json.Layout
import Peephole.Json.Fields
import Peephole.Document.Instruction
import Peephole.Document.Program
import Peephole.Document.Settings
import Peephole.CommandLine.Arguments
import Peephole.CommandLine.Files
import Peephole.CommandLine.FileSystem
import Peephole.CommandLine.Session
import Peephole.Main
import Peephole.Proofs.Code
import Peephole.Proofs.Bookkeeping.Ledger
import Peephole.Proofs.Bookkeeping.Synced
import Peephole.Proofs.Bookkeeping.Script
import Peephole.Proofs.Machine.Path
import Peephole.Proofs.Machine.Fuel
import Peephole.Proofs.Machine.Sweep
import Peephole.Proofs.Rewriting.Straight
import Peephole.Proofs.Rewriting
import Peephole.Proofs.Bookkeeping.Admitted
import Peephole.Proofs.Rewriting.Weight
import Peephole.Proofs.Termination
import Peephole.Proofs.Bookkeeping.Runs
import Peephole.Proofs.ControlStructure
import Peephole.Proofs.Rewriting.Anchors
import Peephole.Proofs.Rewriting.Potential
import Peephole.Proofs.Budget
import Peephole.Proofs.Machine.Simulation
import Peephole.Proofs.Machine.Window
import Peephole.Proofs.Rewriting.Meaning
import Peephole.Proofs.Preservation
import Peephole.Proofs.Cost
import Peephole.Proofs.Fixpoint
import Peephole.Proofs.Renumbering
import Peephole.Proofs.Renumbering.Plans
import Peephole.Proofs.Exhaustion
import Peephole.Proofs.Storage
import Peephole.Proofs.Repetition
import Peephole.Proofs.Strategy
import Peephole.Proofs.Interruption
import Peephole.Proofs.Bookkeeping.Supply
import Peephole.Proofs.Renumbering.Scripts
import Peephole.Proofs.Provenance
import Peephole.Proofs.Renumbering.Runs
import Peephole.Proofs.History
import Peephole.Proofs.Relabelling
import Peephole.Proofs.Arena.Chain
import Peephole.Proofs.Splicing
import Peephole.Proofs.Arena
import Peephole.Proofs.Json.Lexing
import Peephole.Proofs.Json.Reading
import Peephole.Proofs.Document
import Peephole.Proofs.LastLoad
import Peephole.Proofs.Stepwise
import Peephole.Proofs.Audit
import Peephole.Proofs.Construction
import Peephole.Proofs.LabelHistory
import Peephole.Proofs.Restoration
import Peephole.Proofs.InPlace
import Peephole.Proofs.Pointwise
import Peephole.Proofs.Arena.Reading
import Peephole.Proofs.Arena.Plans
import Peephole.Proofs.Arena.Scripts
import Peephole.Proofs.Arena.Rules
import Peephole.Proofs.Arena.Scanning
import Peephole.Proofs.Arena.Driving
import Peephole.Proofs.Arena.Rest
import Peephole.Proofs.Arena.Runs
import Peephole.Proofs.Arena.Bookkeeping
import Peephole.Proofs.Arena.Strategy
