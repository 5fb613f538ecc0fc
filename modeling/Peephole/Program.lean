import Peephole.Body.Assemble
import Peephole.Body.Listing
import Peephole.Optimizer

/-!
# Programs

A program is a list of named methods.  The code of a method is kept as a plain
instruction list, with names for those labels that have one of their own; a body
is made from it whenever it is worked on.
-/

namespace Peephole

structure LabelName where
  id : LabelId
  name : String
  deriving DecidableEq, Repr

inductive MethodKind where
  | method
  | constructor
  deriving DecidableEq, Repr

structure Method where
  name : String
  kind : MethodKind
  code : List Instruction
  labels : List LabelName
  deriving DecidableEq, Repr

/-- The report on one method. -/
structure MethodReport where
  name : String
  report : Report

namespace Method

/-- The body of a method. -/
def toBody (method : Method) : Except Fault Body :=
  (Body.assemble (method.labels.map fun label => (label.id, label.name)) method.code).mapError
    (·.within method.name)

/-- The names of a table that differ from the default. -/
def ownNames (labels : LabelTable) : List LabelName :=
  (labels.entries.filter fun entry => entry.name != defaultLabelName entry.id).map
    fun entry => ⟨entry.id, entry.name⟩

/-- A method with another body. -/
def store (method : Method) (body : Body) : Method :=
  { method with code := body.instructions, labels := ownNames body.labels }

end Method

structure Program where
  methods : List Method
  deriving DecidableEq, Repr

namespace Program

/-- Optimizes a body, or says why it cannot be. -/
def optimizeBody (optimizer : Optimizer) (body : Body) : Except Fault (Report × Body) :=
  match optimizer.optimize body with
  | (.ok report, optimized) => .ok (report, optimized)
  | (.error fault, _) => .error fault

/-- Optimizes every method.  No body is worked on before all of them are known to be
well formed, and one that fails leaves the program as it was. -/
def optimize (optimizer : Optimizer) (program : Program) :
    Except Fault (Program × List MethodReport) := do
  let bodies ← program.methods.mapM Method.toBody
  let results ← bodies.mapM (optimizeBody optimizer)
  let methods := program.methods.zipWith (fun method result => method.store result.2) results
  let reports := program.methods.zipWith (fun method result => ⟨method.name, result.1⟩) results
  return (⟨methods⟩, reports)

/-- The reports on all methods together. -/
def total (reports : List MethodReport) : Report :=
  Report.total (reports.map MethodReport.report)

/-- The listings of all methods, each with a blank line after it. -/
def listing (program : Program) : Except Fault String := do
  let listings ← program.methods.mapM fun method => do
    return (← method.toBody).titledListing method.name ++ "\n"
  return String.join listings

end Program

end Peephole
