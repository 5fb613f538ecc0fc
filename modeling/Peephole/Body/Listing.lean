import Peephole.Body
import Peephole.Instruction.Assembly

/-!
# Listings

The assembler listing of a body: one line for each instruction, labels by their
names at the margin and everything else indented by two blanks.
-/

namespace Peephole.Body

/-- The name a label has in the table of a body. -/
def labelName (body : Body) (id : LabelId) : String :=
  match body.labels.get? id with
  | some entry => entry.name
  | none => defaultLabelName id

def lineText (body : Body) (line : Line) : String :=
  (if line.instruction.isLabel then "" else "  ") ++
    line.instruction.render body.labelName ++ "\n"

def listing (body : Body) : String :=
  String.join (body.lines.map body.lineText)

/-- A listing under a title. -/
def titledListing (body : Body) (title : String) : String :=
  "== " ++ title ++ " ==\n" ++ body.listing

end Peephole.Body
