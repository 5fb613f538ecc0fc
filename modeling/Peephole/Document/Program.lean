import Peephole.Document.Instruction
import Peephole.Json.Layout
import Peephole.Json.Reader
import Peephole.Program

/-!
# Programs in JSON

A program is a record of its methods, and a method one of its name, kind, code and
label names.  Label names are left out where there are none.
-/

namespace Peephole

namespace LabelName

def toJson (label : LabelName) : Json :=
  .record [("id", .integer label.id.toNat), ("name", .text label.name)]

def ofJson? (value : Json) : Option LabelName :=
  match value.fields? ["id", "name"] with
  | some [some id, some name] => do
      return ⟨← Instruction.readLabel? id, ← name.text?⟩
  | _ => none

end LabelName

namespace MethodKind

def name : MethodKind → String
  | .method => "method"
  | .constructor => "constructor"

def toJson (kind : MethodKind) : Json :=
  .text kind.name

def ofName? (name : String) : Option MethodKind :=
  if name = "method" then some .method
  else if name = "constructor" then some .constructor
  else none

def ofJson? (value : Json) : Option MethodKind :=
  match value.variant? with
  | some (name, none) | some (name, some .null) => ofName? name
  | _ => none

end MethodKind

namespace Method

def toJson (method : Method) : Json :=
  .record <|
    [("name", .text method.name), ("kind", method.kind.toJson),
      ("code", .array (method.code.map Instruction.toJson))] ++
    if method.labels.isEmpty then []
    else [("labels", .array (method.labels.map LabelName.toJson))]

def ofJson? (value : Json) : Option Method :=
  match value.fields? ["name", "kind", "code", "labels"] with
  | some [some name, some kind, some code, labels?] => do
      return {
        name := ← name.text?
        kind := ← MethodKind.ofJson? kind
        code := ← code.items? Instruction.ofJson?
        labels := ← Json.orElse? [] (Json.items? LabelName.ofJson?) labels?
      }
  | _ => none

end Method

namespace Program

def toJson (program : Program) : Json :=
  .record [("methods", .array (program.methods.map Method.toJson))]

def ofJson? (value : Json) : Option Program :=
  match value.fields? ["methods"] with
  | some [some methods] => (methods.items? Method.ofJson?).map Program.mk
  | _ => none

/-- The document of a program. -/
def toText (program : Program) : String :=
  program.toJson.pretty

/-- Reads the document of a program. -/
def ofText? (text : String) : Option Program :=
  (Json.parse? text).bind ofJson?

end Program

end Peephole
