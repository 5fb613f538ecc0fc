import Peephole.Body.Assemble
import Peephole.Body.Audit

/-!
# Going through the labels of a body

The labels that some lines define can be gone through one after the other, to register
them or to compare them with a table.  Each label takes the jumps that go to it out of
those that are left, so that the jumps left over in the end go to labels that are not
defined.  An audit can go through the labels in any order.
-/

namespace Peephole

namespace Line

/-- The labels that some lines define, with the positions of their definitions. -/
def sites (lines : List Line) : List (LabelId × Nat) :=
  lines.filterMap fun line => line.instruction.label?.map (·, line.position)

end Line

namespace Body

/-- The labels registered so far, with the names and the jumps left for the others. -/
structure Registry where
  names : List (LabelId × String)
  jumps : List LabelId
  labels : LabelTable

/-- Registers a label under the name and with the jumps that are left for it. -/
def Registry.enter (registry : Registry) (site : LabelId × Nat) : Except Fault Registry :=
  match registry.labels.register ⟨site.1, givenName registry.names site.1, site.2,
      registry.jumps.count site.1⟩ with
  | .ok labels =>
      .ok ⟨registry.names.filter (·.1 != site.1), registry.jumps.filter (· != site.1), labels⟩
  | .error _ => .error (.malformedBody none (.definedTwice site.1))

/-- The body of an instruction list, its labels being registered in program order. -/
def assembleStepwise (names : List (LabelId × String)) (code : List Instruction) :
    Except Fault Body :=
  let lines := Line.number 0 code
  match (Line.sites lines).foldlM Registry.enter ⟨names, Line.targets lines, .empty⟩ with
  | .error fault => .error fault
  | .ok registry =>
      match registry.jumps.min? with
      | some id => .error (.malformedBody none (.undefinedTarget id))
      | none => .ok (layOut code registry.labels)

/-- Compares the entry of a label with its definition and the jumps that are left, and
takes the jumps to it from these. -/
def settleSite (labels : LabelTable) (jumps : List LabelId) (site : LabelId × Nat) :
    Except Fault (List LabelId) :=
  match labels.get? site.1 with
  | none => .error (.unknownLabel site.1)
  | some entry =>
      if entry.position ≠ site.2 then
        .error (.labelDesync site.1 .wrongLine)
      else if entry.references ≠ jumps.count site.1 then
        .error (.labelDesync site.1 (.wrongCount entry.references (jumps.count site.1)))
      else
        .ok (jumps.filter (· != site.1))

/-- An audit that goes through the definitions of the labels in a given order. -/
def auditAlong (body : Body) (order : List (LabelId × Nat)) : Except Fault Unit :=
  match Line.repeated? body.lines with
  | some id => .error (.labelDesync id .definedTwice)
  | none =>
      match order.foldlM (settleSite body.labels) (Line.targets body.lines) with
      | .error fault => .error fault
      | .ok jumps =>
          match jumps.min? with
          | some id => .error (.unknownLabel id)
          | none =>
              match body.labels.entries.find? (·.id ∉ Line.definitions body.lines) with
              | some entry => .error (.labelDesync entry.id .noDefinition)
              | none => .ok ()

end Body

end Peephole
