import Peephole.Body

/-!
# Auditing a body against its label table

The table of a body is in order when its entries are exactly the labels the
lines define, each at its line and with the number of jumps to it, and no label
is missing or defined twice.  An audit reports the first thing that is not so.
-/

namespace Peephole.Body

/-- What is wrong with the table entry of the label that a line defines, if the jumps to it
were counted in a certain way. -/
def lineFault? (labels : LabelTable) (count : LabelId → Nat) (line : Line) : Option Fault :=
  match line.instruction.label? with
  | none => none
  | some id =>
      match labels.get? id with
      | none => some (.unknownLabel id)
      | some entry =>
          if entry.position ≠ line.position then
            some (.labelDesync id .wrongLine)
          else if entry.references ≠ count id then
            some (.labelDesync id (.wrongCount entry.references (count id)))
          else
            none

/-- The first disagreement between some lines and a label table: labels defined twice come
first, then entries of defined labels in program order, then jumps to undefined labels,
then entries of labels that are not defined. -/
def linesFault? (labels : LabelTable) (count : LabelId → Nat) (lines : List Line) :
    Option Fault :=
  match Line.repeated? lines with
  | some id => some (.labelDesync id .definedTwice)
  | none =>
      match lines.findSome? (lineFault? labels count) with
      | some fault => some fault
      | none =>
          match Line.undefined? lines with
          | some id => some (.unknownLabel id)
          | none =>
              let defined := Line.definitions lines
              (labels.entries.find? (·.id ∉ defined)).map fun entry =>
                .labelDesync entry.id .noDefinition

/-- The first disagreement between a body and its label table. -/
def bookkeepingFault? (body : Body) : Option Fault :=
  linesFault? body.labels (fun id => (Line.targets body.lines).count id) body.lines

def audit (body : Body) : Except Fault Unit :=
  match body.bookkeepingFault? with
  | some fault => .error fault
  | none => .ok ()

end Peephole.Body
