import Peephole.Body
import Peephole.Instruction.Assembly

/-!
# From instruction lists to bodies

An instruction list is a body when no label is defined twice and every jump goes
to a label that is defined.  Its instructions then stand at the positions
`0, 1, 2, …`, and the label table is counted from them.
-/

namespace Peephole.Body

/-- The name of a label: the last one given for its number, else the default. -/
def givenName (names : List (LabelId × String)) (id : LabelId) : String :=
  (names.reverse.lookup id).getD (defaultLabelName id)

/-- The table of the labels that some lines define. -/
def tabulate (names : List (LabelId × String)) (lines : List Line) : LabelTable :=
  let targets := Line.targets lines
  lines.foldl
    (fun table line =>
      match line.instruction.label? with
      | some id => table.put ⟨id, givenName names id, line.position, targets.count id⟩
      | none => table)
    .empty

/-- Instructions at the positions `0, 1, 2, …`, with a label table. -/
def layOut (code : List Instruction) (labels : LabelTable) : Body where
  lines := Line.number 0 code
  supply := code.length
  labels := labels
  distinct := Line.nodup_positions_number 0 code
  below_supply := fun _ hline => by simpa using Line.position_lt_of_mem_number hline

/-- The body of an instruction list with names for some of its labels.  A label
defined twice is reported before a jump to an undefined one. -/
def assemble (names : List (LabelId × String)) (code : List Instruction) :
    Except Fault Body :=
  let lines := Line.number 0 code
  match Line.repeated? lines, Line.undefined? lines with
  | some id, _ => .error (.malformedBody none (.definedTwice id))
  | none, some id => .error (.malformedBody none (.undefinedTarget id))
  | none, none => .ok (layOut code (tabulate names lines))

end Peephole.Body
