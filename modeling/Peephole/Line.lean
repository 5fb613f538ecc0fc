import Peephole.Instruction

/-!
# Lines of a body

Every instruction of a body stands at a position of its own.  Positions are
handed out in increasing order and never used twice, so that one which has been
removed stays recognisably stale; they say nothing about the order of the lines,
which is the order of the list.
-/

namespace Peephole

/-- An instruction and the position it stands at. -/
structure Line where
  position : Nat
  instruction : Instruction
  deriving DecidableEq, Repr

namespace Line

/-- The instructions of some lines, in order. -/
def instructions (lines : List Line) : List Instruction :=
  lines.map instruction

/-- Lines for some instructions at consecutive positions. -/
def number (first : Nat) : List Instruction → List Line
  | [] => []
  | instruction :: rest => ⟨first, instruction⟩ :: number (first + 1) rest

/-- The lines before a position. -/
def before (lines : List Line) (position : Nat) : List Line :=
  lines.takeWhile (·.position != position)

/-- The lines from a position on.  There are none if no line stands there. -/
def ahead (lines : List Line) (position : Nat) : List Line :=
  lines.dropWhile (·.position != position)

/-- The labels that some lines define, in order. -/
def definitions (lines : List Line) : List LabelId :=
  lines.filterMap (·.instruction.label?)

/-- The labels that some lines jump to, one for each jump. -/
def targets (lines : List Line) : List LabelId :=
  lines.filterMap (·.instruction.target?)

/-- The labels that some lines start with. -/
def leadingLabels : List Line → List LabelId
  | ⟨_, .label id⟩ :: rest => id :: leadingLabels rest
  | _ => []

/-- The first label in program order that an earlier line has defined already. -/
def firstRepeated? (seen : List LabelId) : List LabelId → Option LabelId
  | [] => none
  | id :: rest => if id ∈ seen then some id else firstRepeated? (id :: seen) rest

/-- The first label that some lines define a second time. -/
def repeated? (lines : List Line) : Option LabelId :=
  firstRepeated? [] (definitions lines)

/-- The least label that some lines jump to without defining it. -/
def undefined? (lines : List Line) : Option LabelId :=
  let defined := definitions lines
  ((targets lines).filter (· ∉ defined)).min?

@[simp]
theorem instructions_number (first : Nat) (code : List Instruction) :
    instructions (number first code) = code := by
  induction code generalizing first with
  | nil => rfl
  | cons instruction rest ih => simpa [number, instructions] using ih (first + 1)

@[simp]
theorem length_number (first : Nat) (code : List Instruction) :
    (number first code).length = code.length := by
  simpa [instructions] using congrArg List.length (instructions_number first code)

theorem le_position_of_mem_number {first : Nat} {code : List Instruction} {line : Line}
    (hline : line ∈ number first code) : first ≤ line.position := by
  induction code generalizing first with
  | nil => simp [number] at hline
  | cons instruction rest ih =>
      rcases List.mem_cons.mp hline with rfl | hline
      · exact Nat.le_refl _
      · exact Nat.le_of_succ_le (ih hline)

theorem position_lt_of_mem_number {first : Nat} {code : List Instruction} {line : Line}
    (hline : line ∈ number first code) : line.position < first + code.length := by
  induction code generalizing first with
  | nil => simp [number] at hline
  | cons instruction rest ih =>
      rcases List.mem_cons.mp hline with rfl | hline
      · simp
      · have hposition := ih hline
        simp only [List.length_cons]
        omega

theorem nodup_positions_number (first : Nat) (code : List Instruction) :
    ((number first code).map position).Nodup := by
  induction code generalizing first with
  | nil => simp [number]
  | cons instruction rest ih =>
      simp only [number, List.map_cons, List.nodup_cons, List.mem_map, not_exists, not_and]
      refine ⟨fun line hline hposition => ?_, ih (first + 1)⟩
      have hle := le_position_of_mem_number hline
      omega

theorem before_append_ahead (lines : List Line) (position : Nat) :
    before lines position ++ ahead lines position = lines :=
  List.takeWhile_append_dropWhile

theorem position_of_ahead_eq_cons {lines : List Line} {position : Nat} {line : Line}
    {rest : List Line} (hahead : ahead lines position = line :: rest) :
    line.position = position := by
  have hhead := List.head?_dropWhile_not (·.position != position) lines
  rw [ahead] at hahead
  simpa [hahead] using hhead

end Line

end Peephole
