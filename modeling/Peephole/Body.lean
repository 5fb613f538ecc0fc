import Peephole.LabelTable

/-!
# Method bodies

A body is a list of lines together with the table of the labels they define.
Lines are changed by splicing: some consecutive lines go and new ones come in
their place, on positions that were never used before.
-/

namespace Peephole

@[ext]
structure Body where
  lines : List Line
  /-- A bound above every position ever used. -/
  supply : Nat
  labels : LabelTable
  distinct : (lines.map Line.position).Nodup
  below_supply : ∀ line ∈ lines, line.position < supply

namespace Body

def instructions (body : Body) : List Instruction :=
  Line.instructions body.lines

def length (body : Body) : Nat :=
  body.lines.length

/-- The lines from a position on.  There are none at a stale position. -/
def ahead (body : Body) (position : Nat) : List Line :=
  Line.ahead body.lines position

def first? (body : Body) : Option Nat :=
  body.lines.head?.map Line.position

def get? (body : Body) (position : Nat) : Option Instruction :=
  (body.ahead position).head?.map Line.instruction

/-- The position after a position. -/
def next? (body : Body) (position : Nat) : Option Nat :=
  (body.ahead position).tail.head?.map Line.position

def instruction (body : Body) (position : Nat) : Except Fault Instruction :=
  match body.get? position with
  | some instruction => .ok instruction
  | none => .error (.stalePosition position)

/-- The instructions of the `width` lines from a position on, if there are so
many. -/
def window? (body : Body) (position : Nat) (width : Nat) : Option (List Instruction) :=
  let lines := (body.ahead position).take width
  if lines.length = width then some (Line.instructions lines) else none

/-- The lines from the definition of a label on.  The table says where the
definition is, and it must stand there. -/
def landing (body : Body) (id : LabelId) : Except Fault (List Line) := do
  let entry ← body.labels.entry id
  let lines := body.ahead entry.position
  if lines.head?.map Line.instruction = some (.label id) then
    return lines
  else
    throw (.labelDesync id (.noLabelAt entry.position))

/-- The position of the definition of a label. -/
def destination (body : Body) (id : LabelId) : Except Fault Nat := do
  let _ ← body.landing id
  return (← body.labels.entry id).position

/-- Whether a line at a position defines a label that some jump goes to. -/
def isDestination (body : Body) (position : Nat) : Bool :=
  (body.ahead position).head?.any body.labels.isDestination

/-- Keeps the lines `before` and `after` of a body and puts new ones between
them.  Labels among the new lines are moved there in the table. -/
def weave (body : Body) (before after : List Line) (code : List Instruction)
    (hsublist : (before ++ after).Sublist body.lines) : Body where
  lines := before ++ Line.number body.supply code ++ after
  supply := body.supply + code.length
  labels := body.labels.settle (Line.number body.supply code)
  distinct := by
    have hkept := body.distinct.sublist (hsublist.map Line.position)
    have hnew := Line.nodup_positions_number body.supply code
    have hapart : ∀ line ∈ before ++ after, ∀ other ∈ Line.number body.supply code,
        line.position ≠ other.position := by
      intro line hline other hother
      have hlt := body.below_supply line (hsublist.subset hline)
      have hle := Line.le_position_of_mem_number hother
      omega
    simp only [List.map_append, List.nodup_append, List.mem_map, List.mem_append] at hkept ⊢
    grind
  below_supply := by
    intro line hline
    rcases List.mem_append.mp hline with hline | hline
    · rcases List.mem_append.mp hline with hline | hline
      · have := body.below_supply line (hsublist.subset (List.mem_append_left _ hline))
        omega
      · exact Line.position_lt_of_mem_number hline
    · have := body.below_supply line (hsublist.subset (List.mem_append_right _ hline))
      omega

@[simp]
theorem instructions_weave (body : Body) {before after : List Line} (code : List Instruction)
    (hsublist : (before ++ after).Sublist body.lines) :
    (body.weave before after code hsublist).instructions =
      Line.instructions before ++ code ++ Line.instructions after := by
  have hnew := Line.instructions_number body.supply code
  simp only [Line.instructions] at hnew
  simp [instructions, weave, Line.instructions, hnew]

theorem before_append_drop_ahead_sublist (body : Body) (position : Nat) (width : Nat) :
    (Line.before body.lines position ++ (body.ahead position).drop width).Sublist
      body.lines := by
  have hsplit := Line.before_append_ahead body.lines position
  calc (Line.before body.lines position ++ (body.ahead position).drop width).Sublist
          (Line.before body.lines position ++ body.ahead position) :=
        List.Sublist.append (List.Sublist.refl _) (List.drop_sublist _ _)
    _ = body.lines := hsplit

theorem before_append_ahead_sublist (body : Body) (position : Nat) {line : Line}
    {rest : List Line} (hahead : body.ahead position = line :: rest) :
    ((Line.before body.lines position ++ [line]) ++ rest).Sublist body.lines := by
  have hsplit := Line.before_append_ahead body.lines position
  rw [ahead] at hahead
  rw [hahead] at hsplit
  simp [hsplit]

/-- Replaces the `width` lines from a position on.  New code for no line is put
before the position.  Gives the position of the first new line. -/
def splice (body : Body) (position : Nat) (width : Nat) (code : List Instruction) :
    Except Fault (Option Nat × Body) :=
  let available := (body.ahead position).length
  if available = 0 then
    .error (.stalePosition position)
  else if available < width then
    .error (.windowOverrun width available)
  else
    .ok (if code.isEmpty then none else some body.supply,
      body.weave (Line.before body.lines position) ((body.ahead position).drop width) code
        (body.before_append_drop_ahead_sublist position width))

/-- Takes out the line at a position. -/
def erase (body : Body) (position : Nat) : Except Fault Body :=
  (body.splice position 1 []).map Prod.snd

/-- Puts an instruction after a position and gives its own. -/
def insertAfter (body : Body) (position : Nat) (instruction : Instruction) :
    Except Fault (Nat × Body) :=
  match hahead : body.ahead position with
  | [] => .error (.stalePosition position)
  | line :: rest =>
      .ok (body.supply,
        body.weave (Line.before body.lines position ++ [line]) rest [instruction]
          (body.before_append_ahead_sublist position hahead))

end Body

end Peephole
