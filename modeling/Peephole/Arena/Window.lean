import Peephole.Arena
import Peephole.Instruction.Shape

/-!
# Looking ahead in an arena

A rule looks at a few nodes from a position on.  A cursor is a position or the end of the
code; what is asked at the end, or at a stale position, has no answer.  Looking ahead
follows the links, and does not come to an end if they lead around in a circle: that is so
if they lead to more positions than there are.
-/

namespace Peephole.Arena

/-- The positions that links can lead to before they lead to one of them again: the nodes,
and one that is out of the arena, from which nothing leads on. -/
def reach (arena : Arena) : Nat :=
  arena.nodes.size + 1

/-- The instruction at a cursor. -/
def at? (arena : Arena) (cursor : Option Nat) : Option Instruction :=
  cursor.bind arena.get?

/-- The cursor after a cursor. -/
def after (arena : Arena) (cursor : Option Nat) : Option Nat :=
  cursor.bind arena.next?

/-- What an instruction of a certain shape at a cursor has for operands. -/
def shape? {α : Type} (arena : Arena) (shape : Instruction → Option α) (cursor : Option Nat) :
    Option α :=
  (arena.at? cursor).bind shape

/-- Whether a certain instruction stands at a cursor. -/
def stands (arena : Arena) (instruction : Instruction) (cursor : Option Nat) : Bool :=
  arena.at? cursor = some instruction

/-- The instruction at a position that must not be stale. -/
def instruction (arena : Arena) (position : Nat) : Except Fault Instruction :=
  match arena.get? position with
  | some instruction => .ok instruction
  | none => .error (.stalePosition position)

/-- The `width` instructions from a cursor on, if there are so many. -/
def window? (arena : Arena) : Nat → Option Nat → Option (List Instruction)
  | 0, _ => some []
  | _ + 1, none => none
  | width + 1, some position => do
      let instruction ← arena.get? position
      let rest ← arena.window? width (arena.next? position)
      return instruction :: rest

/-- The instructions from a cursor on, `width` of them at most. -/
def peek (arena : Arena) : Nat → Option Nat → List Instruction
  | 0, _ => []
  | _ + 1, none => []
  | width + 1, some position =>
      match arena.get? position with
      | none => []
      | some instruction => instruction :: arena.peek width (arena.next? position)

/-- The position of the definition of a label.  The table says where it is, and it must
stand there. -/
def destination (arena : Arena) (id : LabelId) : Except Fault Nat := do
  let entry ← arena.labels.entry id
  if arena.get? entry.position = some (.label id) then
    return entry.position
  else
    throw (.labelDesync id (.noLabelAt entry.position))

/-- Whether a label stands at a cursor that the table knows there and that some jump goes
to. -/
def isDestination (arena : Arena) (cursor : Option Nat) : Bool :=
  match arena.shape? Instruction.label? cursor with
  | none => false
  | some id =>
      match arena.labels.get? id with
      | none => false
      | some entry => some entry.position = cursor && entry.references != 0

/-- Whether a variable is written from a cursor on before anything can read it, as far as
`reach` positions tell. -/
def overwritesWithin (arena : Arena) (slot : Slot) : Nat → Option Nat → Option Bool
  | _, none => some false
  | 0, some _ => none
  | reach + 1, some position =>
      match arena.shape? (Instruction.loses? slot) (some position) with
      | some lost => some lost
      | none =>
          if (arena.shape? Instruction.target? (some position)).isSome ||
              arena.isDestination (some position) then
            some false
          else
            arena.overwritesWithin slot reach (arena.next? position)

def overwrites (arena : Arena) (slot : Slot) (cursor : Option Nat) : Option Bool :=
  arena.overwritesWithin slot arena.reach cursor

/-- Whether a load that is the last of its variable stands at a cursor. -/
def isLastLoad (arena : Arena) (cursor : Option Nat) : Option Bool :=
  match (arena.shape? (Instruction.load? .int) cursor).or
      (arena.shape? (Instruction.load? .ref) cursor) with
  | none => some false
  | some slot => arena.overwrites slot (arena.after cursor)

/-- The lines from a cursor on, if there are no more than `reach`.  A link that leads out of
the arena stops the program. -/
def linesWithin (arena : Arena) : Nat → Option Nat → Option (List Line)
  | _, none => some []
  | 0, some _ => none
  | reach + 1, some position => do
      let node ← arena.nodes[position]?
      let rest ← arena.linesWithin reach (arena.next? position)
      return ⟨position, node.instruction⟩ :: rest

/-- The lines of an arena, in the order of the links. -/
def lines? (arena : Arena) : Option (List Line) :=
  arena.linesWithin arena.reach arena.first?

end Peephole.Arena
