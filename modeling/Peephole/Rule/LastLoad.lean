import Peephole.Edit

/-!
# Last loads

A load reads a variable for the last time when straight-line code after it
writes the variable before reading it again.  A jump, or a label that some jump
goes to, ends what can be told; so does the end of the body, where the variables
are still of interest.
-/

namespace Peephole

namespace LastLoad

/-- Whether some lines write a variable before anything can read it. -/
def overwrites (labels : LabelTable) (slot : Slot) : List Line → Bool
  | [] => false
  | line :: rest =>
      match line.instruction with
      | .store _ slot' => if slot' = slot then true else overwrites labels slot rest
      | .load _ slot' | .increment slot' _ =>
          if slot' = slot then false else overwrites labels slot rest
      | _ =>
          if line.instruction.isJump || labels.isDestination line then false
          else overwrites labels slot rest

/-- Whether the first of some lines is a load after which its variable is
overwritten. -/
def isAhead (labels : LabelTable) : List Line → Bool
  | ⟨_, .load _ slot⟩ :: rest => overwrites labels slot rest
  | _ => false

/-- A store followed by the last load of the same variable. -/
def removeSuperfluousStoreLoad (body : Body) : List Line → Plan
  | ⟨position, .store kind slot⟩ :: ⟨_, .load kind' slot'⟩ :: rest =>
      if kind = kind' ∧ slot = slot' ∧ overwrites body.labels slot rest then
        .ok (some [.splice position 2 []])
      else
        .ok none
  | _ => .ok none

end LastLoad

/-- Whether a load that is the last of its variable stands at a position. -/
def Body.isLastLoad (body : Body) (position : Nat) : Bool :=
  LastLoad.isAhead body.labels (body.ahead position)

end Peephole
