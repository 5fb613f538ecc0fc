import Peephole.Edit

/-!
# Rules for jumps and labels

These rules look at the lines ahead and at the places their jumps go to.  Each
gives a script that keeps the reference counts in step with the jumps it adds,
removes or redirects.  Two facts bound how often they can apply: chains of jumps
are only shortened toward a smaller label number, and every other rule takes out
an instruction or a label.
-/

namespace Peephole

namespace Control

/-- A label that no jump goes to. -/
def removeDeadLabel (body : Body) : List Line → Plan
  | ⟨position, .label id⟩ :: _ => do
      if ← body.labels.isDead id then
        return some [.splice position 1 [], .remove id]
      else
        return none
  | _ => .ok none

/-- A jump to one of the labels that follow it. -/
def removeGotoNextLabel (_ : Body) : List Line → Plan
  | ⟨position, .goto target⟩ :: rest =>
      if target ∈ Line.leadingLabels rest then
        .ok (some [.release target, .splice position 1 []])
      else
        .ok none
  | _ => .ok none

/-- An instruction that follows a jump and is no label. -/
def removeUnreachableAfterGoto (_ : Body) : List Line → Plan
  | ⟨_, .goto _⟩ :: ⟨place, dead⟩ :: _ =>
      if dead.isLabel then
        .ok none
      else
        .ok (some ((dead.target?.toList.map .release) ++ [.splice place 1 []]))
  | _ => .ok none

/-- A jump to a jump to a smaller label. -/
def simplifyGotoGoto (body : Body) : List Line → Plan
  | ⟨position, jump⟩ :: _ =>
      match jump.target? with
      | none => .ok none
      | some target => do
          match (← body.landing target).tail with
          | ⟨_, .goto final⟩ :: _ =>
              if final < target then
                return some [.release target, .acquire final,
                  .splice position 1 [jump.retarget final]]
              else
                return none
          | _ => return none
  | _ => .ok none

/-- A test of a constant. -/
def simplifyConstantBranch (_ : Body) : List Line → Plan
  | ⟨position, .const value⟩ :: ⟨_, .branch (.test check) target⟩ :: _ =>
      if check.holds value then
        .ok (some [.release target, .acquire target, .splice position 2 [.goto target]])
      else
        .ok (some [.release target, .splice position 2 []])
  | _ => .ok none

/-- A constant and a jump to a test of it.  The jump goes on to where the test
would go; if that is the line after the test, a label there is used or a new one
is put there. -/
def simplifyConstantBranchThroughGoto (body : Body) : List Line → Plan
  | ⟨position, .const value⟩ :: ⟨_, .goto target⟩ :: _ => do
      let redirect (final : LabelId) : Script :=
        [.release target, .acquire final, .splice position 2 [.goto final]]
      match (← body.landing target).tail with
      | ⟨place, .branch (.test check) final⟩ :: rest =>
          if check.holds value then
            return some (redirect final)
          else
            match Line.leadingLabels rest with
            | next :: _ => return some (redirect next)
            | [] =>
                return body.labels.fresh?.map fun fresh => .split place fresh :: redirect fresh
      | _ => return none
  | _ => .ok none

/-- A conditional jump over a jump. -/
def invertBranchOverGoto (_ : Body) : List Line → Plan
  | ⟨position, .branch condition skip⟩ :: ⟨_, .goto target⟩ :: ⟨_, .label id⟩ :: _ =>
      if skip = id then
        .ok (some [.release skip, .release target, .acquire target,
          .splice position 2 [.branch condition.negate target]])
      else
        .ok none
  | _ => .ok none

/-- Whether exactly one jump goes to each of two labels.  The second is not looked
up if the first has other jumps. -/
def bothUnique (labels : LabelTable) (left right : LabelId) : Except Fault Bool := do
  if ← labels.isUnique left then
    labels.isUnique right
  else
    return false

/-- A comparison that is turned into a truth value and tested at once. -/
def collapseComparisonTail (body : Body) : List Line → Plan
  | ⟨position, .branch condition holds⟩ :: ⟨_, .const otherwise⟩ :: ⟨_, .goto finish⟩ ::
      ⟨_, .label id⟩ :: ⟨_, .const value⟩ :: ⟨_, .label id'⟩ ::
      ⟨_, .branch (.test check) target⟩ :: _ =>
      if holds = id ∧ finish = id' ∧ (otherwise == 0) != (value == 0) then do
        let kept := if check.holds value then condition else condition.negate
        if ← bothUnique body.labels holds finish then
          return some [.release holds, .release finish, .release target, .acquire target,
            .remove holds, .remove finish, .splice position 7 [.branch kept target]]
        else
          return none
      else
        .ok none
  | _ => .ok none

end Control

end Peephole
