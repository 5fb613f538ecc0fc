import Peephole.Arena.Work
import Peephole.Edit
import Peephole.Rule

/-!
# The rules in place

Each rule is tried at a position of an arena.  It looks ahead, changes counts and nodes as
it goes on, and says whether it made a rewrite.  A rule that looks further after a change
could still decline; none of them is meant to.
-/

namespace Peephole

namespace InPlace

open Work

/-! ## Straight-line code -/

def contract (contraction? : List Instruction → Option Contraction) (position : Nat) :
    Work Bool := do
  match contraction? ((← get).peek Contraction.reach (some position)) with
  | none => return false
  | some contraction => rewrite position contraction.width contraction.code

/-- A store followed by the last load of the same variable. -/
def removeSuperfluousStoreLoad (position : Nat) : Work Bool := do
  let arena ← get
  let load := arena.next? position
  let sameSlot :=
    match arena.shape? (Instruction.store? .int) (some position),
        arena.shape? (Instruction.store? .ref) (some position) with
    | some slot, _ => arena.shape? (Instruction.load? .int) load = some slot
    | none, some slot => arena.shape? (Instruction.load? .ref) load = some slot
    | none, none => false
  if sameSlot && !arena.isDestination load then
    if ← await (·.isLastLoad load) then
      rewrite position 2 []
    else
      return false
  else
    return false

/-! ## Jumps and labels -/

/-- A label that no jump goes to. -/
def removeDeadLabel (position : Nat) : Work Bool := do
  match (← get).shape? Instruction.label? (some position) with
  | none => return false
  | some id =>
      if ← look (·.labels.isDead id) then
        erase position
        remove id
        return true
      else
        return false

/-- Takes out a jump if its label is among those that stand from a cursor on. -/
def removeGotoBefore (position : Nat) (target : LabelId) : Nat → Option Nat → Work Bool
  | _, none => return false
  | 0, some _ => endless
  | reach + 1, some cursor => do
      match (← get).shape? Instruction.label? (some cursor) with
      | none => return false
      | some id =>
          if id = target then
            release target
            erase position
            return true
          else
            removeGotoBefore position target reach ((← get).next? cursor)

/-- A jump to one of the labels that follow it. -/
def removeGotoNextLabel (position : Nat) : Work Bool := do
  let arena ← get
  match arena.shape? Instruction.goto? (some position) with
  | none => return false
  | some target => removeGotoBefore position target arena.reach (arena.next? position)

/-- An instruction that follows a jump and is no label. -/
def removeUnreachableAfterGoto (position : Nat) : Work Bool := do
  let arena ← get
  match arena.shape? Instruction.goto? (some position), arena.next? position with
  | some _, some dead =>
      match arena.shape? Instruction.label? (some dead) with
      | some _ => return false
      | none =>
          match arena.shape? Instruction.target? (some dead) with
          | some target => release target
          | none => pure ()
          erase dead
          return true
  | _, _ => return false

/-- A jump to a jump to a smaller label. -/
def simplifyGotoGoto (overflow : Overflow) (position : Nat) : Work Bool := do
  match (← get).shape? Instruction.target? (some position) with
  | none => return false
  | some target =>
      let landing := (← get).next? (← look (·.destination target))
      match (← get).shape? Instruction.goto? landing with
      | none => return false
      | some final =>
          if final < target then
            let jump ← look (·.instruction position)
            release target
            acquire overflow final
            rewrite position 1 [jump.retarget final]
          else
            return false

/-- A test of a constant. -/
def simplifyConstantBranch (overflow : Overflow) (position : Nat) : Work Bool := do
  match (← get).window? 2 (some position) with
  | some [.const value, .branch (.test check) target] =>
      release target
      if check.holds value then
        acquire overflow target
        rewrite position 2 [.goto target]
      else
        rewrite position 2 []
  | _ => return false

/-- Sends a constant and a jump elsewhere. -/
def redirect (overflow : Overflow) (position : Nat) (target final : LabelId) : Work Bool := do
  release target
  acquire overflow final
  rewrite position 2 [.goto final]

/-- Sends a constant and a jump past a test of it.  If the test would go on to the line after
it, a label there is used or a new one is put there. -/
def passTest (overflow : Overflow) (position : Nat) (value : Int32) (target : LabelId)
    (test : Nat) : Work Bool := do
  match (← get).at? (some test) with
  | some (.branch (.test check) final) =>
      if check.holds value then
        redirect overflow position target final
      else
        match (← get).shape? Instruction.label? ((← get).next? test) with
        | some next => redirect overflow position target next
        | none =>
            match (← get).labels.fresh? with
            | none => return false
            | some fresh =>
                let place ← insertAfter test (.label fresh)
                register ⟨fresh, splitName fresh, place, 0⟩
                redirect overflow position target fresh
  | _ => return false

/-- A constant and a jump to a test of it. -/
def simplifyConstantBranchThroughGoto (overflow : Overflow) (position : Nat) : Work Bool := do
  match (← get).window? 2 (some position) with
  | some [.const value, .goto target] =>
      match (← get).next? (← look (·.destination target)) with
      | none => return false
      | some test => passTest overflow position value target test
  | _ => return false

/-- A conditional jump over a jump. -/
def invertBranchOverGoto (overflow : Overflow) (position : Nat) : Work Bool := do
  match (← get).shape? Instruction.conditional? (some position) with
  | none => return false
  | some branch =>
      match (← get).window? 3 (some position) with
      | some [_, .goto target, .label skip] =>
          if branch.target? = some skip then
            match branch.negated? with
            | none => return false
            | some inverted =>
                release skip
                release target
                acquire overflow target
                rewrite position 2 [inverted.retarget target]
          else
            return false
      | _ => return false

/-- Whether exactly one jump goes to each of two labels.  The second is not looked up if
the first has other jumps. -/
def bothUnique (left right : LabelId) : Work Bool := do
  if ← look (·.labels.isUnique left) then
    look (·.labels.isUnique right)
  else
    return false

/-- A comparison that is turned into a truth value and tested at once. -/
def collapseComparisonTail (overflow : Overflow) (position : Nat) : Work Bool := do
  match (← get).window? 7 (some position) with
  | some [branch, .const otherwise, .goto finish, .label holds, .const value, .label finish',
      .branch (.test check) target] =>
      if branch.isConditional && branch.target? = some holds && finish' = finish &&
          (otherwise == 0) != (value == 0) then
        if ← bothUnique holds finish then
          match if check.holds value then some branch else branch.negated? with
          | none => return false
          | some kept =>
              release holds
              release finish
              release target
              acquire overflow target
              remove holds
              remove finish
              rewrite position 7 [kept.retarget target]
        else
          return false
      else
        return false
  | _ => return false

end InPlace

/-- Tries a rule at a position of an arena, and says whether it made a rewrite. -/
def Rule.apply (overflow : Overflow) : Rule → Nat → Work Bool
  | .removeNop => InPlace.contract Straight.removeNop
  | .simplifyDupStorePop => InPlace.contract Straight.simplifyDupStorePop
  | .removePushPop => InPlace.contract Straight.removePushPop
  | .removeLoadStoreSameSlot => InPlace.contract Straight.removeLoadStoreSameSlot
  | .foldConstants => InPlace.contract Straight.foldConstants
  | .simplifyMultiplication => InPlace.contract Straight.simplifyMultiplication
  | .removeIdentityOperation => InPlace.contract Straight.removeIdentityOperation
  | .simplifyRemainderByOne => InPlace.contract Straight.simplifyRemainderByOne
  | .simplifySelfSubtraction => InPlace.contract Straight.simplifySelfSubtraction
  | .simplifyNegation => InPlace.contract Straight.simplifyNegation
  | .foldIncrement => InPlace.contract Straight.foldIncrement
  | .mergeIncrements => InPlace.contract Straight.mergeIncrements
  | .removeSuperfluousStoreLoad => InPlace.removeSuperfluousStoreLoad
  | .removeDeadLabel => InPlace.removeDeadLabel
  | .removeGotoNextLabel => InPlace.removeGotoNextLabel
  | .removeUnreachableAfterGoto => InPlace.removeUnreachableAfterGoto
  | .simplifyGotoGoto => InPlace.simplifyGotoGoto overflow
  | .simplifyConstantBranch => InPlace.simplifyConstantBranch overflow
  | .simplifyConstantBranchThroughGoto => InPlace.simplifyConstantBranchThroughGoto overflow
  | .invertBranchOverGoto => InPlace.invertBranchOverGoto overflow
  | .collapseComparisonTail => InPlace.collapseComparisonTail overflow

end Peephole
