import Peephole.Rule.Straight
import Peephole.Rule.LastLoad
import Peephole.Rule.Control

/-!
# The rules

The rules of the optimizer in the order in which they are tried, with their
names and the categories by which they are switched on and off.
-/

namespace Peephole

inductive Category where
  | stack
  | arithmetic
  | slots
  | jumps
  deriving DecidableEq, Repr

def Category.name : Category → String
  | .stack => "stack"
  | .arithmetic => "arithmetic"
  | .slots => "slots"
  | .jumps => "jumps"

inductive Rule where
  | removeNop
  | simplifyDupStorePop
  | removePushPop
  | removeLoadStoreSameSlot
  | foldConstants
  | simplifyMultiplication
  | removeIdentityOperation
  | simplifyRemainderByOne
  | simplifySelfSubtraction
  | simplifyNegation
  | foldIncrement
  | mergeIncrements
  | removeSuperfluousStoreLoad
  | removeDeadLabel
  | removeGotoNextLabel
  | removeUnreachableAfterGoto
  | simplifyGotoGoto
  | simplifyConstantBranch
  | simplifyConstantBranchThroughGoto
  | invertBranchOverGoto
  | collapseComparisonTail
  deriving DecidableEq, Repr

namespace Rule

/-- All rules, in the order in which they are tried. -/
def all : List Rule :=
  [.removeNop, .simplifyDupStorePop, .removePushPop, .removeLoadStoreSameSlot,
    .foldConstants, .simplifyMultiplication, .removeIdentityOperation,
    .simplifyRemainderByOne, .simplifySelfSubtraction, .simplifyNegation,
    .foldIncrement, .mergeIncrements, .removeSuperfluousStoreLoad,
    .removeDeadLabel, .removeGotoNextLabel, .removeUnreachableAfterGoto, .simplifyGotoGoto,
    .simplifyConstantBranch, .simplifyConstantBranchThroughGoto, .invertBranchOverGoto,
    .collapseComparisonTail]

theorem mem_all (rule : Rule) : rule ∈ all := by
  cases rule <;> decide

def name : Rule → String
  | .removeNop => "remove_nop"
  | .simplifyDupStorePop => "simplify_dup_store_pop"
  | .removePushPop => "remove_push_pop"
  | .removeLoadStoreSameSlot => "remove_load_store_same_slot"
  | .foldConstants => "fold_constants"
  | .simplifyMultiplication => "simplify_multiplication"
  | .removeIdentityOperation => "remove_identity_operation"
  | .simplifyRemainderByOne => "simplify_remainder_by_one"
  | .simplifySelfSubtraction => "simplify_self_subtraction"
  | .simplifyNegation => "simplify_negation"
  | .foldIncrement => "fold_increment"
  | .mergeIncrements => "merge_increments"
  | .removeSuperfluousStoreLoad => "remove_superfluous_storeload"
  | .removeDeadLabel => "remove_dead_label"
  | .removeGotoNextLabel => "remove_goto_next_label"
  | .removeUnreachableAfterGoto => "remove_unreachable_after_goto"
  | .simplifyGotoGoto => "simplify_goto_goto"
  | .simplifyConstantBranch => "simplify_constant_branch"
  | .simplifyConstantBranchThroughGoto => "simplify_constant_branch_through_goto"
  | .invertBranchOverGoto => "invert_branch_over_goto"
  | .collapseComparisonTail => "collapse_comparison_tail"

def ofName? (name : String) : Option Rule :=
  all.find? (·.name == name)

def category : Rule → Category
  | .removeNop | .simplifyDupStorePop | .removePushPop | .removeLoadStoreSameSlot => .stack
  | .foldConstants | .simplifyMultiplication | .removeIdentityOperation
  | .simplifyRemainderByOne | .simplifySelfSubtraction | .simplifyNegation => .arithmetic
  | .foldIncrement | .mergeIncrements | .removeSuperfluousStoreLoad => .slots
  | .removeDeadLabel | .removeGotoNextLabel | .removeUnreachableAfterGoto | .simplifyGotoGoto
  | .simplifyConstantBranch | .simplifyConstantBranchThroughGoto | .invertBranchOverGoto
  | .collapseComparisonTail => .jumps

/-- The plan of a rule that contracts straight-line code. -/
def contract (contraction? : List Instruction → Option Contraction) (lines : List Line) :
    Plan :=
  match lines.head? with
  | none => .ok none
  | some line =>
      .ok <| (contraction? (Line.instructions (lines.take Contraction.reach))).map
        fun contraction => [.splice line.position contraction.width contraction.code]

/-- What a rule proposes for the first of some lines of a body. -/
def plan (rule : Rule) (body : Body) : List Line → Plan :=
  match rule with
  | .removeNop => contract Straight.removeNop
  | .simplifyDupStorePop => contract Straight.simplifyDupStorePop
  | .removePushPop => contract Straight.removePushPop
  | .removeLoadStoreSameSlot => contract Straight.removeLoadStoreSameSlot
  | .foldConstants => contract Straight.foldConstants
  | .simplifyMultiplication => contract Straight.simplifyMultiplication
  | .removeIdentityOperation => contract Straight.removeIdentityOperation
  | .simplifyRemainderByOne => contract Straight.simplifyRemainderByOne
  | .simplifySelfSubtraction => contract Straight.simplifySelfSubtraction
  | .simplifyNegation => contract Straight.simplifyNegation
  | .foldIncrement => contract Straight.foldIncrement
  | .mergeIncrements => contract Straight.mergeIncrements
  | .removeSuperfluousStoreLoad => LastLoad.removeSuperfluousStoreLoad body
  | .removeDeadLabel => Control.removeDeadLabel body
  | .removeGotoNextLabel => Control.removeGotoNextLabel body
  | .removeUnreachableAfterGoto => Control.removeUnreachableAfterGoto body
  | .simplifyGotoGoto => Control.simplifyGotoGoto body
  | .simplifyConstantBranch => Control.simplifyConstantBranch body
  | .simplifyConstantBranchThroughGoto => Control.simplifyConstantBranchThroughGoto body
  | .invertBranchOverGoto => Control.invertBranchOverGoto body
  | .collapseComparisonTail => Control.collapseComparisonTail body

/-- Tries a rule on a body with some of its lines ahead. -/
def attempt (rule : Rule) (body : Body) (ahead : List Line) : Outcome :=
  match rule.plan body ahead with
  | .error fault => .failed fault body
  | .ok none => .declined
  | .ok (some script) => Script.run body script

/-- Tries a rule at a position.  A stale position is declined. -/
def applyAt (rule : Rule) (body : Body) (position : Nat) : Outcome :=
  rule.attempt body (body.ahead position)

end Rule

end Peephole
