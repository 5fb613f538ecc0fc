import Peephole.Proofs.Rewriting.Straight

/-!
# Rewrites of instruction lists

What a single application of a rule can do to the instructions of a body, said
for plain lists: the table of the labels, the positions and the order in which
the rules are tried play no part in it.  Whatever is to be shown of every rule
is shown of every rewrite.
-/

namespace Peephole

open Code

/-- The instructions of a body before and after one rule was applied. -/
inductive Rewrites : List Instruction → List Instruction → Prop
  | contract {before window code after : List Instruction}
      (hreplaceable : Replaceable window code) :
      Rewrites (before ++ window ++ after) (before ++ code ++ after)
  /-- A store and the last load of the same variable. -/
  | storeLoad {before middle after : List Instruction} {kind kind' : Kind} {slot : Slot}
      (havoids : ∀ instruction ∈ middle, instruction.avoids slot = true)
      (hdead : ∀ id ∈ definitions middle, id ∉ targets (before ++ after)) :
      Rewrites
        (before ++ [Instruction.store kind slot, .load kind slot] ++
          (middle ++ Instruction.store kind' slot :: after))
        (before ++ (middle ++ Instruction.store kind' slot :: after))
  | deadLabel {before after : List Instruction} {id : LabelId}
      (hdead : id ∉ targets (before ++ after)) :
      Rewrites (before ++ [Instruction.label id] ++ after) (before ++ after)
  | gotoNext {before after : List Instruction} {labels : List LabelId} {target : LabelId} :
      Rewrites
        (before ++ [Instruction.goto target] ++
          (labels.map .label ++ Instruction.label target :: after))
        (before ++ (labels.map .label ++ Instruction.label target :: after))
  | unreachable {before after : List Instruction} {target : LabelId} {dead : Instruction}
      (hlabel : dead.label? = none) :
      Rewrites (before ++ [Instruction.goto target, dead] ++ after)
        (before ++ [Instruction.goto target] ++ after)
  | chain {before after left right : List Instruction} {jump : Instruction}
      {target final : LabelId} (hjump : jump.target? = some target)
      (hlanding : before ++ [jump] ++ after =
        left ++ Instruction.label target :: .goto final :: right)
      (hsmaller : final < target) :
      Rewrites (before ++ [jump] ++ after) (before ++ [jump.retarget final] ++ after)
  | constantTaken {before after : List Instruction} {value : Int32} {check : ZeroTest}
      {target : LabelId} (hcheck : check.holds value = true) :
      Rewrites (before ++ [Instruction.const value, .branch (.test check) target] ++ after)
        (before ++ [Instruction.goto target] ++ after)
  | constantPassed {before after : List Instruction} {value : Int32} {check : ZeroTest}
      {target : LabelId} (hcheck : check.holds value = false) :
      Rewrites (before ++ [Instruction.const value, .branch (.test check) target] ++ after)
        (before ++ after)
  | throughTaken {before after left right : List Instruction} {value : Int32}
      {check : ZeroTest} {target final : LabelId}
      (hlanding : before ++ [Instruction.const value, .goto target] ++ after =
        left ++ Instruction.label target :: .branch (.test check) final :: right)
      (hcheck : check.holds value = true) :
      Rewrites (before ++ [Instruction.const value, .goto target] ++ after)
        (before ++ [Instruction.goto final] ++ after)
  | throughPassed {before after left right : List Instruction} {value : Int32}
      {check : ZeroTest} {target skipped next : LabelId}
      (hlanding : before ++ [Instruction.const value, .goto target] ++ after =
        left ++ Instruction.label target :: .branch (.test check) skipped :: .label next :: right)
      (hcheck : check.holds value = false) :
      Rewrites (before ++ [Instruction.const value, .goto target] ++ after)
        (before ++ [Instruction.goto next] ++ after)
  /-- The label after the test is put there first; its number is above all others. -/
  | throughSplit {before after left right : List Instruction} {value : Int32}
      {check : ZeroTest} {target skipped fresh : LabelId}
      (hlanding : before ++ [Instruction.const value, .goto target] ++ after =
        left ++ Instruction.label target :: .branch (.test check) skipped :: .label fresh :: right)
      (hcheck : check.holds value = false)
      (hfresh : ∀ id ∈ definitions
        (left ++ Instruction.label target :: .branch (.test check) skipped :: right), id < fresh)
      (hbare : ∀ id rest, right ≠ .label id :: rest) :
      Rewrites (left ++ Instruction.label target :: .branch (.test check) skipped :: right)
        (before ++ [Instruction.goto fresh] ++ after)
  | invert {before after : List Instruction} {condition : Condition} {skip target : LabelId} :
      Rewrites
        (before ++ [Instruction.branch condition skip, .goto target] ++
          Instruction.label skip :: after)
        (before ++ [Instruction.branch condition.negate target] ++ Instruction.label skip :: after)
  /-- A comparison that is turned into a truth value and tested at once.  Nothing
  else goes to the two labels in the middle. -/
  | collapse {before after : List Instruction} {condition : Condition}
      {otherwise value : Int32} {check : ZeroTest} {holds finish target : LabelId}
      (hvalues : ((otherwise == 0) != (value == 0)) = true)
      (hholds : holds ∉ targets before ++ [finish, target] ++ targets after)
      (hfinish : finish ∉ targets before ++ [holds, target] ++ targets after) :
      Rewrites
        (before ++ [Instruction.branch condition holds, .const otherwise, .goto finish,
          .label holds, .const value, .label finish, .branch (.test check) target] ++ after)
        (before ++
          [Instruction.branch (if check.holds value then condition else condition.negate) target] ++
          after)

/-- The instructions of a body before and after a number of rules were applied.
Whatever is rewritten is well formed. -/
inductive RewritesIn : Nat → List Instruction → List Instruction → Prop
  | refl (code : List Instruction) : RewritesIn 0 code code
  | step {before middle after : List Instruction} {count : Nat} (hwell : WellFormed before)
      (hfirst : Rewrites before middle) (hrest : RewritesIn count middle after) :
      RewritesIn (count + 1) before after

end Peephole
