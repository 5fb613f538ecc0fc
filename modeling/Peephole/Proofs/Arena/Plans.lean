import Peephole.Arena.Rule
import Peephole.Proofs.Arena.Reading

/-!
# Rules in place carry out their plans

A rule in place looks ahead, changes counts and nodes, and may look further.  On an arena
that represents a body it does exactly what its plan for the body says: it fails as the
plan does, declines without having changed anything, or makes the edits of the script one
after the other and says so.
-/

namespace Peephole

/-- Performs an edit in place. -/
@[simp]
def Edit.inPlace (overflow : Overflow) : Edit → Work Unit
  | .split position id => do
      let place ← Work.insertAfter position (.label id)
      Work.register ⟨id, splitName id, place, 0⟩
  | .acquire id => Work.acquire overflow id
  | .release id => Work.release id
  | .remove id => Work.remove id
  | .splice position width code => do
      let _ ← Work.rewrite position width code

/-- Performs the edits of a script in place. -/
@[simp]
def Script.inPlace (overflow : Overflow) : Script → Work Unit
  | [] => return ()
  | edit :: rest => do
      edit.inPlace overflow
      inPlace overflow rest

/-- Carries out a plan in place, and says whether it was one to change anything. -/
@[simp]
def Plan.inPlace (overflow : Overflow) : Plan → Work Bool
  | .error fault => throw fault
  | .ok none => return false
  | .ok (some script) => do
      Script.inPlace overflow script
      return true

namespace Work

theorem change_bind {α β : Type} (first : Arena.Change α) (next : α → Arena.Change β) :
    change (first >>= next) = change first >>= fun result => change (next result) := by
  funext arena
  have hright := Process.on_bind (change first) (fun result => change (next result)) arena
  refine Eq.trans ?_ hright.symm
  change Process.on (change (first >>= next)) arena = _
  rw [on_change, on_change, EStateM.run_bind]
  cases first.run arena <;> rfl

theorem erase_eq (position : Nat) :
    erase position = rewrite position 1 [] >>= fun _ => pure () := by
  rw [erase, Arena.erase, change_bind, rewrite, bind_assoc]
  rfl

end Work

namespace Line

theorem instructions_eq_nil_iff {lines : List Line} : instructions lines = [] ↔ lines = [] :=
  List.map_eq_nil_iff

theorem instructions_eq_cons_iff {lines : List Line} {instruction : Instruction}
    {code : List Instruction} :
    instructions lines = instruction :: code ↔
      ∃ position rest, lines = ⟨position, instruction⟩ :: rest ∧ instructions rest = code := by
  cases lines with
  | nil => simp [instructions]
  | cons line rest =>
      obtain ⟨position, instruction'⟩ := line
      simp [instructions, and_assoc]

theorem head?_leadingLabels (lines : List Line) :
    (leadingLabels lines).head? = lines.head?.bind fun line => line.instruction.label? := by
  rcases lines with _ | ⟨⟨position, instruction⟩, rest⟩
  · rfl
  · cases instruction <;> rfl

end Line

namespace InPlace

variable (overflow : Overflow) {arena : Arena} {body : Body}

theorem on_removeGotoBefore {reach : Nat} {cursor : Option Nat} {lines : List Line}
    (position : Nat) (target : LabelId) (hfollows : arena.Follows cursor lines)
    (hreach : lines.length ≤ reach) :
    (removeGotoBefore position target reach cursor).on arena =
      if target ∈ Line.leadingLabels lines then
        (Plan.inPlace overflow (.ok (some [.release target, .splice position 1 []]))).on arena
      else some (.ok false, arena) := by
  induction hfollows generalizing reach with
  | nil => simp [removeGotoBefore, Line.leadingLabels]
  | @cons place node rest hnode hrest ih =>
      cases reach with
      | zero => cases hreach
      | succ reach =>
          have hhere : arena.Follows (some place) (⟨place, node.instruction⟩ :: rest) :=
            .cons hnode hrest
          rw [removeGotoBefore, Process.on_get_bind, hhere.shape?, List.head?_cons,
            Option.bind_some]
          cases node.instruction with
          | label id =>
              simp only [Instruction.label?, Line.leadingLabels, List.mem_cons]
              by_cases htarget : id = target
              · subst htarget
                simp [Work.erase_eq, Work.rewrite]
              · simp [htarget, Ne.symm htarget, Arena.next?_of_node hnode,
                  ih (Nat.le_of_succ_le_succ hreach)]
          | _ => rfl

variable (hrepresents : arena.Represents body) (position : Nat)

include hrepresents

theorem on_contract {contraction? : List Instruction → Option Contraction}
    (hnil : contraction? [] = none) :
    (contract contraction? position).on arena =
      (Plan.inPlace overflow (Rule.contract contraction? (body.ahead position))).on arena := by
  rw [contract, Process.on_get_bind, hrepresents.peek]
  cases hahead : body.ahead position with
  | nil =>
      rw [List.take_nil, Line.instructions, List.map_nil, hnil]
      rfl
  | cons line rest =>
      simp only [Rule.contract, List.head?_cons, Line.position_of_ahead_eq_cons hahead]
      cases contraction? (Line.instructions ((line :: rest).take Contraction.reach)) with
      | none => rfl
      | some contraction => simp [Work.rewrite]

theorem on_removeSuperfluousStoreLoad :
    (removeSuperfluousStoreLoad position).on arena =
      (Plan.inPlace overflow
        (LastLoad.removeSuperfluousStoreLoad body (body.ahead position))).on arena := by
  simp only [removeSuperfluousStoreLoad, Process.on_get_bind, hrepresents.shape?]
  have hnext := hrepresents.follows_next position
  have hreach := hrepresents.length_ahead_le_reach position
  rcases hahead : body.ahead position with _ | ⟨⟨place, first⟩, rest⟩
  · rfl
  · obtain rfl : place = position := Line.position_of_ahead_eq_cons hahead
    rw [hahead, List.tail_cons] at hnext
    rw [hahead, List.length_cons] at hreach
    cases first with
    | store kind slot =>
        have hlast := hnext.isLastLoad (Nat.le_of_succ_le hreach)
        simp only [hnext.shape?, hnext.isDestination]
        rcases rest with _ | ⟨⟨_, second⟩, rest⟩
        · cases kind <;> rfl
        · cases second with
          | load kind' slot' =>
              by_cases hsame : kind = kind' ∧ slot = slot'
              · obtain ⟨rfl, rfl⟩ := hsame
                cases hoverwrites : LastLoad.overwrites body.labels slot rest <;> cases kind <;>
                  simp [Instruction.store?, Instruction.load?, Instruction.label?,
                    LabelTable.isDestination, hlast, LastLoad.isAhead, hrepresents.labels,
                    LastLoad.removeSuperfluousStoreLoad, hoverwrites, Work.rewrite]
              · have hslot : kind = kind' → slot' ≠ slot := fun hkind hslot =>
                  hsame ⟨hkind, hslot.symm⟩
                have hplan : ¬ (kind = kind' ∧ slot = slot' ∧
                    LastLoad.overwrites body.labels slot rest = true) := fun hmatch =>
                  hsame ⟨hmatch.1, hmatch.2.1⟩
                simp only [LastLoad.removeSuperfluousStoreLoad, if_neg hplan]
                cases kind <;> cases kind' <;>
                  simp [Instruction.store?, Instruction.load?, hslot]
          | _ => cases kind <;> rfl
    | _ => rfl

theorem on_removeDeadLabel :
    (removeDeadLabel position).on arena =
      (Plan.inPlace overflow (Control.removeDeadLabel body (body.ahead position))).on arena := by
  rw [removeDeadLabel, Process.on_get_bind, hrepresents.shape?]
  rcases hahead : body.ahead position with _ | ⟨⟨place, first⟩, rest⟩
  · rfl
  · obtain rfl : place = position := Line.position_of_ahead_eq_cons hahead
    cases first with
    | label id =>
        simp only [List.head?_cons, Option.bind_some, Instruction.label?, Control.removeDeadLabel,
          Process.on_bind, Work.on_look, hrepresents.labels]
        cases body.labels.isDead id with
        | error fault => rfl
        | ok dead => cases dead <;> simp [Work.erase_eq, Work.rewrite]
    | _ => rfl

theorem on_removeGotoNextLabel :
    (removeGotoNextLabel position).on arena =
      (Plan.inPlace overflow (Control.removeGotoNextLabel body (body.ahead position))).on arena := by
  rw [removeGotoNextLabel, Process.on_get_bind, hrepresents.shape?]
  have hnext := hrepresents.follows_next position
  have hreach := hrepresents.length_ahead_le_reach position
  rcases hahead : body.ahead position with _ | ⟨⟨place, first⟩, rest⟩
  · rfl
  · obtain rfl : place = position := Line.position_of_ahead_eq_cons hahead
    rw [hahead] at hnext hreach
    cases first with
    | goto target =>
        simp only [List.head?_cons, Option.bind_some, Instruction.goto?,
          Control.removeGotoNextLabel]
        rw [on_removeGotoBefore overflow place target hnext (Nat.le_of_succ_le hreach),
          List.tail_cons]
        by_cases htarget : target ∈ Line.leadingLabels rest <;> simp [htarget]
    | _ => rfl

theorem on_removeUnreachableAfterGoto :
    (removeUnreachableAfterGoto position).on arena =
      (Plan.inPlace overflow
        (Control.removeUnreachableAfterGoto body (body.ahead position))).on arena := by
  have hnext := hrepresents.follows_next position
  rw [removeUnreachableAfterGoto, Process.on_get_bind, hrepresents.shape?]
  rcases hahead : body.ahead position with _ | ⟨⟨_, first⟩, _ | ⟨⟨dead, second⟩, rest⟩⟩
  · rfl
  · rw [hahead] at hnext
    rw [hnext.cursor_eq]
    cases first <;> rfl
  · rw [hahead, List.tail_cons] at hnext
    have hcursor := hnext.cursor_eq
    rw [hcursor] at hnext ⊢
    cases first with
    | goto target =>
        simp only [List.head?_cons, Option.bind_some, Instruction.goto?, Option.map_some,
          Control.removeUnreachableAfterGoto] at hnext ⊢
        rw [hnext.shape?, hnext.shape?]
        simp only [List.head?_cons, Option.bind_some]
        by_cases hlabel : second.isLabel
        · obtain ⟨id, hid⟩ := Option.isSome_iff_exists.mp hlabel
          simp [hlabel, hid]
        · have hnone : second.label? = none := by
            simpa [Instruction.isLabel] using hlabel
          cases second.target? <;> simp [hlabel, hnone, Work.erase_eq, Work.rewrite]
    | _ => rfl

theorem on_simplifyGotoGoto :
    (simplifyGotoGoto overflow position).on arena =
      (Plan.inPlace overflow (Control.simplifyGotoGoto body (body.ahead position))).on arena := by
  rw [simplifyGotoGoto, Process.on_get_bind, hrepresents.shape?]
  rcases hahead : body.ahead position with _ | ⟨⟨place, jump⟩, rest⟩
  · rfl
  · obtain rfl : place = position := Line.position_of_ahead_eq_cons hahead
    have hjump : arena.instruction place = .ok jump := by
      rw [Arena.instruction, hrepresents.get?, Body.get?, hahead]
      rfl
    simp only [List.head?_cons, Option.bind_some, Control.simplifyGotoGoto]
    cases jump.target? with
    | none => rfl
    | some target =>
        dsimp only
        rw [Process.on_get_bind, Work.on_look_bind]
        cases hlanding : body.landing target with
        | error fault =>
            rw [hrepresents.destination_of_error hlanding]
            rfl
        | ok lines =>
            obtain ⟨landing, hdestination, hfollows⟩ := hrepresents.destination_of_ok hlanding
            rw [hdestination, Process.andThen, Process.on_get_bind, hfollows.shape?, ok_bind]
            rcases lines.tail with _ | ⟨⟨_, next⟩, _⟩
            · rfl
            · cases next with
              | goto final =>
                  simp only [List.head?_cons, Option.bind_some, Instruction.goto?]
                  by_cases hless : final < target
                  · simp [hless, hjump, Work.rewrite]
                  · simp [hless]
              | _ => rfl

theorem on_simplifyConstantBranch :
    (simplifyConstantBranch overflow position).on arena =
      (Plan.inPlace overflow
        (Control.simplifyConstantBranch body (body.ahead position))).on arena := by
  rw [simplifyConstantBranch, Process.on_get_bind, hrepresents.window?]
  rcases hahead : body.ahead position with _ | ⟨⟨place, first⟩, _ | ⟨⟨_, second⟩, rest⟩⟩
  · rfl
  · cases first <;> rfl
  · obtain rfl : place = position := Line.position_of_ahead_eq_cons hahead
    cases first with
    | const value =>
        cases second with
        | branch condition target =>
            cases condition with
            | test check =>
                by_cases hholds : check.holds value <;>
                  simp [Line.instructions, Control.simplifyConstantBranch, hholds, Work.rewrite]
            | compare relation => rfl
        | _ => rfl
    | _ => rfl

omit hrepresents in
theorem on_redirect (target final : LabelId) :
    (redirect overflow position target final).on arena =
      (Plan.inPlace overflow (.ok (some
        [.release target, .acquire final, .splice position 2 [.goto final]]))).on arena := by
  simp [redirect, Work.rewrite]

/-- A test of a constant is passed without being made. -/
theorem on_passTest {value : Int32} {target final : LabelId} {test : Nat} {check : ZeroTest}
    {after : List Line}
    (hhere : arena.Follows (some test) (⟨test, .branch (.test check) final⟩ :: after)) :
    (passTest overflow position value target test).on arena =
      if check.holds value then (redirect overflow position target final).on arena
      else
        match Line.leadingLabels after with
        | next :: _ => (redirect overflow position target next).on arena
        | [] =>
            (Plan.inPlace overflow (.ok (body.labels.fresh?.map fun fresh =>
              [.split test fresh, .release target, .acquire fresh,
                .splice position 2 [.goto fresh]]))).on arena := by
  have hafter : arena.Follows (arena.next? test) after := hhere.after
  rw [passTest, Process.on_get_bind, hhere.at?, List.head?_cons, Option.map_some]
  by_cases hholds : check.holds value
  · simp [hholds]
  · simp only [hholds, Bool.false_eq_true, if_false, Process.on_get_bind, hafter.shape?,
      ← Line.head?_leadingLabels]
    cases Line.leadingLabels after with
    | cons next others => rfl
    | nil =>
        cases hfresh : body.labels.fresh? <;>
          simp [hrepresents.labels, hfresh, redirect, Work.rewrite]

theorem on_simplifyConstantBranchThroughGoto :
    (simplifyConstantBranchThroughGoto overflow position).on arena =
      (Plan.inPlace overflow
        (Control.simplifyConstantBranchThroughGoto body (body.ahead position))).on arena := by
  rw [simplifyConstantBranchThroughGoto, Process.on_get_bind, hrepresents.window?]
  rcases hahead : body.ahead position with _ | ⟨⟨place, first⟩, _ | ⟨⟨_, second⟩, rest⟩⟩
  · rfl
  · cases first <;> rfl
  · obtain rfl : place = position := Line.position_of_ahead_eq_cons hahead
    cases first with
    | const value =>
        cases second with
        | goto target =>
            simp only [List.length_cons, Nat.le_add_left, if_true, List.take_succ_cons,
              List.take_zero, Line.instructions, List.map_cons, List.map_nil,
              Control.simplifyConstantBranchThroughGoto]
            rw [Process.on_get_bind, Work.on_look_bind]
            cases hlanding : body.landing target with
            | error fault =>
                rw [hrepresents.destination_of_error hlanding]
                rfl
            | ok lines =>
                obtain ⟨landing, hdestination, hfollows⟩ := hrepresents.destination_of_ok hlanding
                rw [hdestination, ok_bind]
                dsimp only [Process.andThen]
                generalize arena.next? landing = cursor at hfollows ⊢
                generalize lines.tail = ahead at hfollows ⊢
                cases hfollows with
                | nil => rfl
                | @cons test node after hnode hafter =>
                    have hhere : arena.Follows (some test) (⟨test, node.instruction⟩ :: after) :=
                      .cons hnode hafter
                    generalize node.instruction = third at hhere ⊢
                    dsimp only
                    cases third with
                    | branch condition final =>
                        cases condition with
                        | test check =>
                            rw [on_passTest overflow hrepresents place hhere]
                            by_cases hholds : check.holds value
                            · simp only [hholds, if_true]
                              exact on_redirect overflow place target final
                            · simp only [hholds, Bool.false_eq_true, if_false]
                              cases Line.leadingLabels after with
                              | cons next others => exact on_redirect overflow place target next
                              | nil => rfl
                        | compare relation =>
                            rw [passTest, Process.on_get_bind, hhere.at?]
                            rfl
                    | _ =>
                        rw [passTest, Process.on_get_bind, hhere.at?]
                        rfl
        | _ => rfl
    | _ => rfl

theorem on_invertBranchOverGoto :
    (invertBranchOverGoto overflow position).on arena =
      (Plan.inPlace overflow
        (Control.invertBranchOverGoto body (body.ahead position))).on arena := by
  have hwindow := hrepresents.window? 3 position
  rw [invertBranchOverGoto, Process.on_get_bind, hrepresents.shape?]
  rcases hahead : body.ahead position with _ | ⟨⟨place, first⟩, rest⟩
  · rfl
  · obtain rfl : place = position := Line.position_of_ahead_eq_cons hahead
    rw [hahead] at hwindow
    cases first with
    | branch condition skip =>
        rw [List.head?_cons, Option.bind_some, Instruction.conditional?,
          if_pos (show (Instruction.branch condition skip).isConditional from rfl)]
        dsimp only
        rw [Process.on_get_bind, hwindow]
        rcases rest with _ | ⟨⟨_, second⟩, _ | ⟨⟨_, third⟩, rest⟩⟩
        · rfl
        · cases second <;> rfl
        · cases second with
          | goto target =>
              cases third with
              | label id =>
                  by_cases hskip : skip = id <;>
                    simp [Control.invertBranchOverGoto, Line.instructions, hskip,
                      Instruction.negated?, Instruction.retarget, Work.rewrite]
              | _ => rfl
          | _ => rfl
    | _ => rfl

theorem on_bothUnique (left right : LabelId) :
    (bothUnique left right).on arena =
      some (Control.bothUnique body.labels left right, arena) := by
  simp only [bothUnique, Control.bothUnique, Process.on_bind, Work.on_look, hrepresents.labels,
    Option.bind_some]
  cases body.labels.isUnique left with
  | error fault => rfl
  | ok unique => cases unique <;> simp [hrepresents.labels]

theorem on_collapseComparisonTail :
    (collapseComparisonTail overflow position).on arena =
      (Plan.inPlace overflow
        (Control.collapseComparisonTail body (body.ahead position))).on arena := by
  rw [collapseComparisonTail, Process.on_get_bind]
  split
  · rename_i branch otherwise finish holds value finish' check target hwindow
    obtain ⟨window, rest, hahead, hwindow⟩ := hrepresents.exists_of_window? hwindow
    simp only [Line.instructions_eq_cons_iff, Line.instructions_eq_nil_iff] at hwindow
    obtain ⟨place, _, rfl, _, _, rfl, _, _, rfl, _, _, rfl, _, _, rfl, _, _, rfl, _, _, rfl, rfl⟩ :=
      hwindow
    obtain rfl : place = position := Line.position_of_ahead_eq_cons hahead
    rw [hahead]
    cases branch with
    | branch condition skip =>
        simp only [List.cons_append, Control.collapseComparisonTail]
        by_cases hmatch : skip = holds ∧ finish = finish' ∧ ((otherwise == 0) != (value == 0)) = true
        · obtain ⟨rfl, rfl, hvalues⟩ := hmatch
          simp only [Instruction.isConditional, Instruction.target?, hvalues, decide_true,
            Bool.and_self, and_self, if_true, Process.on_bind, on_bothUnique hrepresents,
            Option.bind_some]
          cases Control.bothUnique body.labels skip finish with
          | error fault => rfl
          | ok unique =>
              cases unique with
              | false => rfl
              | true =>
                  by_cases hholds : check.holds value <;>
                    simp [hholds, Instruction.negated?, Instruction.retarget, Work.rewrite]
        · have hdifferent : ¬ (((Instruction.branch condition skip).isConditional &&
              (Instruction.branch condition skip).target? = some holds && finish' = finish &&
              (otherwise == 0) != (value == 0)) = true) := by
            intro hsame
            simp only [Instruction.isConditional, Instruction.target?, Bool.true_and,
              Bool.and_eq_true, decide_eq_true_eq, Option.some.injEq] at hsame
            exact hmatch ⟨hsame.1.1, hsame.1.2.symm, hsame.2⟩
          rw [if_neg hmatch, if_neg hdifferent]
          rfl
    | _ => rfl
  · rename_i hother
    rw [Control.collapseComparisonTail.eq_def]
    split
    · rename_i hahead
      have hwindow := hrepresents.window? 7 position
      simp [hahead, Line.instructions] at hwindow
      exact (hother _ _ _ _ _ _ _ _ hwindow).elim
    · rfl

end InPlace

/-- A rule in place does what its plan says. -/
theorem Rule.on_apply {arena : Arena} {body : Body} (hrepresents : arena.Represents body)
    (overflow : Overflow) (rule : Rule) (position : Nat) :
    (rule.apply overflow position).on arena =
      (Plan.inPlace overflow (rule.plan body (body.ahead position))).on arena := by
  cases rule with
  | removeSuperfluousStoreLoad =>
      exact InPlace.on_removeSuperfluousStoreLoad overflow hrepresents position
  | removeDeadLabel => exact InPlace.on_removeDeadLabel overflow hrepresents position
  | removeGotoNextLabel => exact InPlace.on_removeGotoNextLabel overflow hrepresents position
  | removeUnreachableAfterGoto =>
      exact InPlace.on_removeUnreachableAfterGoto overflow hrepresents position
  | simplifyGotoGoto => exact InPlace.on_simplifyGotoGoto overflow hrepresents position
  | simplifyConstantBranch => exact InPlace.on_simplifyConstantBranch overflow hrepresents position
  | simplifyConstantBranchThroughGoto =>
      exact InPlace.on_simplifyConstantBranchThroughGoto overflow hrepresents position
  | invertBranchOverGoto => exact InPlace.on_invertBranchOverGoto overflow hrepresents position
  | collapseComparisonTail => exact InPlace.on_collapseComparisonTail overflow hrepresents position
  | _ => exact InPlace.on_contract overflow hrepresents position rfl

end Peephole
