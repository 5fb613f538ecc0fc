import Peephole.Proofs.Renumbering

/-!
# The rules under a renumbering

A rule that proposes a script for some lines of a body proposes the same script,
renumbered, for the lines of the renumbered body.
-/

namespace Peephole

/-! ## Straight-line code -/

namespace Straight

/-- What is contracted is contracted in the same way after a renumbering. -/
def Steady (contraction? : List Instruction → Option Contraction) : Prop :=
  ∀ (renumbering : Renumbering) (code : List Instruction),
    contraction? code = none ∨
      contraction? (code.map renumbering.instruction) = contraction? code

/-- The second increment is only looked at if the first is not by zero. -/
theorem steady_mergeIncrements : Steady mergeIncrements := by
  intro renumbering code
  unfold mergeIncrements
  split
  · rename_i slot left rest
    by_cases hleft : left = 0
    · simp [hleft, Renumbering.instruction]
    · simp only [hleft, if_false, List.map_cons, Renumbering.instruction]
      split <;> simp [Renumbering.instruction]
  · exact .inl rfl

/-- The contractions speak of the instructions in a window, and none of these names a
label. -/
theorem steady_of_mem :
    ∀ contraction? ∈ [removeNop, simplifyDupStorePop, removePushPop, removeLoadStoreSameSlot,
      foldConstants, simplifyMultiplication, removeIdentityOperation, simplifyRemainderByOne,
      simplifySelfSubtraction, simplifyNegation, foldIncrement, mergeIncrements],
      Steady contraction? := by
  simp only [List.forall_mem_cons, List.not_mem_nil, false_implies, implies_true, and_true]
  refine ⟨?_, ?_, ?_, ?_, ?_, ?_, ?_, ?_, ?_, ?_, ?_, steady_mergeIncrements⟩
  all_goals
    intro renumbering code
    simp only [removeNop, simplifyDupStorePop, removePushPop, removeLoadStoreSameSlot,
      foldConstants, simplifyMultiplication, removeIdentityOperation, simplifyRemainderByOne,
      simplifySelfSubtraction, simplifyNegation, foldIncrement]
    split <;> simp [Renumbering.instruction]

end Straight

theorem Renumbering.map_of_plain (renumbering : Renumbering) {code : List Instruction}
    (hplain : ∀ instruction ∈ code, instruction.label? = none ∧ instruction.target? = none) :
    code.map renumbering.instruction = code := by
  refine (List.map_congr_left fun instruction hinstruction => ?_).trans (List.map_id code)
  apply Renumbering.instruction_eq_self
  simp [hplain instruction hinstruction]

section

variable {renumbering : Renumbering} {source result : Body} {before lines : List Line}
variable {script : Script}

theorem Rule.contract_renumber {contraction? : List Instruction → Option Contraction}
    (hsteady : Straight.Steady contraction?)
    (hfits : ∀ ahead contraction, contraction? ahead = some contraction →
      contraction.Fits ahead)
    (hplan : contract contraction? lines = .ok (some script)) :
    contract contraction? (lines.map renumbering.line) =
      .ok (some (script.map renumbering.edit)) := by
  cases lines with
  | nil => cases hplan
  | cons first rest =>
      rw [contract, List.head?_cons] at hplan
      obtain ⟨contraction, hcontraction, rfl⟩ := Option.map_eq_some_iff.mp (Except.ok.inj hplan)
      obtain ⟨window, others, -, -, hreplaceable⟩ := hfits _ _ hcontraction
      have hcode := renumbering.map_of_plain fun instruction hinstruction =>
        hreplaceable.plain instruction (List.mem_append_right window hinstruction)
      have hsame := (hsteady renumbering _).resolve_left
        (Option.ne_none_iff_exists'.mpr ⟨contraction, hcontraction⟩)
      rw [contract, List.map_cons, List.head?_cons, ← List.map_cons, ← List.map_take,
        Renumbering.instructions_map, hsame, hcontraction]
      simp [Renumbering.line, Renumbering.edit, hcode]

theorem LastLoad.overwrites_renumber (hrenumbered : source.Renumbered renumbering result)
    (slot : Slot) (hlines : ∀ line ∈ lines, line ∈ source.lines) :
    overwrites result.labels slot (lines.map renumbering.line) =
      overwrites source.labels slot lines := by
  induction lines with
  | nil => rfl
  | cons line rest ih =>
      have hdestination := hrenumbered.isDestination (hlines line List.mem_cons_self)
      have hrest := ih fun other hother => hlines other (List.mem_cons_of_mem line hother)
      obtain ⟨position, instruction⟩ := line
      cases instruction <;>
        simp_all [overwrites, Renumbering.line, Renumbering.instruction, Instruction.isJump,
          Instruction.target?]

theorem LastLoad.removeSuperfluousStoreLoad_renumber
    (hrenumbered : source.Renumbered renumbering result) (hlines : source.lines = before ++ lines)
    (hplan : removeSuperfluousStoreLoad source lines = .ok (some script)) :
    removeSuperfluousStoreLoad result (lines.map renumbering.line) =
      .ok (some (script.map renumbering.edit)) := by
  unfold removeSuperfluousStoreLoad at hplan
  split at hplan
  · rename_i position kind slot place kind' slot' rest
    split at hplan
    · rename_i hmatch
      cases hplan
      have hrest : ∀ line ∈ rest, line ∈ source.lines := by
        intro line hline
        simp [hlines, hline]
      have hoverwrites := overwrites_renumber hrenumbered slot hrest
      rw [← hoverwrites] at hmatch
      exact if_pos hmatch
    · cases hplan
  · cases hplan

namespace Control

theorem removeDeadLabel_renumber (hrenumbered : source.Renumbered renumbering result)
    (hlines : source.lines = before ++ lines)
    (hplan : removeDeadLabel source lines = .ok (some script)) :
    removeDeadLabel result (lines.map renumbering.line) =
      .ok (some (script.map renumbering.edit)) := by
  unfold removeDeadLabel at hplan
  split at hplan
  · rename_i position id rest
    have hid : id ∈ Line.definitions source.lines := Line.mem_definitions.mpr (by simp [hlines])
    have hdead := hrenumbered.isDead hid
    simp only [List.map_cons, Renumbering.line, Renumbering.instruction, removeDeadLabel, hdead]
    cases hsource : source.labels.isDead id with
    | error fault =>
        rw [hsource] at hplan
        cases hplan
    | ok dead =>
        rw [hsource] at hplan
        cases dead with
        | false => cases hplan
        | true =>
            cases hplan
            rfl
  · cases hplan

theorem removeGotoNextLabel_renumber (source result : Body)
    (hplan : removeGotoNextLabel source lines = .ok (some script)) :
    removeGotoNextLabel result (lines.map renumbering.line) =
      .ok (some (script.map renumbering.edit)) := by
  unfold removeGotoNextLabel at hplan
  split at hplan
  · rename_i position target rest
    split at hplan
    · rename_i htarget
      cases hplan
      refine if_pos ?_
      rw [Renumbering.leadingLabels_map]
      exact List.mem_map_of_mem htarget
    · cases hplan
  · cases hplan

theorem removeUnreachableAfterGoto_renumber (source result : Body)
    (hplan : removeUnreachableAfterGoto source lines = .ok (some script)) :
    removeUnreachableAfterGoto result (lines.map renumbering.line) =
      .ok (some (script.map renumbering.edit)) := by
  unfold removeUnreachableAfterGoto at hplan
  split at hplan
  · rename_i position target place dead rest
    split at hplan
    · cases hplan
    · rename_i hlabel
      cases hplan
      cases dead with
      | label id => exact absurd rfl hlabel
      | _ => rfl
  · cases hplan

theorem simplifyGotoGoto_renumber (hrenumbered : source.Renumbered renumbering result)
    (hlines : source.lines = before ++ lines)
    (hplan : simplifyGotoGoto source lines = .ok (some script)) :
    simplifyGotoGoto result (lines.map renumbering.line) =
      .ok (some (script.map renumbering.edit)) := by
  unfold simplifyGotoGoto at hplan
  split at hplan
  · rename_i position jump rest
    split at hplan
    · cases hplan
    · rename_i target hjump
      have htarget : target ∈ Line.definitions source.lines :=
        hrenumbered.source_synced.mem_definitions (by simp [hlines, Line.targets, hjump])
      obtain ⟨front, site, behind, hsite, hsource, hresult⟩ := hrenumbered.landing htarget
      simp only [hsource, ok_bind, List.tail_cons] at hplan
      split at hplan
      · rename_i place final others
        split at hplan
        · rename_i hsmaller
          cases hplan
          have hfinal : final ∈ Line.definitions source.lines :=
            hrenumbered.source_synced.mem_definitions (by simp [hsite, Line.targets])
          have hsmaller' := hrenumbered.increasing final hfinal target htarget hsmaller
          simp only [List.map_cons, Renumbering.line, simplifyGotoGoto,
            Renumbering.target?_instruction, hjump, Option.map_some, hresult, ok_bind,
            List.tail_cons, Renumbering.instruction_goto, hsmaller', if_true,
            Renumbering.retarget_instruction]
          rfl
        · cases hplan
      · cases hplan
  · cases hplan

theorem simplifyConstantBranch_renumber (source result : Body)
    (hplan : simplifyConstantBranch source lines = .ok (some script)) :
    simplifyConstantBranch result (lines.map renumbering.line) =
      .ok (some (script.map renumbering.edit)) := by
  unfold simplifyConstantBranch at hplan
  split at hplan
  · rename_i position value place check target rest
    split at hplan
    · rename_i hcheck
      cases hplan
      exact if_pos hcheck
    · rename_i hcheck
      cases hplan
      exact if_neg hcheck
  · cases hplan

theorem invertBranchOverGoto_renumber (source result : Body)
    (hplan : invertBranchOverGoto source lines = .ok (some script)) :
    invertBranchOverGoto result (lines.map renumbering.line) =
      .ok (some (script.map renumbering.edit)) := by
  unfold invertBranchOverGoto at hplan
  split at hplan
  · split at hplan
    · rename_i hskip
      cases hplan
      exact if_pos (congrArg renumbering.label hskip)
    · cases hplan
  · cases hplan

theorem simplifyConstantBranchThroughGoto_renumber
    (hrenumbered : source.Renumbered renumbering result)
    (hlines : source.lines = before ++ lines)
    (hplan : simplifyConstantBranchThroughGoto source lines = .ok (some script)) :
    simplifyConstantBranchThroughGoto result (lines.map renumbering.line) =
      .ok (some (script.map renumbering.edit)) := by
  unfold simplifyConstantBranchThroughGoto at hplan
  split at hplan
  · rename_i position value jumping target rest
    have htarget : target ∈ Line.definitions source.lines :=
      hrenumbered.source_synced.mem_definitions (by simp [hlines, Line.targets])
    obtain ⟨front, site, behind, hsite, hsource, hresult⟩ := hrenumbered.landing htarget
    simp only [hsource, ok_bind, List.tail_cons] at hplan
    simp only [List.map_cons, Renumbering.line, Renumbering.instruction,
      simplifyConstantBranchThroughGoto, hresult, ok_bind, List.tail_cons]
    split at hplan
    · rename_i place check final others
      simp only [List.map_cons, Renumbering.line, Renumbering.instruction]
      split at hplan
      · rename_i hcheck
        cases hplan
        exact if_pos hcheck
      · rename_i hcheck
        rw [if_neg hcheck]
        split at hplan
        · rename_i next more hnext
          cases hplan
          simp only [Renumbering.leadingLabels_map, hnext, List.map_cons]
          rfl
        · rename_i hnext
          obtain ⟨fresh, hfresh, rfl⟩ := Option.map_eq_some_iff.mp (Except.ok.inj hplan)
          simp only [Renumbering.leadingLabels_map, hnext, List.map_nil, hrenumbered.fresh _ hfresh]
          rfl
    · cases hplan
  · cases hplan

theorem collapseComparisonTail_renumber (hrenumbered : source.Renumbered renumbering result)
    (hlines : source.lines = before ++ lines)
    (hplan : collapseComparisonTail source lines = .ok (some script)) :
    collapseComparisonTail result (lines.map renumbering.line) =
      .ok (some (script.map renumbering.edit)) := by
  unfold collapseComparisonTail at hplan
  split at hplan
  · rename_i position condition holds _ otherwise _ finish _ id _ value _ id' _ check target rest
    split at hplan
    · rename_i hmatch
      obtain ⟨rfl, rfl, hvalues⟩ := hmatch
      have hholds : holds ∈ Line.definitions source.lines :=
        Line.mem_definitions.mpr (by simp [hlines])
      have hfinish : finish ∈ Line.definitions source.lines :=
        Line.mem_definitions.mpr (by simp [hlines])
      have hunique := hrenumbered.bothUnique hholds hfinish
      simp only [List.map_cons, Renumbering.line, Renumbering.instruction, collapseComparisonTail,
        hvalues, hunique, and_self, if_true]
      cases hsource : bothUnique source.labels holds finish with
      | error fault =>
          rw [hsource] at hplan
          cases hplan
      | ok unique =>
          rw [hsource] at hplan
          cases unique with
          | false => cases hplan
          | true =>
              cases hplan
              rfl
    · cases hplan
  · cases hplan

end Control

/-! ## All rules -/

namespace Rule

theorem plan_renumber (rule : Rule) (hrenumbered : source.Renumbered renumbering result)
    (hlines : source.lines = before ++ lines)
    (hplan : rule.plan source lines = .ok (some script)) :
    rule.plan result (lines.map renumbering.line) = .ok (some (script.map renumbering.edit)) := by
  cases rule with
  | removeNop =>
      exact contract_renumber (Straight.steady_of_mem _ (by simp))
        (fun _ _ => Straight.fits_removeNop) hplan
  | simplifyDupStorePop =>
      exact contract_renumber (Straight.steady_of_mem _ (by simp))
        (fun _ _ => Straight.fits_simplifyDupStorePop) hplan
  | removePushPop =>
      exact contract_renumber (Straight.steady_of_mem _ (by simp))
        (fun _ _ => Straight.fits_removePushPop) hplan
  | removeLoadStoreSameSlot =>
      exact contract_renumber (Straight.steady_of_mem _ (by simp))
        (fun _ _ => Straight.fits_removeLoadStoreSameSlot) hplan
  | foldConstants =>
      exact contract_renumber (Straight.steady_of_mem _ (by simp))
        (fun _ _ => Straight.fits_foldConstants) hplan
  | simplifyMultiplication =>
      exact contract_renumber (Straight.steady_of_mem _ (by simp))
        (fun _ _ => Straight.fits_simplifyMultiplication) hplan
  | removeIdentityOperation =>
      exact contract_renumber (Straight.steady_of_mem _ (by simp))
        (fun _ _ => Straight.fits_removeIdentityOperation) hplan
  | simplifyRemainderByOne =>
      exact contract_renumber (Straight.steady_of_mem _ (by simp))
        (fun _ _ => Straight.fits_simplifyRemainderByOne) hplan
  | simplifySelfSubtraction =>
      exact contract_renumber (Straight.steady_of_mem _ (by simp))
        (fun _ _ => Straight.fits_simplifySelfSubtraction) hplan
  | simplifyNegation =>
      exact contract_renumber (Straight.steady_of_mem _ (by simp))
        (fun _ _ => Straight.fits_simplifyNegation) hplan
  | foldIncrement =>
      exact contract_renumber (Straight.steady_of_mem _ (by simp))
        (fun _ _ => Straight.fits_foldIncrement) hplan
  | mergeIncrements =>
      exact contract_renumber (Straight.steady_of_mem _ (by simp))
        (fun _ _ => Straight.fits_mergeIncrements) hplan
  | removeSuperfluousStoreLoad =>
      exact LastLoad.removeSuperfluousStoreLoad_renumber hrenumbered hlines hplan
  | removeDeadLabel => exact Control.removeDeadLabel_renumber hrenumbered hlines hplan
  | removeGotoNextLabel => exact Control.removeGotoNextLabel_renumber source result hplan
  | removeUnreachableAfterGoto =>
      exact Control.removeUnreachableAfterGoto_renumber source result hplan
  | simplifyGotoGoto => exact Control.simplifyGotoGoto_renumber hrenumbered hlines hplan
  | simplifyConstantBranch => exact Control.simplifyConstantBranch_renumber source result hplan
  | simplifyConstantBranchThroughGoto =>
      exact Control.simplifyConstantBranchThroughGoto_renumber hrenumbered hlines hplan
  | invertBranchOverGoto => exact Control.invertBranchOverGoto_renumber source result hplan
  | collapseComparisonTail =>
      exact Control.collapseComparisonTail_renumber hrenumbered hlines hplan

/-- A rule that proposes nothing for a renumbered body proposes nothing for the body. -/
theorem plan_eq_none_of_renumbered (rule : Rule)
    (hrenumbered : source.Renumbered renumbering result) (hlines : source.lines = before ++ lines)
    (hnone : rule.plan result (lines.map renumbering.line) = .ok none) :
    rule.plan source lines = .ok none := by
  have hadmits := rule.admits_plan hrenumbered.source_synced hlines
  cases hplan : rule.plan source lines with
  | error fault =>
      rw [hplan] at hadmits
      cases hadmits
  | ok proposal =>
      cases proposal with
      | none => rfl
      | some script =>
          rw [rule.plan_renumber hrenumbered hlines hplan] at hnone
          cases hnone

end Rule

end

end Peephole
