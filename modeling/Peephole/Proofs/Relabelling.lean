import Peephole.Proofs.History
import Peephole.Proofs.Storage

/-!
# Relabelling

The numbers of the labels matter to an optimizer by their order only.  Code whose
labels have other numbers in the same order is optimized in the same way; the
labels that are put in take the numbers after the greatest there is.
-/

namespace Peephole

namespace Code

/-- Gives the labels of some code other numbers. -/
def relabel (label : LabelId → LabelId) (code : List Instruction) : List Instruction :=
  code.map (Renumbering.mk id label).instruction

variable {code : List Instruction} {label other : LabelId → LabelId}

theorem length_relabel : (relabel label code).length = code.length :=
  List.length_map _

theorem definitions_relabel : definitions (relabel label code) = (definitions code).map label := by
  simp only [definitions, relabel, List.filterMap_map, List.map_filterMap]
  exact List.filterMap_congr fun instruction _ => Renumbering.label?_instruction

theorem targets_relabel : targets (relabel label code) = (targets code).map label := by
  simp only [targets, relabel, List.filterMap_map, List.map_filterMap]
  exact List.filterMap_congr fun instruction _ => Renumbering.target?_instruction

theorem number_relabel (first : Nat) (label : LabelId → LabelId) (code : List Instruction) :
    Line.number first (relabel label code) =
      (Line.number first code).map (Renumbering.mk id label).line :=
  (Renumbering.map_number ⟨id, label⟩ (fun _ => rfl) code).symm

/-- Only the numbers of the labels that are defined matter in well-formed code. -/
theorem WellFormed.relabel_congr (hwell : WellFormed code)
    (hagrees : ∀ id ∈ definitions code, other id = label id) :
    relabel other code = relabel label code := by
  refine List.map_congr_left fun instruction hinstruction => ?_
  cases instruction with
  | goto target =>
      have hdefined := hwell.closed target (List.mem_filterMap.mpr ⟨_, hinstruction, rfl⟩)
      exact congrArg Instruction.goto (hagrees target hdefined)
  | branch condition target =>
      have hdefined := hwell.closed target (List.mem_filterMap.mpr ⟨_, hinstruction, rfl⟩)
      exact congrArg (Instruction.branch condition) (hagrees target hdefined)
  | label id => exact congrArg Instruction.label (hagrees id (mem_definitions.mpr hinstruction))
  | _ => rfl

theorem WellFormed.relabel (hwell : WellFormed code)
    (hincreasing : ∀ left ∈ definitions code, ∀ right ∈ definitions code,
      left < right → label left < label right) : WellFormed (relabel label code) := by
  constructor
  · rw [definitions_relabel]
    exact hwell.nodup.map_on fun _ hleft _ hright heq =>
      Renumbering.injective_of_increasing hincreasing hleft hright heq
  · intro id hid
    rw [targets_relabel] at hid
    obtain ⟨target, htarget, rfl⟩ := List.mem_map.mp hid
    rw [definitions_relabel]
    exact List.mem_map_of_mem (hwell.closed target htarget)

end Code

namespace Body

variable {names names' : List (LabelId × String)} {code : List Instruction} {body : Body}
variable {greatest : LabelId}

/-- A body put together from relabelled code. -/
theorem mirrored_of_assemble {relabelled : Body} {label : LabelId → LabelId}
    (hassemble : assemble names code = .ok body)
    (hassemble' : assemble names' (Code.relabel label code) = .ok relabelled)
    (hgreatest : greatest ∈ Code.definitions code)
    (hle : ∀ id ∈ Code.definitions code, id ≤ greatest)
    (hincreasing : ∀ left ∈ Code.definitions code, ∀ right ∈ Code.definitions code,
      left < right → label left < label right)
    (hroom : greatest.toNat + code.length < UInt32.size)
    (hroom' : (label greatest).toNat + code.length < UInt32.size)
    (hupcoming : ∀ offset < code.length, label (UInt32.ofNat (greatest.toNat + 1 + offset)) =
      UInt32.ofNat ((label greatest).toNat + 1 + offset)) :
    body.Mirrored ⟨id, label⟩ relabelled := by
  obtain ⟨hsynced, hlines, hinstructions⟩ := synced_of_assemble hassemble
  obtain ⟨hsynced', hlines', -⟩ := synced_of_assemble hassemble'
  have hdefinitions : Line.definitions body.lines = Code.definitions code := by
    rw [hlines, Line.definitions_number]
  have hgreatest' : label greatest ∈ Code.definitions (Code.relabel label code) := by
    rw [Code.definitions_relabel]
    exact List.mem_map_of_mem hgreatest
  have hle' : ∀ id ∈ Code.definitions (Code.relabel label code), id ≤ label greatest := by
    rw [Code.definitions_relabel]
    intro id' hid'
    obtain ⟨id, hid, rfl⟩ := List.mem_map.mp hid'
    by_cases heq : id = greatest
    · rw [heq]
      exact UInt32.le_refl _
    · exact UInt32.le_of_lt (hincreasing id hid greatest hgreatest
        (UInt32.lt_of_le_of_ne (hle id hid) heq))
  have hsupply := labels_supply_of_assemble hassemble hgreatest hle
  have hsupply' := labels_supply_of_assemble hassemble' hgreatest' hle'
  refine ⟨hsynced, hsynced', ⟨?_, fun offset => ?_⟩, ?_, fun offset hoffset => ?_⟩
  · rw [hlines', hlines]
    exact Code.number_relabel 0 label code
  · rw [supply_of_assemble hassemble, supply_of_assemble hassemble', Code.length_relabel]
    rfl
  · rw [hdefinitions]
    exact hincreasing
  · -- The greatest label is one of the instructions, so there is room for all the others.
    have hlength := Code.length_eq_size_add code
    have hlabels := List.length_pos_of_mem hgreatest
    rw [hinstructions] at hoffset
    rw [LabelTable.upcoming?, LabelTable.upcoming?, hsupply, hsupply', if_pos (by omega),
      if_pos (by omega), Option.map_some]
    exact congrArg some (hupcoming offset (by omega)).symm

end Body

/-- Code with other label numbers in the same order is optimized alike: with the same
report, or stopped by the same fault, and to code that is again the same but for the
numbers.  New labels are numbered from the greatest label on in both. -/
theorem optimize_relabel (optimizer : Optimizer) (label extended : LabelId → LabelId)
    {names : List (LabelId × String)} {code : List Instruction} {body : Body} {greatest : LabelId}
    (hassemble : Body.assemble names code = .ok body)
    (hgreatest : greatest ∈ Code.definitions code)
    (hle : ∀ id ∈ Code.definitions code, id ≤ greatest)
    (hincreasing : ∀ left ∈ Code.definitions code, ∀ right ∈ Code.definitions code,
      left < right → label left < label right)
    (hroom : greatest.toNat + code.length < UInt32.size)
    (hroom' : (label greatest).toNat + code.length < UInt32.size)
    (hagrees : ∀ id ∈ Code.definitions code, extended id = label id)
    (hupcoming : ∀ offset < code.length,
      extended (UInt32.ofNat (greatest.toNat + 1 + offset)) =
        UInt32.ofNat ((label greatest).toNat + 1 + offset))
    (names' : List (LabelId × String)) :
    ∃ relabelled, Body.assemble names' (Code.relabel label code) = .ok relabelled ∧
      (optimizer.optimize relabelled).1 = (optimizer.optimize body).1 ∧
      (optimizer.optimize relabelled).2.instructions =
        Code.relabel extended (optimizer.optimize body).2.instructions := by
  obtain ⟨hsynced, -, hinstructions⟩ := Body.synced_of_assemble hassemble
  have hwell := hsynced.wellFormed
  rw [hinstructions] at hwell
  have hincreasing' : ∀ left ∈ Code.definitions code, ∀ right ∈ Code.definitions code,
      left < right → extended left < extended right := by
    intro left hleft right hright hlt
    rw [hagrees left hleft, hagrees right hright]
    exact hincreasing left hleft right hright hlt
  rw [← hagrees greatest hgreatest] at hroom' hupcoming
  rw [← hwell.relabel_congr hagrees]
  obtain ⟨relabelled, hassemble'⟩ := Body.exists_assemble names' (hwell.relabel hincreasing')
  have hmirrored := Body.mirrored_of_assemble hassemble hassemble' hgreatest hle hincreasing'
    hroom hroom' hupcoming
  obtain ⟨hreport, hlast⟩ := optimizer.optimize_mirrored hmirrored
  refine ⟨relabelled, hassemble', hreport, ?_⟩
  rw [Body.instructions, hlast.aligned.lines, Renumbering.instructions_map]
  rfl

/-- Labels ten times as large.  The label that is put in comes after the greatest. -/
theorem optimize_relabel_at_detour :
    ∃ body relabelled, Body.assemble [] detour = .ok body ∧
      Body.assemble [] (Code.relabel (10 * ·) detour) = .ok relabelled ∧
      ((Optimizer.ofSettings {}).optimize relabelled).1 =
        ((Optimizer.ofSettings {}).optimize body).1 ∧
      ((Optimizer.ofSettings {}).optimize body).2.instructions =
        [.goto 3, .label 2, .load .int 0, .branch (.test .isZero) 2, .label 3, .load .int 1] ∧
      ((Optimizer.ofSettings {}).optimize relabelled).2.instructions =
        [.goto 21, .label 20, .load .int 0, .branch (.test .isZero) 20, .label 21,
          .load .int 1] := by
  have hassemble : Body.assemble [] detour = .ok _ := rfl
  have hdefined : ∀ {holds : LabelId → Prop},
      (∀ id ∈ Code.definitions detour, holds id) ↔ holds 2 ∧ holds 1 := by
    intro holds
    rw [show Code.definitions detour = [2, 1] from rfl, List.forall_mem_cons,
      List.forall_mem_singleton]
  obtain ⟨relabelled, hassemble', hreport, hlast⟩ :=
    optimize_relabel (.ofSettings {}) (10 * ·) (fun id => if id = 1 then 10 else id + 18) hassemble
      (by decide : 2 ∈ Code.definitions detour) (hdefined.mpr ⟨by decide, by decide⟩)
      (hdefined.mpr ⟨hdefined.mpr ⟨by decide, by decide⟩, hdefined.mpr ⟨by decide, by decide⟩⟩)
      (by decide) (by decide) (hdefined.mpr ⟨rfl, rfl⟩) (by decide) []
  exact ⟨_, relabelled, hassemble, hassemble', hreport, by decide +kernel,
    hlast.trans (by decide +kernel)⟩

end Peephole
