import Peephole.Proofs.Fixpoint
import Peephole.Proofs.Renumbering.Plans

/-!
# Running out of label numbers

One rule needs a new label now and then, and declines when no number is left for
it.  A table that has run out of numbers thus keeps a body at rest which would be
rewritten under a table with the same labels that has not.  Nothing else about a
table matters beyond what can be counted off from the code.
-/

namespace Peephole

/-- Code in which a constant and a jump lead to a test that the constant fails, with
no label behind the test that the jump could go to instead. -/
def Code.AwaitsLabel (code : List Instruction) : Prop :=
  ∃ (before after left right : List Instruction) (value : Int32) (target skipped : LabelId)
    (check : ZeroTest),
    code = before ++ .const value :: .goto target :: after ∧
      code = left ++ .label target :: .branch (.test check) skipped :: right ∧
      check.holds value = false ∧ ∀ id rest, right ≠ .label id :: rest

/-- A table with the same labels and no number left for a new one. -/
def LabelTable.exhaust (table : LabelTable) : LabelTable where
  entries := table.entries
  supply := max table.supply UInt32.size
  ascending := table.ascending
  below_supply := fun entry hentry =>
    Nat.lt_of_lt_of_le (table.below_supply entry hentry) (Nat.le_max_left _ _)

theorem LabelTable.fresh?_exhaust (table : LabelTable) : table.exhaust.fresh? = none :=
  if_neg (Nat.not_lt.mpr (Nat.le_max_right table.supply UInt32.size))

/-- The same body with no number left for a new label. -/
def Body.exhaust (body : Body) : Body :=
  { body with labels := body.labels.exhaust }

theorem Body.Synced.exhaust {body : Body} (hsynced : body.Synced) : body.exhaust.Synced :=
  ⟨hsynced.wellFormed, hsynced.recorded⟩

section

variable {body : Body} {before lines : List Line}

theorem LastLoad.overwrites_exhaust (table : LabelTable) (slot : Slot) :
    overwrites table.exhaust slot = overwrites table slot := by
  funext lines
  induction lines with
  | nil => rfl
  | cons line rest ih =>
      rw [overwrites, overwrites, ih]
      rfl

/-- All rules but one take the same view of a body whose table has run out. -/
theorem Rule.plan_exhaust {rule : Rule} (hrule : rule ≠ .simplifyConstantBranchThroughGoto)
    (body : Body) (lines : List Line) : rule.plan body.exhaust lines = rule.plan body lines := by
  cases rule with
  | simplifyConstantBranchThroughGoto => exact absurd rfl hrule
  | removeSuperfluousStoreLoad =>
      simp only [plan, LastLoad.removeSuperfluousStoreLoad, Body.exhaust,
        LastLoad.overwrites_exhaust]
  | _ => rfl

namespace Control

/-- Where the number of a new label makes a difference, the code waits for one. -/
theorem simplifyConstantBranchThroughGoto_exhaust (hsynced : body.Synced)
    (hlines : body.lines = before ++ lines) :
    simplifyConstantBranchThroughGoto body.exhaust lines =
        simplifyConstantBranchThroughGoto body lines ∨
      Code.AwaitsLabel body.instructions ∧ body.labels.fresh? ≠ none := by
  unfold simplifyConstantBranchThroughGoto
  split
  · rename_i position value jumping target rest
    have htarget : target ∈ Line.definitions body.lines :=
      hsynced.mem_definitions (by simp [hlines, Line.targets])
    rw [Line.definitions_eq] at htarget
    obtain ⟨front, site, behind, hsite, hlanding⟩ := hsynced.landing htarget
    have hlanding' : body.exhaust.landing target = .ok (⟨site, .label target⟩ :: behind) :=
      hlanding
    simp only [hlanding, hlanding', ok_bind, List.tail_cons]
    split
    · rename_i place check final others
      split
      · exact .inl rfl
      · rename_i hcheck
        split
        · exact .inl rfl
        · rename_i hnext
          cases hfresh : body.labels.fresh? with
          | none =>
              left
              rw [Body.exhaust, LabelTable.fresh?_exhaust]
          | some fresh =>
              right
              refine ⟨⟨Line.instructions before, Line.instructions rest, Line.instructions front,
                Line.instructions others, value, target, final, check, ?_, ?_, ?_, ?_⟩, by simp⟩
              · rw [Body.instructions, hlines, Line.instructions_append]
                rfl
              · rw [Body.instructions, hsite, Line.instructions_append]
                rfl
              · simpa using hcheck
              · exact not_label_of_leadingLabels_eq_nil hnext
    · exact .inl rfl
  · exact .inl rfl

/-- Code that waits for a label is rewritten as soon as there is a number for one. -/
theorem exists_plan_of_awaitsLabel (hsynced : body.Synced)
    (hawaits : Code.AwaitsLabel body.instructions) {fresh : LabelId}
    (hfresh : body.labels.fresh? = some fresh) :
    ∃ before lines script, body.lines = before ++ lines ∧
      simplifyConstantBranchThroughGoto body lines = .ok (some script) := by
  obtain ⟨before, after, left, right, value, target, skipped, check, hjump, htest, hcheck,
    hright⟩ := hawaits
  obtain ⟨early, late, hlines, -, hlate⟩ := List.map_eq_append_iff.mp hjump
  obtain ⟨⟨position, _⟩, rest, rfl, rfl, hrest⟩ := List.map_eq_cons_iff.mp hlate
  obtain ⟨⟨jumping, _⟩, later, rfl, rfl, -⟩ := List.map_eq_cons_iff.mp hrest
  obtain ⟨front, behind, hsite, -, hbehind⟩ := List.map_eq_append_iff.mp htest
  obtain ⟨⟨site, _⟩, tested, rfl, rfl, htested⟩ := List.map_eq_cons_iff.mp hbehind
  obtain ⟨⟨place, _⟩, others, rfl, rfl, rfl⟩ := List.map_eq_cons_iff.mp htested
  have hlanding := hsynced.landing_of_split hsite
  have hnext : Line.leadingLabels others = [] := by
    unfold Line.leadingLabels
    split
    · exact absurd rfl (hright _ _)
    · rfl
  refine ⟨early, _, [.split place fresh, .release target, .acquire fresh,
    .splice position 2 [.goto fresh]], hlines, ?_⟩
  simp only [simplifyConstantBranchThroughGoto, hlanding, ok_bind, List.tail_cons, hcheck, hnext,
    hfresh]
  rfl

end Control

end

namespace Optimizer

variable {optimizer : Optimizer} {body : Body}

/-- A search finds nothing exactly if no rule has anything to propose. -/
theorem search_eq_settled_iff_plan :
    optimizer.search body = .settled ↔
      ∀ before rest, body.lines = before ++ rest →
        ∀ rule ∈ optimizer.rules, rule.plan body rest = .ok none := by
  simp only [search, Search.scan_eq_settled_iff, Rule.attempt_eq_declined_iff]

/-- A body is at rest if a renumbered one is. -/
theorem settled_of_renumbered {renumbering : Renumbering} {source result : Body}
    (hrenumbered : source.Renumbered renumbering result)
    (hsettled : optimizer.search result = .settled) : optimizer.search source = .settled := by
  rw [search_eq_settled_iff_plan] at hsettled ⊢
  intro before rest hsplit rule hrule
  have hsplit' : result.lines = before.map renumbering.line ++ rest.map renumbering.line := by
    rw [hrenumbered.lines, hsplit, List.map_append]
  exact rule.plan_eq_none_of_renumbered hrenumbered hsplit (hsettled _ _ hsplit' rule hrule)

/-- A body is at rest exactly if it is so with no number left for a new label, and
does not wait for a label that there is a number for. -/
theorem search_eq_settled_iff_exhaust (hsynced : body.Synced) :
    optimizer.search body = .settled ↔
      optimizer.search body.exhaust = .settled ∧
        (.simplifyConstantBranchThroughGoto ∈ optimizer.rules →
          Code.AwaitsLabel body.instructions → body.labels.fresh? = none) := by
  constructor
  · intro hsettled
    constructor
    · -- With no number left the condition on new labels is empty.
      obtain ⟨position, hrenumbered⟩ := hsynced.exhaust.exists_renumbering hsynced rfl
        (by simp [Body.exhaust, LabelTable.fresh?_exhaust])
      exact settled_of_renumbered hrenumbered hsettled
    · intro hrule hawaits
      cases hfresh : body.labels.fresh? with
      | none => rfl
      | some fresh =>
          obtain ⟨before, lines, script, hsplit, hplan⟩ :=
            Control.exists_plan_of_awaitsLabel hsynced hawaits hfresh
          have hnone := search_eq_settled_iff_plan.mp hsettled before lines hsplit _ hrule
          rw [Rule.plan, hplan] at hnone
          cases hnone
  · rintro ⟨hsettled, hfresh⟩
    rw [search_eq_settled_iff_plan] at hsettled ⊢
    intro before lines hsplit rule hrule
    have hnone := hsettled before lines hsplit rule hrule
    by_cases hthrough : rule = .simplifyConstantBranchThroughGoto
    · subst hthrough
      rcases Control.simplifyConstantBranchThroughGoto_exhaust hsynced hsplit with heq | hawaits
      · exact heq.symm.trans hnone
      · exact absurd (hfresh hrule hawaits.1) hawaits.2
    · rwa [Rule.plan_exhaust hthrough] at hnone

/-- Of two bodies in step with the same instructions, the one is at rest if the other
is, unless it waits for a label that only it has a number for. -/
theorem search_eq_settled_iff_of_instructions {other : Body} (hsynced : body.Synced)
    (hother : other.Synced) (hinstructions : other.instructions = body.instructions)
    (hsettled : optimizer.search body = .settled) :
    optimizer.search other = .settled ↔
      (.simplifyConstantBranchThroughGoto ∈ optimizer.rules →
        Code.AwaitsLabel other.instructions → other.labels.fresh? = none) := by
  rw [search_eq_settled_iff_exhaust hother, and_iff_right]
  obtain ⟨position, hrenumbered⟩ := hother.exhaust.exists_renumbering hsynced
    hinstructions.symm (by simp [Body.exhaust, LabelTable.fresh?_exhaust])
  exact settled_of_renumbered hrenumbered hsettled

end Optimizer

end Peephole
