import Peephole.Proofs.Renumbering.Runs

/-!
# Histories

Two bodies with the same instructions can have come about in different ways.
Their lines then stand at different positions, lines that are gone have left other
positions behind, and their labels may have other names.  As long as both give the
same number to the next label, an optimizer treats them alike.
-/

namespace Peephole

namespace LabelTable

/-- The labels of a table with the numbers of the jumps to them. -/
def counts (table : LabelTable) : List (LabelId × Nat) :=
  table.entries.map fun entry => (entry.id, entry.references)

theorem upcoming?_eq_of_fresh? {table other : LabelTable} (hfresh : other.fresh? = table.fresh?)
    (offset : Nat) : other.upcoming? offset = table.upcoming? offset := by
  cases hnext : table.fresh? with
  | some fresh =>
      have hsupply : other.supply = table.supply := by
        rw [← toNat_of_fresh? hnext, ← toNat_of_fresh? (hfresh.trans hnext)]
      rw [upcoming?, upcoming?, hsupply]
  | none =>
      -- A table that has no next number has none after it either.
      have hnone : ∀ table : LabelTable, table.fresh? = none → table.upcoming? offset = none := by
        intro table hnone
        rw [fresh?] at hnone
        split at hnone
        · cases hnone
        · exact if_neg (by omega)
      rw [hnone other (hfresh.trans hnext), hnone table hnext]

end LabelTable

namespace Body

variable {left right : Body}

theorem Synced.counted {body : Body} (hsynced : body.Synced) (id : LabelId) :
    (body.labels.get? id).map (fun entry => (entry.id, entry.references)) =
      if id ∈ Line.definitions body.lines then some (id, (Line.targets body.lines).count id)
      else none := by
  obtain ⟨_, hrecords⟩ := hsynced.recorded
  exact hrecords.map_get?_eq fun _ => rfl

/-- The table of a body in step follows from its instructions, but for the names and the
positions. -/
theorem Synced.counts_eq (hleft : left.Synced) (hright : right.Synced)
    (hinstructions : right.instructions = left.instructions) :
    right.labels.counts = left.labels.counts := by
  have hdefinitions : Line.definitions right.lines = Line.definitions left.lines := by
    rw [Line.definitions_eq, Line.definitions_eq]
    exact congrArg Code.definitions hinstructions
  have htargets : Line.targets right.lines = Line.targets left.lines := by
    rw [Line.targets_eq, Line.targets_eq]
    exact congrArg Code.targets hinstructions
  apply LabelTable.map_entries_eq
  intro id
  rw [hleft.counted, hright.counted, hdefinitions, htargets]

/-- Bodies with the same instructions that agree on the next label differ by a renumbering
of their positions. -/
theorem Synced.exists_mirrored (hleft : left.Synced) (hright : right.Synced)
    (hinstructions : right.instructions = left.instructions)
    (hfresh : right.labels.fresh? = left.labels.fresh?) :
    ∃ position, left.Mirrored ⟨position, id⟩ right := by
  obtain ⟨position, hrenumbered⟩ := hleft.exists_renumbering hright hinstructions
    fun id hid => hfresh.trans hid
  -- Positions that are in use go where the lines go; the ones to come follow each other.
  let places : Nat → Nat := fun place =>
    if place < left.supply then position place else right.supply + (place - left.supply)
  have hused : ∀ line ∈ left.lines, places line.position = position line.position :=
    fun line hline => if_pos (left.below_supply line hline)
  have hunused : ∀ offset, places (left.supply + offset) = right.supply + offset := by
    intro offset
    calc places (left.supply + offset) = right.supply + (left.supply + offset - left.supply) :=
          if_neg (by omega)
      _ = right.supply + offset := by rw [Nat.add_sub_cancel_left]
  refine ⟨places, hleft, hright, ⟨?_, hunused⟩, hrenumbered.increasing, fun offset _ => ?_⟩
  · rw [hrenumbered.lines]
    exact List.map_congr_left fun line hline => congrArg (Line.mk · _) (hused line hline).symm
  · rw [LabelTable.upcoming?_eq_of_fresh? hfresh, Option.map_id]
    rfl

/-- Bodies that differ in their positions only have the same instructions. -/
theorem Mirrored.instructions_eq {position : Nat → Nat}
    (hmirrored : left.Mirrored ⟨position, id⟩ right) : right.instructions = left.instructions := by
  rw [instructions, hmirrored.aligned.lines, Renumbering.instructions_map, instructions]
  refine (List.map_congr_left fun instruction _ => ?_).trans (List.map_id _)
  exact Renumbering.instruction_eq_self fun _ _ => rfl

end Body

/-- What stood in a body before, at which positions it stands and how its labels are
called makes no difference: on two bodies in step with the same instructions, that
agree on the next label, an optimizer gives the same report or is stopped by the
same fault, and leaves the same instructions and the same counts of jumps.  They
also agree on the next label again. -/
theorem optimize_regardless_of_history (optimizer : Optimizer) {left right : Body}
    (hleft : left.audit = .ok ()) (hright : right.audit = .ok ())
    (hinstructions : right.instructions = left.instructions)
    (hfresh : right.labels.fresh? = left.labels.fresh?) :
    (optimizer.optimize right).1 = (optimizer.optimize left).1 ∧
      (optimizer.optimize right).2.instructions = (optimizer.optimize left).2.instructions ∧
      (optimizer.optimize right).2.labels.counts = (optimizer.optimize left).2.labels.counts ∧
      (optimizer.optimize right).2.labels.fresh? = (optimizer.optimize left).2.labels.fresh? := by
  obtain ⟨position, hmirrored⟩ := (Body.audit_eq_ok_iff.mp hleft).exists_mirrored
    (Body.audit_eq_ok_iff.mp hright) hinstructions hfresh
  obtain ⟨hreport, hlast⟩ := optimizer.optimize_mirrored hmirrored
  have hsame := hlast.instructions_eq
  refine ⟨hreport, hsame, hlast.source_synced.counts_eq hlast.result_synced hsame, ?_⟩
  rw [hlast.fresh?, Option.map_id]
  rfl

/-- A constant and a jump to a test of it. -/
def detour : List Instruction :=
  [.const 1, .goto 1, .label 2, .load .int 0, .label 1, .branch (.test .isZero) 2, .load .int 1]

/-- The jump is led past the test to a new label, in a body just put together and in one
with other names that an instruction was taken out of. -/
theorem optimize_regardless_of_history_at_detour :
    ∃ left right older, Body.assemble [] detour = .ok left ∧
      Body.assemble [(1, "test"), (2, "again")] (.nop :: detour) = .ok older ∧
      Rule.removeNop.applyAt older 0 = .rewritten right ∧
      left.lines ≠ right.lines ∧ left.labels.entries ≠ right.labels.entries ∧
      ((Optimizer.ofSettings {}).optimize right).1 = ((Optimizer.ofSettings {}).optimize left).1 ∧
      ((Optimizer.ofSettings {}).optimize right).2.instructions =
        [.goto 3, .label 2, .load .int 0, .branch (.test .isZero) 2, .label 3, .load .int 1] ∧
      ((Optimizer.ofSettings {}).optimize right).2.labels.counts = [(2, 1), (3, 1)] := by
  obtain ⟨left, right, older, hleft, holder, hright, hlines, hentries, hinstructions, hfresh,
      hlast, hcounts⟩ : ∃ left right older, Body.assemble [] detour = .ok left ∧
        Body.assemble [(1, "test"), (2, "again")] (.nop :: detour) = .ok older ∧
        Rule.removeNop.applyAt older 0 = .rewritten right ∧
        left.lines ≠ right.lines ∧ left.labels.entries ≠ right.labels.entries ∧
        right.instructions = left.instructions ∧ right.labels.fresh? = left.labels.fresh? ∧
        ((Optimizer.ofSettings {}).optimize left).2.instructions =
          [.goto 3, .label 2, .load .int 0, .branch (.test .isZero) 2, .label 3, .load .int 1] ∧
        ((Optimizer.ofSettings {}).optimize left).2.labels.counts = [(2, 1), (3, 1)] :=
    ⟨_, _, _, rfl, rfl, rfl, by decide +kernel, by decide +kernel, by decide +kernel,
      by decide +kernel, by decide +kernel, by decide +kernel⟩
  have hsynced := (Body.synced_of_assemble hleft).1
  have hsynced' := (Rule.rewrites_of_applyAt (Body.synced_of_assemble holder).1 hright).1
  obtain ⟨hreport, hsame, hsameCounts, -⟩ := optimize_regardless_of_history (.ofSettings {})
    (Body.audit_eq_ok_iff.mpr hsynced) (Body.audit_eq_ok_iff.mpr hsynced') hinstructions hfresh
  exact ⟨left, right, older, hleft, holder, hright, hlines, hentries, hreport,
    hsame.trans hlast, hsameCounts.trans hcounts⟩

end Peephole
