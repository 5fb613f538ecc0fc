import Peephole.Proofs.Stepwise

/-!
# What an audit establishes

An audit finds nothing exactly if every label is defined once, the table has the labels
that are defined, each at its line and with the number of jumps that go to it, and every
jump goes to a label.  This holds whatever the table is, and in whatever order the labels
are gone through.
-/

namespace Peephole

namespace Code

variable {code : List Instruction} {id : LabelId}

theorem count_definitions : (definitions code).count id = code.count (.label id) := by
  rw [definitions, List.count_filterMap, List.count]
  apply List.countP_congr
  intro instruction _
  rw [beq_iff_eq, beq_iff_eq, label?_eq_some_iff]

theorem count_targets :
    (targets code).count id = code.countP (fun instruction => instruction.target? = some id) := by
  rw [targets, List.count_filterMap]
  apply List.countP_congr
  intro instruction _
  rw [beq_iff_eq, decide_eq_true_eq]

theorem nodup_definitions_iff :
    (definitions code).Nodup ↔ ∀ id, code.count (.label id) ≤ 1 := by
  rw [List.nodup_iff_count]
  simp only [count_definitions]

end Code

/-- An entry is the one that the lines and the jumps give its label. -/
theorem LabelTable.Records.of_mem {table : LabelTable} {names : LabelId → String}
    {lines : List Line} {jumps : List LabelId} {entry : LabelEntry}
    (hrecords : table.Records names lines jumps) (hentry : entry ∈ table.entries) :
    Line.site? entry.id lines = some entry.position ∧ entry.name = names entry.id ∧
      entry.references = jumps.count entry.id := by
  have hget := get?_eq_some_of_mem hentry
  rw [hrecords entry.id, Option.map_eq_some_iff] at hget
  obtain ⟨position, hsite, heq⟩ := hget
  refine ⟨?_, congrArg LabelEntry.name heq.symm, congrArg LabelEntry.references heq.symm⟩
  exact hsite.trans (congrArg (some ·.position) heq)

namespace Body

variable {body : Body}

/-- The labels and the jumps of a body are what its table says. -/
structure Accurate (body : Body) : Prop where
  once : ∀ id, body.instructions.count (.label id) ≤ 1
  listed : ∀ id, id ∈ body.labels.entries.map LabelEntry.id ↔ .label id ∈ body.instructions
  placed : ∀ entry ∈ body.labels.entries, ⟨entry.position, .label entry.id⟩ ∈ body.lines
  counted : ∀ entry ∈ body.labels.entries,
    entry.references = body.instructions.countP (·.target? = some entry.id)
  closed : ∀ instruction ∈ body.instructions, ∀ id, instruction.target? = some id →
    .label id ∈ body.instructions

theorem Accurate.wellFormed (haccurate : body.Accurate) : Code.WellFormed body.instructions where
  nodup := Code.nodup_definitions_iff.mpr haccurate.once
  closed := by
    intro id hid
    obtain ⟨instruction, hinstruction, htarget⟩ := List.mem_filterMap.mp hid
    exact Code.mem_definitions.mpr (haccurate.closed instruction hinstruction id htarget)

theorem Accurate.synced (haccurate : body.Accurate) : body.Synced := by
  refine ⟨haccurate.wellFormed, fun id => ((body.labels.get? id).map LabelEntry.name).getD "", ?_⟩
  have hnodup : (Line.definitions body.lines).Nodup := by
    rw [Line.definitions_eq]
    exact haccurate.wellFormed.nodup
  intro id
  cases hentry : body.labels.get? id with
  | none =>
      have hnot : ¬ ∃ entry, body.labels.get? id = some entry := by simp [hentry]
      rw [← LabelTable.mem_ids_iff, haccurate.listed, ← Code.mem_definitions] at hnot
      rw [Line.site?_eq_none_iff.mpr (by rwa [Line.definitions_eq])]
      rfl
  | some entry =>
      have hmem := List.mem_of_find?_eq_some hentry
      have hsite := Line.site?_eq_some_of_mem hnodup (haccurate.placed entry hmem) rfl
      have hreferences : entry.references = (Line.targets body.lines).count entry.id := by
        rw [Line.targets_eq, Code.count_targets]
        exact haccurate.counted entry hmem
      obtain rfl := LabelTable.id_of_get?_eq_some hentry
      simp only [hsite, hentry, Option.map_some, Option.getD_some, ← hreferences]

theorem Synced.accurate (hsynced : body.Synced) : body.Accurate := by
  obtain ⟨names, hrecords⟩ := hsynced.recorded
  constructor
  case once => exact Code.nodup_definitions_iff.mp hsynced.wellFormed.nodup
  case listed =>
    intro id
    have hknows : body.labels.Knows id ↔ id ∈ Line.definitions body.lines := hsynced.knows_iff
    rw [Line.definitions_eq, LabelTable.Knows, Option.isSome_iff_exists] at hknows
    rw [LabelTable.mem_ids_iff, hknows, Code.mem_definitions]
    rfl
  case placed =>
    intro entry hentry
    obtain ⟨⟨position, instruction⟩, hline, rfl, rfl⟩ :=
      Line.exists_of_site?_eq_some (hrecords.of_mem hentry).1
    exact hline
  case counted =>
    intro entry hentry
    rw [(hrecords.of_mem hentry).2.2, Line.targets_eq, Code.count_targets]
    rfl
  case closed =>
    intro instruction hinstruction id htarget
    rw [← Code.mem_definitions]
    exact hsynced.wellFormed.closed id (List.mem_filterMap.mpr ⟨instruction, hinstruction, htarget⟩)

theorem accurate_iff_synced : body.Accurate ↔ body.Synced :=
  ⟨Accurate.synced, Synced.accurate⟩

/-- An audit finds nothing exactly if the table is accurate, also if it goes through the
labels in another order than the lines have. -/
theorem audit_iff_accurate (body : Body) :
    (body.audit = .ok () ↔ body.Accurate) ∧
      body.auditAlong (Line.sites body.lines) = body.audit ∧
      ∀ order, order.Perm (Line.sites body.lines) →
        (body.auditAlong order = .ok () ↔ body.Accurate) := by
  have haudit : body.audit = .ok () ↔ body.Accurate :=
    audit_eq_ok_iff.trans accurate_iff_synced.symm
  refine ⟨haudit, auditAlong_sites body, ?_⟩
  intro order hperm
  exact (auditAlong_eq_ok_iff hperm).trans haudit

-- A jump that is counted off and still stands there is noticed.
example :
    (do
      let body ← assemble [] [.goto 1, .label 1]
      let labels ← body.labels.release 1
      audit { body with labels := labels }) =
      .error (.labelDesync 1 (.wrongCount 0 1)) := rfl

end Body

end Peephole
