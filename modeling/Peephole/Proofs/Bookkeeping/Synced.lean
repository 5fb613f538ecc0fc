import Peephole.Body.Assemble
import Peephole.Body.Audit
import Peephole.Proofs.Bookkeeping.Ledger

/-!
# Bodies in step with their label tables

A body is in step with its table when its instructions are well formed and the
table records exactly its labels and its jumps.  This is what an audit checks,
and every body that is put together from an instruction list starts out so.
-/

namespace Peephole

namespace Line

theorem firstRepeated?_eq_none_iff {seen ids : List LabelId} :
    firstRepeated? seen ids = none ↔ ids.Nodup ∧ ∀ id ∈ ids, id ∉ seen := by
  induction ids generalizing seen with
  | nil => simp [firstRepeated?]
  | cons id rest ih =>
      by_cases hid : id ∈ seen
      · simp [firstRepeated?, hid]
      · rw [firstRepeated?, if_neg hid, ih]
        constructor
        · rintro ⟨hrest, hseen⟩
          refine ⟨List.nodup_cons.mpr ⟨fun hmem => hseen id hmem (by simp), hrest⟩, ?_⟩
          intro other hother
          rcases List.mem_cons.mp hother with rfl | hother
          · exact hid
          · exact fun hmem => hseen other hother (List.mem_cons_of_mem _ hmem)
        · rintro ⟨hnodup, hseen⟩
          obtain ⟨hnot, hrest⟩ := List.nodup_cons.mp hnodup
          refine ⟨hrest, fun other hother hmem => ?_⟩
          rcases List.mem_cons.mp hmem with rfl | hmem
          · exact hnot hother
          · exact hseen other (List.mem_cons_of_mem _ hother) hmem

theorem repeated?_eq_none_iff {lines : List Line} :
    repeated? lines = none ↔ (definitions lines).Nodup := by
  simp [repeated?, firstRepeated?_eq_none_iff]

theorem undefined?_eq_none_iff {lines : List Line} :
    undefined? lines = none ↔ ∀ id ∈ targets lines, id ∈ definitions lines := by
  simp [undefined?, List.min?_eq_none_iff]

theorem exists_of_site?_eq_some {id : LabelId} {lines : List Line} {position : Nat}
    (hsite : site? id lines = some position) :
    ∃ line ∈ lines, line.instruction = .label id ∧ line.position = position := by
  obtain ⟨line, hline, hposition⟩ := Option.map_eq_some_iff.mp hsite
  exact ⟨line, List.mem_of_find?_eq_some hline, by simpa using List.find?_some hline, hposition⟩

end Line

namespace Body

/-- The instructions of a body are well formed, and its table records its labels
and its jumps. -/
structure Synced (body : Body) : Prop where
  wellFormed : Code.WellFormed body.instructions
  recorded : ∃ names, body.labels.Records names body.lines (Line.targets body.lines)

theorem Synced.nodup_definitions {body : Body} (hsynced : body.Synced) :
    (Line.definitions body.lines).Nodup := by
  rw [Line.definitions_eq]
  exact hsynced.wellFormed.nodup

theorem Synced.mem_definitions {body : Body} (hsynced : body.Synced) {id : LabelId}
    (hid : id ∈ Line.targets body.lines) : id ∈ Line.definitions body.lines := by
  rw [Line.targets_eq] at hid
  rw [Line.definitions_eq]
  exact hsynced.wellFormed.closed id hid

/-! ## The audit -/

theorem lineFault?_eq_none_iff {labels : LabelTable} {count : LabelId → Nat} {line : Line} :
    lineFault? labels count line = none ↔
      ∀ id, line.instruction = .label id → ∃ name,
        labels.get? id = some ⟨id, name, line.position, count id⟩ := by
  cases hlabel : line.instruction.label? with
  | none =>
      have hnone : ∀ id, line.instruction ≠ .label id := by
        intro id hid
        simp [hid, Instruction.label?] at hlabel
      simp [lineFault?, hlabel, hnone]
  | some id =>
      rw [Code.label?_eq_some_iff.mp hlabel]
      simp only [lineFault?, hlabel, Instruction.label.injEq, forall_eq']
      cases hentry : labels.get? id with
      | none => simp
      | some entry =>
          have hid := LabelTable.id_of_get?_eq_some hentry
          by_cases hposition : entry.position = line.position
          · by_cases hcount : entry.references = count id
            · simp only [hposition, hcount, ne_eq, not_true_eq_false, if_false, true_iff]
              subst hid
              exact ⟨entry.name, by rw [← hposition, ← hcount]⟩
            · simp only [hposition, hcount, ne_eq, not_true_eq_false, not_false_eq_true,
                if_false, if_true]
              grind
          · simp only [hposition, ne_eq, not_false_eq_true, if_true]
            grind

theorem bookkeepingFault?_eq_none_iff {body : Body} :
    body.bookkeepingFault? = none ↔
      Line.repeated? body.lines = none ∧
        (∀ line ∈ body.lines,
          lineFault? body.labels (fun id => (Line.targets body.lines).count id) line = none) ∧
        Line.undefined? body.lines = none ∧
        ∀ entry ∈ body.labels.entries, entry.id ∈ Line.definitions body.lines := by
  rw [← List.findSome?_eq_none_iff, bookkeepingFault?, linesFault?]
  cases Line.repeated? body.lines <;> simp only [reduceCtorEq, false_and, true_and]
  cases body.lines.findSome?
      (lineFault? body.labels fun id => (Line.targets body.lines).count id) <;>
    simp only [reduceCtorEq, false_and, true_and]
  cases Line.undefined? body.lines <;>
    simp [reduceCtorEq]

/-- An audit finds nothing exactly if the body is in step with its table. -/
theorem audit_eq_ok_iff {body : Body} : body.audit = .ok () ↔ body.Synced := by
  have haudit : body.audit = .ok () ↔ body.bookkeepingFault? = none := by
    rw [audit]
    cases body.bookkeepingFault? <;> simp
  rw [haudit, bookkeepingFault?_eq_none_iff, Line.repeated?_eq_none_iff,
    Line.undefined?_eq_none_iff]
  constructor
  · rintro ⟨hnodup, hlines, hclosed, horphans⟩
    refine ⟨⟨by rwa [Line.definitions_eq] at hnodup, ?_⟩, ?_⟩
    · rwa [Line.definitions_eq, Line.targets_eq] at hclosed
    refine ⟨fun id => ((body.labels.get? id).map LabelEntry.name).getD "", fun id => ?_⟩
    cases hsite : Line.site? id body.lines with
    | none =>
        cases hentry : body.labels.get? id with
        | none => rfl
        | some entry =>
            have hid := LabelTable.id_of_get?_eq_some hentry
            have hmem := horphans entry (List.mem_of_find?_eq_some hentry)
            rw [hid] at hmem
            exact absurd hmem (Line.site?_eq_none_iff.mp hsite)
    | some position =>
        obtain ⟨line, hline, hlabel, rfl⟩ := Line.exists_of_site?_eq_some hsite
        obtain ⟨name, hentry⟩ := lineFault?_eq_none_iff.mp (hlines line hline) id hlabel
        simp [hentry]
  · intro hsynced
    obtain ⟨names, hrecords⟩ := hsynced.recorded
    refine ⟨hsynced.nodup_definitions, fun line hline => ?_, fun id => hsynced.mem_definitions,
      fun entry hentry => ?_⟩
    · rw [lineFault?_eq_none_iff]
      intro id hlabel
      have hsite := Line.site?_eq_some_of_mem hsynced.nodup_definitions hline hlabel
      exact ⟨names id, by rw [hrecords id, hsite]; rfl⟩
    · by_cases hid : entry.id ∈ Line.definitions body.lines
      · exact hid
      · have hnone := hrecords.get?_eq_none hid
        rw [LabelTable.get?_eq_some_of_mem hentry] at hnone
        exact absurd hnone (by simp)

/-! ## Bodies put together from instruction lists -/

/-- Tabulating some lines places the labels they define over those of a table. -/
theorem get?_foldl_put (entryOf : LabelId → Nat → LabelEntry)
    (hentryOf : ∀ id position, (entryOf id position).id = id) (lines : List Line)
    (hnodup : (Line.definitions lines).Nodup) (table : LabelTable) (id : LabelId) :
    (lines.foldl
        (fun table line =>
          match line.instruction.label? with
          | some id => table.put (entryOf id line.position)
          | none => table)
        table).get? id =
      ((Line.site? id lines).map (entryOf id)).or (table.get? id) := by
  induction lines generalizing table with
  | nil => simp
  | cons line rest ih =>
      have hrest : (Line.definitions rest).Nodup :=
        hnodup.sublist ((List.sublist_cons_self line rest).filterMap _)
      rw [List.foldl_cons, ih hrest, Line.site?_cons]
      cases hlabel : line.instruction.label? with
      | none =>
          have hne : line.instruction ≠ .label id := by
            intro heq
            simp [heq, Instruction.label?] at hlabel
          rw [if_neg hne]
      | some other =>
          have hline := Code.label?_eq_some_iff.mp hlabel
          rw [hline, LabelTable.get?_put, hentryOf]
          by_cases hother : other = id
          · subst other
            have hsite : Line.site? id rest = none := by
              rw [Line.site?_eq_none_iff]
              rw [Line.definitions_eq, Line.instructions_cons, Code.definitions_cons, hlabel]
                at hnodup
              rw [Line.definitions_eq]
              exact (List.nodup_cons.mp hnodup).1
            simp [hsite]
          · simp [hother]

/-- The table of a body that is put together records its labels under the names given
for them. -/
theorem records_of_assemble {names : List (LabelId × String)} {code : List Instruction}
    {body : Body} (hassemble : assemble names code = .ok body) :
    body.labels.Records (givenName names) body.lines (Line.targets body.lines) := by
  rw [assemble] at hassemble
  split at hassemble
  · cases hassemble
  · cases hassemble
  · rename_i hrepeated hundefined
    cases hassemble
    rw [Line.repeated?_eq_none_iff] at hrepeated
    intro id
    have htable := get?_foldl_put
      (fun id position => ⟨id, givenName names id, position,
        (Line.targets (Line.number 0 code)).count id⟩)
      (fun _ _ => rfl) (Line.number 0 code) hrepeated .empty id
    rw [show LabelTable.empty.get? id = none from rfl, Option.or_none] at htable
    exact htable

theorem synced_of_assemble {names : List (LabelId × String)} {code : List Instruction}
    {body : Body} (hassemble : assemble names code = .ok body) :
    body.Synced ∧ body.lines = Line.number 0 code ∧ body.instructions = code := by
  have hrecords := records_of_assemble hassemble
  rw [assemble] at hassemble
  split at hassemble
  · cases hassemble
  · cases hassemble
  · rename_i hrepeated hundefined
    cases hassemble
    rw [Line.repeated?_eq_none_iff, Line.definitions_eq] at hrepeated
    rw [Line.undefined?_eq_none_iff, Line.definitions_eq, Line.targets_eq] at hundefined
    exact ⟨⟨⟨hrepeated, hundefined⟩, _, hrecords⟩, rfl, Line.instructions_number 0 code⟩

theorem supply_of_assemble {names : List (LabelId × String)} {code : List Instruction}
    {body : Body} (hassemble : assemble names code = .ok body) : body.supply = code.length := by
  rw [assemble] at hassemble
  split at hassemble
  · cases hassemble
  · cases hassemble
  · cases hassemble
    rfl

end Body

end Peephole
