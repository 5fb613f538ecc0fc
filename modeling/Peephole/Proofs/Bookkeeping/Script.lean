import Peephole.Edit
import Peephole.Proofs.Bookkeeping.Synced

/-!
# Scripts that keep a body in step

Most rewrites count off the jumps of the lines they take out, count the jumps of
the lines they put in, strike the labels that go, and then exchange the lines.
Such a script always succeeds on a body that is in step with its table, and
leaves it so.  Two scripts are different: one puts in a new label, the other takes
out the line of a label before the label itself.
-/

namespace Peephole

namespace Line

variable {lines before rest : List Line} {line : Line}

theorem before_eq_of_split (hnodup : (lines.map position).Nodup)
    (hlines : lines = before ++ line :: rest) : Line.before lines line.position = before := by
  subst hlines
  have hbefore : ∀ other ∈ before, (other.position != line.position) = true := by
    intro other hother
    simp only [List.map_append, List.map_cons, List.nodup_append, List.mem_map,
      forall_exists_index, and_imp, forall_apply_eq_imp_iff₂] at hnodup
    simpa using hnodup.2.2 other hother line.position (by simp)
  rw [Line.before, List.takeWhile_append_of_pos hbefore]
  simp

theorem ahead_eq_of_split (hnodup : (lines.map position).Nodup)
    (hlines : lines = before ++ line :: rest) :
    Line.ahead lines line.position = line :: rest := by
  have hsplit := before_append_ahead lines line.position
  rw [before_eq_of_split hnodup hlines] at hsplit
  exact List.append_cancel_left (hsplit.trans hlines)

theorem definitions_number {code : List Instruction} (first : Nat) :
    definitions (number first code) = Code.definitions code := by
  rw [definitions_eq, instructions_number]

theorem targets_number {code : List Instruction} (first : Nat) :
    targets (number first code) = Code.targets code := by
  rw [targets_eq, instructions_number]

/-- Lines without labels in the place of a window take the labels of the window
away, and no other ones. -/
theorem site?_exchange {window after new : List Line}
    (hnodup : (definitions (before ++ window ++ after)).Nodup) (hnew : definitions new = [])
    (id : LabelId) :
    site? id (before ++ new ++ after) =
      if id ∈ definitions window then none else site? id (before ++ window ++ after) := by
  rw [definitions_append, definitions_append, List.nodup_append, List.nodup_append] at hnodup
  simp only [site?_append, site?_of_definitions_eq_nil hnew, Option.or_none]
  by_cases hid : id ∈ definitions window
  · have hbefore : site? id before = none :=
      site?_eq_none_iff.mpr fun hmem => hnodup.1.2.2 id hmem id hid rfl
    have hafter : site? id after = none :=
      site?_eq_none_iff.mpr fun hmem => hnodup.2.2 id (List.mem_append_right _ hid) id hmem rfl
    rw [if_pos hid, hbefore, hafter]
    rfl
  · rw [if_neg hid, site?_eq_none_iff.mpr hid, Option.or_none]

end Line

theorem LabelTable.settle_of_definitions_eq_nil {lines : List Line}
    (hlines : Line.definitions lines = []) (table : LabelTable) :
    table.settle lines = table := by
  induction lines generalizing table with
  | nil => rfl
  | cons line rest ih =>
      rw [Line.definitions, List.filterMap_cons] at hlines
      cases hlabel : line.instruction.label? with
      | none =>
          rw [hlabel] at hlines
          simpa [settle, hlabel] using ih hlines table
      | some id => simp [hlabel] at hlines

namespace Body

variable {body : Body} {names : LabelId → String} {before window after : List Line}
variable {first : Line} {code : List Instruction} {jumps : List LabelId}

theorem ahead_eq_of_split {rest : List Line} (hlines : body.lines = before ++ first :: rest) :
    body.ahead first.position = first :: rest :=
  Line.ahead_eq_of_split body.distinct hlines

/-- Lines exchanged for code without labels; the table is left as it is. -/
theorem perform_splice (body : Body)
    (hlines : body.lines = before ++ (first :: window) ++ after)
    (hcode : Code.definitions code = []) :
    ∃ spliced, (Edit.splice first.position (window.length + 1) code).perform body = .ok spliced ∧
      spliced.lines = before ++ Line.number body.supply code ++ after ∧
      spliced.labels = body.labels := by
  have hlines' : body.lines = before ++ first :: (window ++ after) := by simpa using hlines
  have hahead := ahead_eq_of_split hlines'
  have hbefore := Line.before_eq_of_split body.distinct hlines'
  have hsplice : body.splice first.position (window.length + 1) code =
      .ok (if code.isEmpty then none else some body.supply,
        body.weave (Line.before body.lines first.position)
          ((body.ahead first.position).drop (window.length + 1)) code
          (body.before_append_drop_ahead_sublist first.position (window.length + 1))) := by
    have hnonempty : ¬ (body.ahead first.position).length = 0 := by simp [hahead]
    have hwide : ¬ (body.ahead first.position).length < window.length + 1 := by
      rw [hahead]
      simp
    rw [splice, if_neg hnonempty, if_neg hwide]
  refine ⟨_, by rw [Edit.perform, hsplice]; rfl, ?_, ?_⟩
  · simp [weave, hbefore, hahead]
  · exact LabelTable.settle_of_definitions_eq_nil (by rw [Line.definitions_number, hcode]) _

theorem insertAfter_of_split {rest : List Line} (hlines : body.lines = before ++ first :: rest)
    (instruction : Instruction) :
    ∃ woven, body.insertAfter first.position instruction = .ok (body.supply, woven) ∧
      woven.lines = before ++ first :: ⟨body.supply, instruction⟩ :: rest ∧
      woven.labels = body.labels.settle (Line.number body.supply [instruction]) := by
  have hbefore := Line.before_eq_of_split body.distinct hlines
  rw [insertAfter]
  split
  · rename_i hahead
    simp [ahead_eq_of_split hlines] at hahead
  · rename_i line tail hahead
    rw [ahead_eq_of_split hlines, List.cons.injEq] at hahead
    obtain ⟨rfl, rfl⟩ := hahead
    exact ⟨_, rfl, by simp [weave, hbefore, Line.number], rfl⟩

/-- A body whose table records the labels of some lines and some jumps is in step
if these are the labels and the jumps of its own lines. -/
theorem synced_of_records {marks : List Line}
    (hrecords : body.labels.Records names marks jumps)
    (hsite : ∀ id, Line.site? id body.lines = Line.site? id marks)
    (hjumps : (Line.targets body.lines).Perm jumps)
    (hwell : Code.WellFormed body.instructions) : body.Synced :=
  ⟨hwell, names, hrecords.congr hsite hjumps⟩

end Body

namespace Code

variable {before window after code : List Instruction}

/-- Code without labels may stand for a window if it jumps to labels that are there,
and no jump that is left goes to a label of the window. -/
theorem WellFormed.exchange (hwell : WellFormed (before ++ window ++ after))
    (hcode : definitions code = [])
    (hclosed : ∀ id ∈ targets code, id ∈ definitions (before ++ window ++ after))
    (hretired : ∀ id ∈ definitions window, id ∉ targets code ++ (targets before ++ targets after)) :
    WellFormed (before ++ code ++ after) := by
  have hdefinitions : definitions (before ++ code ++ after) = definitions (before ++ after) := by
    simp [hcode]
  constructor
  · rw [hdefinitions]
    refine hwell.nodup.sublist ?_
    simp [List.append_sublist_append_left]
  · intro id hid
    have hleft : id ∈ targets code ++ (targets before ++ targets after) := by
      simp only [targets_append] at hid
      grind
    have hdefined : id ∈ definitions (before ++ window ++ after) := by
      rcases List.mem_append.mp hleft with hid | hid
      · exact hclosed id hid
      · refine hwell.closed id ?_
        simp only [targets_append]
        grind
    have hkept := fun hid => hretired id hid hleft
    rw [hdefinitions]
    simp only [definitions_append] at hdefined ⊢
    grind

end Code

namespace Script

variable {body : Body} {names : LabelId → String} {marks before window after : List Line}
variable {first : Line} {code : List Instruction}
variable {jumps others released acquired removed : List LabelId}

theorem run_cons {edit : Edit} {edited : Body} (hperform : edit.perform body = .ok edited)
    (rest : Script) : Script.run body (edit :: rest) = Script.run edited rest := by
  rw [Script.run, hperform]

theorem run_release (body : Body) (hrecords : body.labels.Records names marks jumps)
    (hjumps : jumps.Perm (released ++ others))
    (hreleased : ∀ id ∈ released, id ∈ Line.definitions marks) (rest : Script) :
    ∃ labels, Script.run body (released.map .release ++ rest) =
        Script.run { body with labels := labels } rest ∧
      labels.Records names marks others := by
  induction released generalizing body jumps with
  | nil => exact ⟨body.labels, rfl, hrecords.congr (fun _ => rfl) hjumps.symm⟩
  | cons id released ih =>
      have hjump : id ∈ jumps := hjumps.mem_iff.mpr (by simp)
      obtain ⟨labels, hlabels, hreleases⟩ := hrecords.release (hreleased id (by simp)) hjump
      have hperm : (jumps.erase id).Perm (released ++ others) := by
        simpa using hjumps.erase id
      obtain ⟨final, hfinal, hresult⟩ := ih { body with labels := labels } hreleases
        hperm (fun other hother => hreleased other (List.mem_cons_of_mem _ hother))
      refine ⟨final, ?_, hresult⟩
      rw [List.map_cons, List.cons_append, Script.run, Edit.perform, hlabels]
      exact hfinal

theorem run_acquire (body : Body) (hrecords : body.labels.Records names marks jumps)
    (hacquired : ∀ id ∈ acquired, id ∈ Line.definitions marks) (rest : Script) :
    ∃ labels, Script.run body (acquired.map .acquire ++ rest) =
        Script.run { body with labels := labels } rest ∧
      labels.Records names marks (acquired ++ jumps) := by
  induction acquired generalizing body jumps with
  | nil => exact ⟨body.labels, rfl, hrecords⟩
  | cons id acquired ih =>
      obtain ⟨labels, hlabels, hacquires⟩ := hrecords.acquire (hacquired id (by simp))
      obtain ⟨final, hfinal, hresult⟩ := ih { body with labels := labels } hacquires
        (fun other hother => hacquired other (List.mem_cons_of_mem _ hother))
      refine ⟨final, ?_, hresult.congr (fun _ => rfl) List.perm_middle.symm⟩
      rw [List.map_cons, List.cons_append, Script.run, Edit.perform, hlabels]
      exact hfinal

theorem run_remove (body : Body) (hrecords : body.labels.Records names marks jumps)
    (hnodup : removed.Nodup) (hremoved : ∀ id ∈ removed, id ∈ Line.definitions marks)
    (hjumps : ∀ id ∈ removed, id ∉ jumps) (rest : Script) :
    ∃ labels kept, Script.run body (removed.map .remove ++ rest) =
        Script.run { body with labels := labels } rest ∧
      labels.Records names kept jumps ∧
      ∀ id, Line.site? id kept = if id ∈ removed then none else Line.site? id marks := by
  induction removed generalizing body marks with
  | nil => exact ⟨body.labels, marks, rfl, hrecords, by simp⟩
  | cons id removed ih =>
      obtain ⟨hnot, hnodup⟩ := List.nodup_cons.mp hnodup
      obtain ⟨labels, hlabels, hremoves⟩ := hrecords.remove (hremoved id (by simp))
        (hjumps id (by simp))
      have hstill : ∀ other ∈ removed,
          other ∈ Line.definitions (marks.filter (·.instruction ≠ .label id)) := by
        intro other hother
        have hne : id ≠ other := fun heq => hnot (heq ▸ hother)
        refine Classical.byContradiction fun hgone => ?_
        rw [← Line.site?_eq_none_iff, Line.site?_filter_ne, if_neg hne,
          Line.site?_eq_none_iff] at hgone
        exact hgone (hremoved other (List.mem_cons_of_mem _ hother))
      obtain ⟨final, kept, hfinal, hresult, hsites⟩ := ih { body with labels := labels } hremoves
        hnodup hstill (fun other hother => hjumps other (List.mem_cons_of_mem _ hother))
      refine ⟨final, kept, ?_, hresult, fun other => ?_⟩
      · rw [List.map_cons, List.cons_append, Script.run, Edit.perform, hlabels]
        exact hfinal
      · rw [hsites other, Line.site?_filter_ne]
        by_cases hother : id = other <;> grind

/-- Lines are exchanged for code without labels, after their jumps have been
counted off, the new ones counted, and the labels among them been taken from the
table.  These labels must have had no jumps but those of the lines themselves. -/
theorem run_exchange (code : List Instruction) (hsynced : body.Synced)
    (hlines : body.lines = before ++ (first :: window) ++ after)
    (hcode : Code.definitions code = [])
    (hclosed : ∀ id ∈ Code.targets code, id ∈ Code.definitions body.instructions)
    (hretired : ∀ id ∈ Line.definitions (first :: window),
      id ∉ Code.targets code ++ (Line.targets before ++ Line.targets after)) :
    ∃ exchanged,
      Script.run body ((Line.targets (first :: window)).map .release ++
          ((Code.targets code).map .acquire ++
            ((Line.definitions (first :: window)).map .remove ++
              [.splice first.position (window.length + 1) code]))) = .rewritten exchanged ∧
      exchanged.Synced ∧
      exchanged.instructions =
        Line.instructions before ++ code ++ Line.instructions after := by
  obtain ⟨names, hrecords⟩ := hsynced.recorded
  have hjumps : (Line.targets body.lines).Perm
      (Line.targets (first :: window) ++ (Line.targets before ++ Line.targets after)) := by
    rw [hlines, Line.targets_append, Line.targets_append, List.append_assoc]
    exact List.perm_append_comm_assoc _ _ _
  have hreleased : ∀ id ∈ Line.targets (first :: window), id ∈ Line.definitions body.lines :=
    fun id hid => hsynced.mem_definitions (hjumps.mem_iff.mpr (List.mem_append_left _ hid))
  have hacquired : ∀ id ∈ Code.targets code, id ∈ Line.definitions body.lines := by
    rw [Line.definitions_eq]
    exact hclosed
  have hnodup := hsynced.nodup_definitions
  rw [hlines] at hnodup
  have hwindow : (Line.definitions (first :: window)).Nodup := by
    rw [Line.definitions_append, Line.definitions_append, List.nodup_append,
      List.nodup_append] at hnodup
    exact hnodup.1.2.1
  have hremoved : ∀ id ∈ Line.definitions (first :: window), id ∈ Line.definitions body.lines := by
    intro id hid
    rw [hlines, Line.definitions_append, Line.definitions_append]
    exact List.mem_append_left _ (List.mem_append_right _ hid)
  obtain ⟨released, hrelease, hreleases⟩ := run_release body hrecords hjumps hreleased _
  obtain ⟨acquired, hacquire, hacquires⟩ := run_acquire { body with labels := released }
    hreleases hacquired _
  obtain ⟨retired, kept, hremove, hremoves, hsites⟩ := run_remove { body with labels := acquired }
    hacquires hwindow hremoved hretired [.splice first.position (window.length + 1) code]
  obtain ⟨spliced, hsplice, hspliced, hlabels⟩ := Body.perform_splice
    { body with labels := retired } hlines hcode
  dsimp only at hspliced hlabels
  have hinstructions : spliced.instructions =
      Line.instructions before ++ code ++ Line.instructions after := by
    simp [Body.instructions, hspliced]
  rw [← hlabels] at hremoves
  refine ⟨spliced, ?_, Body.synced_of_records hremoves (fun id => ?_) ?_ ?_, hinstructions⟩
  · rw [hrelease, hacquire, hremove, run_cons hsplice]
    rfl
  · rw [hsites id, hspliced, hlines]
    exact Line.site?_exchange hnodup ((Line.definitions_number body.supply).trans hcode) id
  · rw [hspliced, Line.targets_append, Line.targets_append, Line.targets_number,
      List.append_assoc]
    exact List.perm_append_comm_assoc _ _ _
  · have hbody : body.instructions = Line.instructions before ++
        Line.instructions (first :: window) ++ Line.instructions after := by
      simp [Body.instructions, hlines]
    have hwell := hsynced.wellFormed
    rw [hbody] at hwell hclosed
    rw [hinstructions]
    simp only [Line.definitions_eq, Line.targets_eq] at hretired
    exact hwell.exchange hcode hclosed hretired

/-- A label without jumps is taken out of the lines and of the table. -/
theorem run_removeLabel {id : LabelId} {position : Nat} (hsynced : body.Synced)
    (hlines : body.lines = before ++ ⟨position, .label id⟩ :: after)
    (hdead : id ∉ Line.targets body.lines) :
    ∃ removed, Script.run body [.splice position 1 [], .remove id] = .rewritten removed ∧
      removed.Synced ∧
      removed.instructions = Line.instructions before ++ Line.instructions after := by
  obtain ⟨names, hrecords⟩ := hsynced.recorded
  have hwindow : body.lines = before ++ [⟨position, .label id⟩] ++ after := by simpa using hlines
  obtain ⟨spliced, hsplice, hspliced, hlabels⟩ := Body.perform_splice body hwindow
    Code.definitions_nil
  have hid : id ∈ Line.definitions body.lines := Line.mem_definitions.mpr (by simp [hlines])
  obtain ⟨labels, hremove, hremoves⟩ := hrecords.remove hid hdead
  have hinstructions : Body.instructions { spliced with labels := labels } =
      Line.instructions before ++ [] ++ Line.instructions after := by
    simp [Body.instructions, hspliced]
  refine ⟨{ spliced with labels := labels }, ?_,
    Body.synced_of_records hremoves (fun other => ?_) ?_ ?_, ?_⟩
  · refine (run_cons hsplice _).trans ?_
    simp [Script.run, Edit.perform, hlabels, hremove]
  · have hnodup := hsynced.nodup_definitions
    rw [hwindow] at hnodup
    rw [Line.site?_filter_ne, hwindow, hspliced, Line.site?_exchange hnodup rfl]
    simp [Line.definitions, eq_comm]
  · simp [hspliced, hlines, Line.targets_eq]
  · have hwell := hsynced.wellFormed
    have hbody : body.instructions =
        Line.instructions before ++ [.label id] ++ Line.instructions after := by
      simp [Body.instructions, hlines]
    rw [Line.targets_eq, hlines] at hdead
    rw [hbody] at hwell
    rw [hinstructions]
    refine hwell.exchange rfl (by simp) ?_
    simpa using hdead
  · simpa using hinstructions

/-- A new label without jumps is put after a line. -/
theorem run_split {line : Line} {fresh : LabelId} (hsynced : body.Synced)
    (hlines : body.lines = before ++ line :: after)
    (hfresh : fresh ∉ Line.definitions body.lines) (rest : Script) :
    ∃ divided, Script.run body (.split line.position fresh :: rest) =
        Script.run divided rest ∧
      divided.Synced ∧
      divided.lines = before ++ line :: ⟨body.supply, .label fresh⟩ :: after := by
  obtain ⟨names, hrecords⟩ := hsynced.recorded
  have hjump : fresh ∉ Line.targets body.lines :=
    fun hmem => hfresh (hsynced.mem_definitions hmem)
  obtain ⟨woven, hinsert, hwoven, hlabels⟩ := Body.insertAfter_of_split hlines (.label fresh)
  have hsettled : woven.labels = body.labels := by
    rw [hlabels]
    simp [LabelTable.settle, Line.number, LabelTable.move, hrecords.get?_eq_none hfresh]
  -- Both lists of lines start with the lines up to the one that is split off.
  obtain ⟨front, hfront⟩ : ∃ front, front = before ++ [line] := ⟨_, rfl⟩
  have hold : body.lines = front ++ after := by simp [hfront, hlines]
  have hnew : woven.lines = front ++ ⟨body.supply, .label fresh⟩ :: after := by
    simp [hfront, hwoven]
  have hsite : ∀ other, Line.site? other woven.lines =
      if fresh = other then some body.supply else Line.site? other body.lines := by
    intro other
    have hfreshFront : Line.site? fresh front = none := by
      rw [hold, Line.definitions_append] at hfresh
      exact Line.site?_eq_none_iff.mpr fun hmem => hfresh (List.mem_append_left _ hmem)
    rw [hnew, hold, Line.site?_append, Line.site?_append, Line.site?_cons]
    by_cases hother : fresh = other
    · subst other
      simp [hfreshFront]
    · simp [hother]
  obtain ⟨labels, hregister, hregistered⟩ := hrecords.register (splitName fresh)
    hfresh hjump hsite
  refine ⟨{ woven with labels := labels }, ?_, ?_, hwoven⟩
  · refine run_cons ?_ rest
    rw [Edit.perform, hinsert]
    simp only [ok_bind, hsettled, hregister, pure_eq_ok]
  · refine Body.synced_of_records hregistered (fun _ => rfl) ?_ ?_
    · simp [hnew, hold, Line.targets_eq]
    · have hwell := hsynced.wellFormed
      rw [Line.definitions_eq, hold, Line.instructions_append] at hfresh
      rw [Body.instructions, hold, Line.instructions_append] at hwell
      rw [Body.instructions, hnew, Line.instructions_append]
      exact hwell.insert hfresh

end Script

end Peephole
