import Peephole.Proofs.Bookkeeping.Admitted
import Peephole.Proofs.Rewriting.Weight

/-!
# The supply of label numbers

A table knows a label from the edit that puts it in to the one that takes it out;
edits that count jumps or move definitions make no difference to that.  So a
rewrite either keeps to the labels that are there, or it puts in one label, which
takes the next number of the supply and the place of an instruction.
-/

namespace Peephole

namespace LabelTable

/-- A table has an entry for a label. -/
def Knows (table : LabelTable) (id : LabelId) : Prop :=
  (table.get? id).isSome = true

/-- Two tables know the same labels and give out the same numbers. -/
structure Matches (table other : LabelTable) : Prop where
  knows : ∀ id, other.Knows id ↔ table.Knows id
  supply : other.supply = table.supply

variable {table other third : LabelTable} {id : LabelId} {entry : LabelEntry}

theorem Matches.refl (table : LabelTable) : table.Matches table :=
  ⟨fun _ => Iff.rfl, rfl⟩

theorem Matches.trans (hfirst : table.Matches other) (hsecond : other.Matches third) :
    table.Matches third :=
  ⟨fun id => (hsecond.knows id).trans (hfirst.knows id), hsecond.supply.trans hfirst.supply⟩

theorem Knows.lt_supply (hid : table.Knows id) : id.toNat < table.supply := by
  obtain ⟨entry, hentry⟩ := Option.isSome_iff_exists.mp hid
  rw [← id_of_get?_eq_some hentry]
  exact table.below_supply entry (List.mem_of_find?_eq_some hentry)

theorem get?_eq_none_of_supply_le (hid : table.supply ≤ id.toNat) : table.get? id = none := by
  cases hentry : table.get? id with
  | none => rfl
  | some entry =>
      have hknows : table.Knows id := by rw [Knows, hentry]; rfl
      exact absurd hknows.lt_supply (Nat.not_lt.mpr hid)

theorem supply_put (table : LabelTable) (entry : LabelEntry) :
    (table.put entry).supply = max table.supply (entry.id.toNat + 1) := rfl

theorem knows_put_iff : (table.put entry).Knows id ↔ entry.id = id ∨ table.Knows id := by
  rw [Knows, get?_put]
  split <;> simp_all [Knows]

/-- A new entry for a label that is known. -/
theorem matches_put {entry' : LabelEntry} (hentry : table.get? id = some entry)
    (hid : entry'.id = entry.id) : table.Matches (table.put entry') := by
  have hknows : table.Knows entry'.id := by
    rw [hid, id_of_get?_eq_some hentry, Knows, hentry]
    rfl
  refine ⟨fun other => ?_, Nat.max_eq_left hknows.lt_supply⟩
  rw [knows_put_iff]
  exact ⟨fun hother => hother.elim (fun heq => heq ▸ hknows) fun hother => hother, .inr⟩

theorem knows_erase_iff {gone : LabelId} :
    (table.erase gone).Knows id ↔ gone ≠ id ∧ table.Knows id := by
  rw [Knows, get?_erase]
  split <;> simp_all [Knows]

theorem matches_move (table : LabelTable) (id : LabelId) (position : Nat) :
    table.Matches (table.move id position) := by
  rw [move]
  split
  · rename_i entry hentry
    exact matches_put hentry rfl
  · exact .refl table

theorem matches_settle (table : LabelTable) (lines : List Line) :
    table.Matches (table.settle lines) := by
  induction lines generalizing table with
  | nil => exact .refl table
  | cons line rest ih =>
      rw [settle, List.foldl_cons]
      split
      · exact (table.matches_move _ _).trans (ih _)
      · exact ih table

theorem entry_eq_ok_iff : table.entry id = .ok entry ↔ table.get? id = some entry := by
  rw [LabelTable.entry]
  split <;> simp_all

theorem exists_put_of_acquire (hacquire : table.acquire id = .ok other) :
    ∃ entry, table.get? id = some entry ∧
      other = table.put { entry with references := entry.references + 1 } := by
  obtain ⟨entry, hentry, hput⟩ := bind_eq_ok_iff.mp hacquire
  cases hput
  exact ⟨entry, entry_eq_ok_iff.mp hentry, rfl⟩

theorem exists_put_of_release (hrelease : table.release id = .ok other) :
    ∃ entry references, table.get? id = some entry ∧ entry.references = references + 1 ∧
      other = table.put { entry with references := references } := by
  obtain ⟨entry, hentry, hput⟩ := bind_eq_ok_iff.mp hrelease
  cases hreferences : entry.references with
  | zero =>
      rw [hreferences] at hput
      cases hput
  | succ references =>
      rw [hreferences] at hput
      cases hput
      exact ⟨entry, references, entry_eq_ok_iff.mp hentry, hreferences, rfl⟩

theorem eq_erase_of_remove (hremove : table.remove id = .ok other) : other = table.erase id := by
  obtain ⟨entry, hentry, herase⟩ := bind_eq_ok_iff.mp hremove
  split at herase
  · cases herase
    rfl
  · cases herase

theorem eq_put_of_register (hregister : table.register entry = .ok other) :
    other = table.put entry := by
  rw [register] at hregister
  split at hregister
  · cases hregister
  · cases hregister
    rfl

end LabelTable

namespace Edit

variable {body edited : Body} {edit : Edit}

/-- A split puts one entry into the table. -/
theorem exists_put_of_split {position : Nat} {id : LabelId}
    (hperform : (Edit.split position id).perform body = .ok edited) :
    ∃ table entry, body.labels.Matches table ∧ entry.id = id ∧
      edited.labels = table.put entry := by
  obtain ⟨⟨place, woven⟩, hinsert, hregister⟩ := bind_eq_ok_iff.mp hperform
  obtain ⟨labels, hlabels, hedited⟩ := bind_eq_ok_iff.mp hregister
  cases hedited
  refine ⟨woven.labels, _, ?_, rfl, LabelTable.eq_put_of_register hlabels⟩
  rw [Body.insertAfter] at hinsert
  split at hinsert
  · cases hinsert
  · cases hinsert
    exact body.labels.matches_settle _

theorem labels_of_remove {id : LabelId} (hperform : (Edit.remove id).perform body = .ok edited) :
    edited.labels = body.labels.erase id := by
  obtain ⟨labels, hlabels, hedited⟩ := bind_eq_ok_iff.mp hperform
  cases hedited
  exact LabelTable.eq_erase_of_remove hlabels

/-- No other edit makes a difference to the labels that are known. -/
theorem matches_of_perform (hsplit : ∀ position id, edit ≠ .split position id)
    (hremove : ∀ id, edit ≠ .remove id) (hperform : edit.perform body = .ok edited) :
    body.labels.Matches edited.labels := by
  cases edit with
  | split position id => exact absurd rfl (hsplit position id)
  | acquire id =>
      obtain ⟨labels, hlabels, hedited⟩ := bind_eq_ok_iff.mp hperform
      cases hedited
      obtain ⟨entry, hentry, rfl⟩ := LabelTable.exists_put_of_acquire hlabels
      exact LabelTable.matches_put hentry rfl
  | release id =>
      obtain ⟨labels, hlabels, hedited⟩ := bind_eq_ok_iff.mp hperform
      cases hedited
      obtain ⟨entry, references, hentry, -, rfl⟩ := LabelTable.exists_put_of_release hlabels
      exact LabelTable.matches_put hentry rfl
  | remove id => exact absurd rfl (hremove id)
  | splice position width code =>
      rw [perform, Body.splice] at hperform
      split at hperform
      · cases hperform
      · split at hperform
        · cases hperform
        · cases hperform
          exact body.labels.matches_settle _

end Edit

namespace Script

variable {body next : Body} {script : Script} {id : LabelId}

theorem exists_perform_of_run_cons {edit : Edit} {rest : Script}
    (hrun : Script.run body (edit :: rest) = .rewritten next) :
    ∃ edited, edit.perform body = .ok edited ∧ Script.run edited rest = .rewritten next := by
  rw [Script.run] at hrun
  split at hrun
  · exact ⟨_, by assumption, hrun⟩
  · cases hrun

/-- Without a split no label comes in, and no number is used up. -/
theorem within_of_run (hscript : ∀ position id, Edit.split position id ∉ script)
    (hrun : Script.run body script = .rewritten next) :
    next.labels.supply = body.labels.supply ∧
      ∀ id, next.labels.Knows id → body.labels.Knows id := by
  induction script generalizing body with
  | nil =>
      cases hrun
      exact ⟨rfl, fun _ hid => hid⟩
  | cons edit rest ih =>
      obtain ⟨edited, hperform, hrest⟩ := exists_perform_of_run_cons hrun
      have hsplit : ∀ position id, edit ≠ .split position id :=
        fun position id heq => hscript position id (heq ▸ List.mem_cons_self)
      obtain ⟨hsupply, hknows⟩ := ih
        (fun position id hmem => hscript position id (List.mem_cons_of_mem _ hmem)) hrest
      by_cases hremove : ∃ id, edit = .remove id
      · obtain ⟨id, rfl⟩ := hremove
        rw [Edit.labels_of_remove hperform] at hsupply hknows
        exact ⟨hsupply, fun other hother => (LabelTable.knows_erase_iff.mp (hknows other hother)).2⟩
      · have hmatches := Edit.matches_of_perform hsplit
          (fun id heq => hremove ⟨id, heq⟩) hperform
        exact ⟨hsupply.trans hmatches.supply, fun id hid => (hmatches.knows id).mp (hknows id hid)⟩

/-- A label that is not taken out stays known. -/
theorem knows_of_run (hscript : Edit.remove id ∉ script)
    (hrun : Script.run body script = .rewritten next) (hid : body.labels.Knows id) :
    next.labels.Knows id := by
  induction script generalizing body with
  | nil =>
      cases hrun
      exact hid
  | cons edit rest ih =>
      obtain ⟨edited, hperform, hrest⟩ := exists_perform_of_run_cons hrun
      refine ih (fun hmem => hscript (List.mem_cons_of_mem _ hmem)) hrest ?_
      cases edit with
      | split position other =>
          obtain ⟨table, entry, hmatches, -, hlabels⟩ := Edit.exists_put_of_split hperform
          rw [hlabels, LabelTable.knows_put_iff]
          exact .inr ((hmatches.knows id).mpr hid)
      | remove other =>
          rw [Edit.labels_of_remove hperform, LabelTable.knows_erase_iff]
          exact ⟨fun heq => hscript (heq ▸ List.mem_cons_self), hid⟩
      | _ =>
          refine ((Edit.matches_of_perform ?_ ?_ hperform).knows id).mpr hid
          all_goals simp

end Script

/-! ## What rules do to the labels -/

namespace Rule

variable {rule : Rule} {body next : Body} {before lines : List Line} {script : Script}

theorem no_split_of_contract {contraction? : List Instruction → Option Contraction}
    (hplan : contract contraction? lines = .ok (some script)) (position : Nat) (id : LabelId) :
    Edit.split position id ∉ script := by
  rw [contract] at hplan
  split at hplan
  · cases hplan
  · obtain ⟨contraction, -, rfl⟩ := Option.map_eq_some_iff.mp (Except.ok.inj hplan)
    simp

/-- Only the rule that leads a jump past a test puts in a label. -/
theorem no_split_of_plan (hrule : rule ≠ .simplifyConstantBranchThroughGoto)
    (hplan : rule.plan body lines = .ok (some script)) (position : Nat) (id : LabelId) :
    Edit.split position id ∉ script := by
  cases rule with
  | removeNop | simplifyDupStorePop | removePushPop | removeLoadStoreSameSlot | foldConstants
  | simplifyMultiplication | removeIdentityOperation | simplifyRemainderByOne
  | simplifySelfSubtraction | simplifyNegation | foldIncrement | mergeIncrements =>
      exact no_split_of_contract hplan position id
  | removeSuperfluousStoreLoad | removeDeadLabel | removeGotoNextLabel
  | removeUnreachableAfterGoto | simplifyConstantBranch | invertBranchOverGoto =>
      simp only [plan, LastLoad.removeSuperfluousStoreLoad.eq_def, Control.removeDeadLabel.eq_def,
        Control.removeGotoNextLabel.eq_def, Control.removeUnreachableAfterGoto.eq_def,
        Control.simplifyConstantBranch.eq_def, Control.invertBranchOverGoto.eq_def] at hplan
      grind [bind_eq_ok_iff, pure_eq_ok]
  | simplifyGotoGoto =>
      simp only [plan, Control.simplifyGotoGoto.eq_def] at hplan
      split at hplan
      · split at hplan
        · cases hplan
        · obtain ⟨ahead, -, hproposal⟩ := bind_eq_ok_iff.mp hplan
          grind [pure_eq_ok]
      · cases hplan
  | collapseComparisonTail =>
      simp only [plan, Control.collapseComparisonTail.eq_def] at hplan
      split at hplan
      · split at hplan
        · obtain ⟨unique, -, hproposal⟩ := bind_eq_ok_iff.mp hplan
          grind [pure_eq_ok]
        · cases hplan
      · cases hplan
  | simplifyConstantBranchThroughGoto => exact absurd rfl hrule

/-- The rule that leads a jump past a test redirects it to a label, which it may have to
put in first. -/
theorem redirect_of_plan
    (hplan : Rule.simplifyConstantBranchThroughGoto.plan body lines = .ok (some script)) :
    ∃ target final position,
      script = [.release target, .acquire final, .splice position 2 [.goto final]] ∨
        ∃ place, body.labels.fresh? = some final ∧
          script = [.split place final, .release target, .acquire final,
            .splice position 2 [.goto final]] := by
  rw [plan] at hplan
  unfold Control.simplifyConstantBranchThroughGoto at hplan
  split at hplan
  · rename_i position value jumping target rest
    obtain ⟨ahead, -, hplan⟩ := bind_eq_ok_iff.mp hplan
    split at hplan
    · rename_i place check final others htail
      split at hplan
      · cases hplan
        exact ⟨target, final, position, .inl rfl⟩
      · split at hplan
        · rename_i next more hnext
          cases hplan
          exact ⟨target, next, position, .inl rfl⟩
        · obtain ⟨fresh, hfresh, rfl⟩ := Option.map_eq_some_iff.mp (Except.ok.inj hplan)
          exact ⟨target, fresh, position, .inr ⟨place, hfresh, rfl⟩⟩
    · cases hplan
  · cases hplan

/-- A rule that puts in a label takes the next number for it and jumps there. -/
theorem split_of_plan (hplan : rule.plan body lines = .ok (some script)) :
    (∀ position id, Edit.split position id ∉ script) ∨
      ∃ place fresh target position, body.labels.fresh? = some fresh ∧
        script = [.split place fresh, .release target, .acquire fresh,
          .splice position 2 [.goto fresh]] := by
  by_cases hrule : rule = .simplifyConstantBranchThroughGoto
  · subst hrule
    obtain ⟨target, final, position, rfl | ⟨place, hfresh, rfl⟩⟩ := redirect_of_plan hplan
    · exact .inl (by simp)
    · exact .inr ⟨place, final, target, position, hfresh, rfl⟩
  · exact .inl (no_split_of_plan hrule hplan)

end Rule

namespace LabelTable

variable {table : LabelTable} {fresh : LabelId}

theorem toNat_of_fresh? (hfresh : table.fresh? = some fresh) : fresh.toNat = table.supply := by
  rw [fresh?] at hfresh
  split at hfresh
  · rename_i hsize
    cases hfresh
    exact UInt32.toNat_ofNat_of_lt' hsize
  · cases hfresh

end LabelTable

theorem Body.Synced.knows_iff {body : Body} {id : LabelId} (hsynced : body.Synced) :
    body.labels.Knows id ↔ id ∈ Line.definitions body.lines := by
  obtain ⟨names, hrecords⟩ := hsynced.recorded
  rw [LabelTable.Knows, hrecords id, Option.isSome_map, Option.isSome_iff_ne_none, ne_eq,
    Line.site?_eq_none_iff, Decidable.not_not]

theorem Body.Synced.not_mem_of_fresh? {body : Body} {fresh : LabelId} (hsynced : body.Synced)
    (hfresh : body.labels.fresh? = some fresh) : fresh ∉ Line.definitions body.lines := by
  rw [Line.definitions_eq]
  exact fun hmem => absurd (hsynced.lt_of_fresh? hfresh fresh hmem) (UInt32.lt_irrefl fresh)

theorem Rule.attempt_eq_rewritten_iff {rule : Rule} {body next : Body} {lines : List Line} :
    rule.attempt body lines = .rewritten next ↔
      ∃ script, rule.plan body lines = .ok (some script) ∧
        Script.run body script = .rewritten next := by
  rw [attempt]
  cases rule.plan body lines with
  | error fault => simp
  | ok proposal => cases proposal <;> simp

/-- A rewrite keeps to the labels of the body, and the code does not grow; or it puts in
one label with the next number, and the code gets smaller. -/
theorem Rule.labels_of_attempt {rule : Rule} {body next : Body} {before lines : List Line}
    (hsynced : body.Synced) (hlines : body.lines = before ++ lines)
    (hattempt : rule.attempt body lines = .rewritten next) :
    (next.labels.supply = body.labels.supply ∧
        Code.size next.instructions ≤ Code.size body.instructions ∧
        ∀ id ∈ Line.definitions next.lines, id ∈ Line.definitions body.lines) ∨
      ∃ fresh, body.labels.fresh? = some fresh ∧ fresh ∈ Line.definitions next.lines ∧
        next.labels.supply = body.labels.supply + 1 ∧
        Code.size next.instructions + 1 ≤ Code.size body.instructions ∧
        ∀ id ∈ Line.definitions next.lines, id = fresh ∨ id ∈ Line.definitions body.lines := by
  obtain ⟨hkept, hrewrites⟩ := rewrites_of_attempt hsynced hlines hattempt
  obtain ⟨script, hplan, hrun⟩ := attempt_eq_rewritten_iff.mp hattempt
  simp only [← hsynced.knows_iff, ← hkept.knows_iff]
  rcases split_of_plan hplan with hsplit | ⟨place, fresh, target, position, hfresh, rfl⟩
  · obtain ⟨hsupply, hknows⟩ := Script.within_of_run hsplit hrun
    exact .inl ⟨hsupply, hrewrites.size_le, hknows⟩
  · obtain ⟨divided, hperform, hrest⟩ := Script.exists_perform_of_run_cons hrun
    obtain ⟨table, entry, hmatches, rfl, hlabels⟩ := Edit.exists_put_of_split hperform
    obtain ⟨hsupply, hknows⟩ := Script.within_of_run (by simp) hrest
    rw [hlabels] at hsupply hknows
    -- Nothing after the split takes the label out again.
    have hnew : next.labels.Knows entry.id := by
      refine Script.knows_of_run (by simp) hrest ?_
      rw [hlabels, LabelTable.knows_put_iff]
      exact .inl rfl
    refine .inr ⟨entry.id, hfresh, hnew, ?_, ?_, fun id hid => ?_⟩
    · rw [hsupply, LabelTable.supply_put, hmatches.supply, LabelTable.toNat_of_fresh? hfresh]
      exact Nat.max_eq_right (Nat.le_succ _)
    · have hold := hsynced.not_mem_of_fresh? hfresh
      rw [hkept.knows_iff, Line.definitions_eq] at hnew
      rw [Line.definitions_eq] at hold
      exact hrewrites.size_lt_of_mem_definitions hnew hold
    · rcases LabelTable.knows_put_iff.mp (hknows id hid) with heq | hid
      · exact .inl heq.symm
      · exact .inr ((hmatches.knows id).mp hid)

end Peephole
