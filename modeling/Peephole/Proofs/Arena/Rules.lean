import Peephole.Proofs.Arena.Scripts

/-!
# Rules in place refine rules

As long as the counts of jumps leave room in their words, an edit in place does to an arena
what the edit does to the body.  A script asks for room for one more jump at most.  So a
rule in place declines, rewrites or fails as it does with the body, and leaves behind an
arena of the body that is left.
-/

namespace Peephole

namespace LabelTable

/-- Every count of a table leaves room in its word for a number of jumps more. -/
structure Room (table : LabelTable) (jumps : Nat) : Prop where
  word : jumps < UInt32.size
  counts : ∀ id entry, table.get? id = some entry → entry.references + jumps < UInt32.size

namespace Room

variable {table : LabelTable} {jumps fewer : Nat}

theorem mono (hroom : table.Room jumps) (hfewer : fewer ≤ jumps) : table.Room fewer := by
  constructor
  · exact Nat.lt_of_le_of_lt hfewer hroom.word
  · intro id entry hentry
    have hcount := hroom.counts id entry hentry
    omega

theorem put (hroom : table.Room jumps) {entry : LabelEntry}
    (hentry : entry.references + jumps < UInt32.size) : (table.put entry).Room jumps := by
  constructor
  · exact hroom.word
  · intro id other hother
    rw [get?_put] at hother
    split at hother
    · cases hother
      exact hentry
    · exact hroom.counts id other hother

theorem erase (hroom : table.Room jumps) (gone : LabelId) : (table.erase gone).Room jumps := by
  constructor
  · exact hroom.word
  · intro id entry hentry
    rw [get?_erase] at hentry
    split at hentry
    · cases hentry
    · exact hroom.counts id entry hentry

theorem settle (hroom : table.Room jumps) (lines : List Line) :
    (table.settle lines).Room jumps := by
  constructor
  · exact hroom.word
  · intro id entry hentry
    rw [get?_settle] at hentry
    obtain ⟨old, hold, rfl⟩ := Option.map_eq_some_iff.mp hentry
    exact hroom.counts id old hold

end Room

end LabelTable

theorem Overflow.word_of_lt {count : Nat} (hcount : count < UInt32.size) (overflow : Overflow) :
    overflow.word count = some count :=
  if_pos hcount

/-- How many jumps an edit counts in. -/
def Edit.demand : Edit → Nat
  | .acquire _ => 1
  | _ => 0

/-- How many jumps a script counts in. -/
def Script.demand : Script → Nat
  | [] => 0
  | edit :: rest => edit.demand + demand rest

namespace Body

variable {body changed : Body} {position : Nat}

theorem labels_of_splice {width : Nat} {code : List Instruction} {first : Option Nat}
    (hsplice : body.splice position width code = .ok (first, changed)) :
    changed.labels = body.labels.settle (Line.number body.supply code) := by
  rw [splice] at hsplice
  split at hsplice
  · cases hsplice
  · split at hsplice
    · cases hsplice
    · cases hsplice
      rfl

theorem labels_of_insertAfter {place : Nat} {instruction : Instruction}
    (hinsert : body.insertAfter position instruction = .ok (place, changed)) :
    place = body.supply ∧
      changed.labels = body.labels.settle (Line.number body.supply [instruction]) := by
  rw [insertAfter] at hinsert
  split at hinsert
  · cases hinsert
  · cases hinsert
    exact ⟨rfl, rfl⟩

end Body

theorem Arena.Represents.withLabels_eq {arena : Arena} {body : Body}
    (hrepresents : arena.Represents body) : { arena with labels := body.labels } = arena := by
  rw [← hrepresents.labels]

namespace Edit

variable {body edited : Body} {edit : Edit} {jumps : Nat} {arena : Arena}

/-- An edit uses up the room that it asks for. -/
theorem room_of_perform (hroom : body.labels.Room (edit.demand + jumps))
    (hperform : edit.perform body = .ok edited) : edited.labels.Room jumps := by
  have hless : body.labels.Room jumps := hroom.mono (Nat.le_add_left _ _)
  cases edit with
  | split position id =>
      obtain ⟨⟨place, woven⟩, hinsert, hregister⟩ := bind_eq_ok_iff.mp hperform
      obtain ⟨labels, hlabels, hedited⟩ := bind_eq_ok_iff.mp hregister
      cases hedited
      rw [LabelTable.eq_put_of_register hlabels, (Body.labels_of_insertAfter hinsert).2]
      apply (hless.settle _).put
      simpa using hless.word
  | acquire id =>
      obtain ⟨labels, hlabels, hedited⟩ := bind_eq_ok_iff.mp hperform
      cases hedited
      obtain ⟨entry, hentry, rfl⟩ := LabelTable.exists_put_of_acquire hlabels
      have hcount := hroom.counts id entry hentry
      rw [demand] at hcount
      apply hless.put
      dsimp only
      omega
  | release id =>
      obtain ⟨labels, hlabels, hedited⟩ := bind_eq_ok_iff.mp hperform
      cases hedited
      obtain ⟨entry, references, hentry, hreferences, rfl⟩ :=
        LabelTable.exists_put_of_release hlabels
      have hcount := hless.counts id entry hentry
      apply hless.put
      dsimp only
      omega
  | remove id =>
      rw [labels_of_remove hperform]
      exact hless.erase id
  | splice position width code =>
      rw [perform] at hperform
      cases hsplice : body.splice position width code with
      | error fault =>
          rw [hsplice] at hperform
          cases hperform
      | ok result =>
          rw [hsplice] at hperform
          cases hperform
          rw [Body.labels_of_splice hsplice]
          exact hless.settle _

theorem renders_call (hrepresents : arena.Represents body) (call : LabelTable.Call) :
    Work.Renders arena () ((Work.update call.perform).on arena)
      ((call.apply body.labels).map fun labels => { body with labels := labels }) := by
  rw [Work.on_update, LabelTable.Call.run_perform, hrepresents.labels]
  cases call.apply body.labels with
  | error fault =>
      dsimp only
      rw [hrepresents.withLabels_eq]
      exact .fault fault
  | ok labels => exact .done ⟨hrepresents.holds.withLabels labels, hrepresents.size, rfl⟩

theorem renders_acquire (overflow : Overflow) (hrepresents : arena.Represents body)
    (hroom : body.labels.Room 1) (id : LabelId) :
    Work.Renders arena () ((Work.acquire overflow id).on arena)
      ((body.labels.acquire id).map fun labels => { body with labels := labels }) := by
  rw [Work.acquire, Process.on_bind, Work.on_update, LabelTable.Update.run_entry,
    hrepresents.labels, LabelTable.acquire, LabelTable.entry]
  cases hentry : body.labels.get? id with
  | none =>
      dsimp only
      rw [hrepresents.withLabels_eq]
      exact .fault _
  | some entry =>
      have hcount := hroom.counts id entry hentry
      dsimp only
      rw [hrepresents.withLabels_eq, Option.bind_some, Process.andThen, Process.on_bind,
        Work.on_await, overflow.word_of_lt hcount, ← hrepresents.labels]
      exact .done ⟨hrepresents.holds.withLabels _, hrepresents.size, rfl⟩

/-- An edit in place does to an arena what it does to the body.  A label that is put in must
not be there yet. -/
theorem renders_inPlace (overflow : Overflow) (hrepresents : arena.Represents body)
    (hroom : body.labels.Room edit.demand)
    (hfresh : ∀ position id, edit = .split position id → body.labels.get? id = none) :
    Work.Renders arena () ((edit.inPlace overflow).on arena) (edit.perform body) := by
  cases edit with
  | split position id =>
      have hinsert := Work.renders_insertAfter hrepresents position (.label id)
      rw [inPlace, Process.on_bind, perform]
      generalize (Work.insertAfter position (.label id)).on arena = inArena at hinsert ⊢
      cases hbody : body.insertAfter position (.label id) with
      | error fault =>
          rw [hbody] at hinsert
          cases hinsert
          exact .fault fault
      | ok result =>
          obtain ⟨place, woven⟩ := result
          obtain ⟨rfl, hlabels⟩ := Body.labels_of_insertAfter hbody
          rw [hbody] at hinsert
          cases hinsert with
          | done hwoven =>
              have hnone : woven.labels.get? id = none := by
                rw [hlabels, LabelTable.get?_settle, hfresh position id rfl]
                rfl
              have hregister := renders_call hwoven
                (.register ⟨id, splitName id, body.supply, 0⟩)
              rw [Option.bind_some, Process.andThen, Work.register, ok_bind]
              generalize (Work.update _).on _ = inArena at hregister ⊢
              simp only [LabelTable.Call.apply, LabelTable.register, hnone] at hregister ⊢
              cases hregister with
              | done hregistered => exact .done hregistered
  | acquire id => exact renders_acquire overflow hrepresents hroom id
  | release id => exact renders_call hrepresents (.release id)
  | remove id => exact renders_call hrepresents (.remove id)
  | splice position width code =>
      have hrewrite := Work.renders_rewrite hrepresents position width code
      rw [inPlace, Process.on_bind, perform]
      generalize (Work.rewrite position width code).on arena = inArena at hrewrite ⊢
      generalize (body.splice position width code).map Prod.snd = inBody at hrewrite ⊢
      cases hrewrite with
      | fault fault => exact .fault fault
      | done hchanged => exact .done hchanged

end Edit

namespace Script

variable {overflow : Overflow} {arena : Arena} {body : Body} {script : Script}

/-- What a script gives in place, and what it makes of the body. -/
inductive Refines : Option (Except Fault Bool × Arena) → Outcome → Prop
  | rewritten {changed : Arena} {rewritten : Body} (hrepresents : changed.Represents rewritten) :
      Refines (some (.ok true, changed)) (.rewritten rewritten)
  | failed (fault : Fault) {left : Arena} {body : Body} (hrepresents : left.Represents body) :
      Refines (some (.error fault, left)) (.failed fault body)

/-- One edit and then the others. -/
theorem refines_cons {edit : Edit} {rest : Script} (hrepresents : arena.Represents body)
    (hedit : Work.Renders arena () ((edit.inPlace overflow).on arena) (edit.perform body))
    (hrest : ∀ changed edited, changed.Represents edited → edit.perform body = .ok edited →
      Refines ((Plan.inPlace overflow (.ok (some rest))).on changed) (Script.run edited rest)) :
    Refines ((Plan.inPlace overflow (.ok (some (edit :: rest)))).on arena)
      (Script.run body (edit :: rest)) := by
  rw [Plan.inPlace, Script.inPlace, bind_assoc, Process.on_bind, Script.run]
  generalize (edit.inPlace overflow).on arena = inArena at hedit ⊢
  cases hperform : edit.perform body with
  | error fault =>
      rw [hperform] at hedit
      cases hedit
      exact .failed fault hrepresents
  | ok edited =>
      rw [hperform] at hedit
      cases hedit with
      | done hchanged => exact hrest _ edited hchanged hperform

theorem refines_of_no_split (hrepresents : arena.Represents body)
    (hroom : body.labels.Room script.demand)
    (hsplit : ∀ position id, Edit.split position id ∉ script) :
    Refines ((Plan.inPlace overflow (.ok (some script))).on arena) (Script.run body script) := by
  induction script generalizing arena body with
  | nil => exact .rewritten hrepresents
  | cons edit rest ih =>
      have hfirst : ∀ position id, edit = .split position id → body.labels.get? id = none :=
        fun position id heq => absurd (heq ▸ List.mem_cons_self) (hsplit position id)
      apply refines_cons hrepresents
      · exact edit.renders_inPlace overflow hrepresents (hroom.mono (Nat.le_add_right _ _)) hfirst
      · intro changed edited hchanged hperform
        apply ih hchanged (Edit.room_of_perform hroom hperform)
        exact fun position id hmem => hsplit position id (List.mem_cons_of_mem edit hmem)

/-- A label may be put in first if it is not there yet. -/
theorem refines_of_split {position : Nat} {id : LabelId} (hrepresents : arena.Represents body)
    (hroom : body.labels.Room (Script.demand (.split position id :: script)))
    (hfresh : body.labels.get? id = none)
    (hsplit : ∀ position id, Edit.split position id ∉ script) :
    Refines ((Plan.inPlace overflow (.ok (some (.split position id :: script)))).on arena)
      (Script.run body (.split position id :: script)) := by
  apply refines_cons hrepresents
  · apply Edit.renders_inPlace overflow hrepresents (hroom.mono (Nat.zero_le _))
    rintro _ _ ⟨⟩
    exact hfresh
  · intro changed edited hchanged hperform
    exact refines_of_no_split hchanged (Edit.room_of_perform hroom hperform) hsplit

end Script

namespace Rule

variable {overflow : Overflow} {arena : Arena} {body : Body} {script : Script} {lines : List Line}

/-- No script counts in more than one jump. -/
theorem demand_of_plan {rule : Rule} (hplan : rule.plan body lines = .ok (some script)) :
    script.demand ≤ 1 := by
  cases rule with
  | removeNop | simplifyDupStorePop | removePushPop | removeLoadStoreSameSlot | foldConstants
  | simplifyMultiplication | removeIdentityOperation | simplifyRemainderByOne
  | simplifySelfSubtraction | simplifyNegation | foldIncrement | mergeIncrements =>
      rw [plan, contract] at hplan
      split at hplan
      · cases hplan
      · obtain ⟨contraction, -, rfl⟩ := Option.map_eq_some_iff.mp (Except.ok.inj hplan)
        exact Nat.zero_le 1
  | removeSuperfluousStoreLoad | removeDeadLabel | removeGotoNextLabel
  | simplifyConstantBranch | invertBranchOverGoto =>
      simp only [plan, LastLoad.removeSuperfluousStoreLoad.eq_def, Control.removeDeadLabel.eq_def,
        Control.removeGotoNextLabel.eq_def, Control.simplifyConstantBranch.eq_def,
        Control.invertBranchOverGoto.eq_def] at hplan
      grind [bind_eq_ok_iff, pure_eq_ok, Script.demand, Edit.demand]
  | removeUnreachableAfterGoto =>
      simp only [plan, Control.removeUnreachableAfterGoto.eq_def] at hplan
      split at hplan
      · split at hplan
        · cases hplan
        · rename_i dead _ _
          cases hplan
          cases dead.target? <;> exact Nat.zero_le 1
      · cases hplan
  | simplifyGotoGoto =>
      simp only [plan, Control.simplifyGotoGoto.eq_def] at hplan
      split at hplan
      · split at hplan
        · cases hplan
        · obtain ⟨ahead, -, hproposal⟩ := bind_eq_ok_iff.mp hplan
          grind [pure_eq_ok, Script.demand, Edit.demand]
      · cases hplan
  | simplifyConstantBranchThroughGoto =>
      obtain ⟨target, final, position, rfl | ⟨place, -, rfl⟩⟩ := redirect_of_plan hplan <;>
        exact Nat.le_refl 1
  | collapseComparisonTail =>
      simp only [plan, Control.collapseComparisonTail.eq_def] at hplan
      split at hplan
      · split at hplan
        · obtain ⟨unique, -, hproposal⟩ := bind_eq_ok_iff.mp hplan
          grind [pure_eq_ok, Script.demand, Edit.demand]
        · cases hplan
      · cases hplan

/-- What a rule gives in place, and what becomes of the body. -/
inductive Refines (arena : Arena) : Option (Except Fault Bool × Arena) → Outcome → Prop
  | declined : Refines arena (some (.ok false, arena)) .declined
  | rewritten {changed : Arena} {rewritten : Body} (hrepresents : changed.Represents rewritten) :
      Refines arena (some (.ok true, changed)) (.rewritten rewritten)
  | failed (fault : Fault) {left : Arena} {body : Body} (hrepresents : left.Represents body) :
      Refines arena (some (.error fault, left)) (.failed fault body)

/-- A rule does the same to an arena and to the body that it represents. -/
theorem refines_apply (overflow : Overflow) (hrepresents : arena.Represents body)
    (hroom : body.labels.Room 1) (rule : Rule) (position : Nat) :
    Refines arena ((rule.apply overflow position).on arena) (rule.applyAt body position) := by
  rw [rule.on_apply hrepresents, applyAt, attempt]
  cases hplan : rule.plan body (body.ahead position) with
  | error fault => exact .failed fault hrepresents
  | ok proposal =>
      cases proposal with
      | none => exact .declined
      | some script =>
          have hscript : Script.Refines ((Plan.inPlace overflow (.ok (some script))).on arena)
              (Script.run body script) := by
            have hdemand := hroom.mono (demand_of_plan hplan)
            rcases split_of_plan hplan with hsplit | ⟨place, fresh, target, at', hfresh, rfl⟩
            · exact Script.refines_of_no_split hrepresents hdemand hsplit
            · apply Script.refines_of_split hrepresents hdemand
              · exact LabelTable.get?_eq_none_of_supply_le
                  (Nat.le_of_eq (LabelTable.toNat_of_fresh? hfresh).symm)
              · simp
          dsimp only
          generalize (Plan.inPlace overflow (.ok (some script))).on arena = inArena at hscript ⊢
          generalize Script.run body script = inBody at hscript ⊢
          cases hscript with
          | rewritten hchanged => exact .rewritten hchanged
          | failed fault hleft => exact .failed fault hleft

end Rule

end Peephole
