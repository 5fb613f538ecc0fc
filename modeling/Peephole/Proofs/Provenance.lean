import Mathlib.Data.List.Basic
import Peephole.Proofs.Bookkeeping.Supply
import Peephole.Proofs.Renumbering.Scripts
import Peephole.Proofs.Strategy
import Peephole.Proofs.ControlStructure

/-!
# Where labels come from

A label keeps its number, its name and its line from the moment it enters a body to
the moment it is taken out.  The labels that come in later are recognised by their
numbers, which are above all that were ever in the table, and by the names they are
given.  So every label of a body that was rewritten can be traced: it was there to
begin with, or a rewrite has put it in; and none that was taken out is there again.
-/

namespace Peephole

namespace LabelTable

variable {table later last : LabelTable} {id : LabelId} {entry : LabelEntry}

/-- The entries with numbers that an earlier table had used are entries of that table,
with their names and positions; all others have the names of labels put in since. -/
structure Inherits (later table : LabelTable) : Prop where
  supply : table.supply ≤ later.supply
  kept : ∀ id entry, later.get? id = some entry → id.toNat < table.supply →
    ∃ old, table.get? id = some old ∧ old.name = entry.name ∧ old.position = entry.position
  named : ∀ id entry, later.get? id = some entry → table.supply ≤ id.toNat →
    entry.name = splitName id

/-- A table without new numbers inherits if it has the old names and positions. -/
theorem inherits_of_kept (hsupply : later.supply = table.supply)
    (hkept : ∀ id entry, later.get? id = some entry →
      ∃ old, table.get? id = some old ∧ old.name = entry.name ∧ old.position = entry.position) :
    later.Inherits table where
  supply := Nat.le_of_eq hsupply.symm
  kept := fun id entry hentry _ => hkept id entry hentry
  named := fun id entry hentry hid => by
    rw [← hsupply] at hid
    rw [get?_eq_none_of_supply_le hid] at hentry
    cases hentry

theorem Inherits.refl (table : LabelTable) : table.Inherits table :=
  inherits_of_kept rfl fun _ entry hentry => ⟨entry, hentry, rfl, rfl⟩

theorem Inherits.trans (hlast : last.Inherits later) (hlater : later.Inherits table) :
    last.Inherits table where
  supply := Nat.le_trans hlater.supply hlast.supply
  kept := by
    intro id entry hentry hid
    obtain ⟨middle, hmiddle, hname, hposition⟩ :=
      hlast.kept id entry hentry (Nat.lt_of_lt_of_le hid hlater.supply)
    obtain ⟨old, hold, hname', hposition'⟩ := hlater.kept id middle hmiddle hid
    exact ⟨old, hold, hname'.trans hname, hposition'.trans hposition⟩
  named := by
    intro id entry hentry hid
    by_cases hlt : id.toNat < later.supply
    · obtain ⟨middle, hmiddle, hname, -⟩ := hlast.kept id entry hentry hlt
      rw [← hname]
      exact hlater.named id middle hmiddle hid
    · exact hlast.named id entry hentry (Nat.not_lt.mp hlt)

theorem inherits_put (hentry : table.get? id = some entry) (references : Nat) :
    (table.put { entry with references := references }).Inherits table := by
  refine inherits_of_kept (matches_put hentry rfl).supply fun other found hfound => ?_
  rw [get?_put] at hfound
  split at hfound
  · rename_i hother
    cases hfound
    rw [← hother, id_of_get?_eq_some hentry]
    exact ⟨entry, hentry, rfl, rfl⟩
  · exact ⟨found, hfound, rfl, rfl⟩

theorem inherits_erase (table : LabelTable) (id : LabelId) : (table.erase id).Inherits table := by
  refine inherits_of_kept rfl fun other entry hentry => ?_
  rw [get?_erase] at hentry
  split at hentry
  · cases hentry
  · exact ⟨entry, hentry, rfl, rfl⟩

/-- A new number may be put in under the name that goes with it. -/
theorem inherits_put_new (hid : table.supply ≤ id.toNat) (position references : Nat) :
    (table.put ⟨id, splitName id, position, references⟩).Inherits table where
  supply := Nat.le_max_left _ _
  kept := by
    intro other entry hentry hother
    have hne : id ≠ other := fun heq => absurd hother (Nat.not_lt.mpr (heq ▸ hid))
    rw [get?_put, if_neg hne] at hentry
    exact ⟨entry, hentry, rfl, rfl⟩
  named := by
    intro other entry hentry hother
    rw [get?_put] at hentry
    split at hentry
    · rename_i heq
      cases hentry
      exact congrArg splitName heq
    · rw [get?_eq_none_of_supply_le hother] at hentry
      cases hentry

/-- An old number that is no longer known is not known later. -/
theorem Inherits.not_knows (hlast : last.Inherits later) (hlater : later.Inherits table)
    (hknown : table.Knows id) (hgone : ¬later.Knows id) : ¬last.Knows id := by
  intro hknows
  obtain ⟨entry, hentry⟩ := Option.isSome_iff_exists.mp hknows
  obtain ⟨old, hold, -⟩ := hlast.kept id entry hentry
    (Nat.lt_of_lt_of_le hknown.lt_supply hlater.supply)
  exact hgone (by rw [Knows, hold]; rfl)

theorem settle_new_label (hid : table.supply ≤ id.toNat) (position : Nat) :
    table.settle (Line.number position [.label id]) = table := by
  simp [settle, Line.number, move, get?_eq_none_of_supply_le hid]

end LabelTable

namespace Line

/-- Whether a line defines a label with a number below a bound. -/
def definesBelow (bound : Nat) (line : Line) : Bool :=
  line.instruction.label?.any (·.toNat < bound)

theorem filter_definesBelow_number {code : List Instruction} (hcode : Code.definitions code = [])
    (bound first : Nat) : (number first code).filter (definesBelow bound) = [] := by
  rw [← definitions_number first] at hcode
  refine List.filter_eq_nil_iff.mpr fun line hline => ?_
  rw [definesBelow, List.filterMap_eq_nil_iff.mp hcode line hline]
  simp

end Line

namespace Body

/-- The labels of a body come from an earlier one, or their numbers are newer.  The
lines that define the old ones are lines of the earlier body, in the same order. -/
structure Inherits (later body : Body) : Prop where
  labels : later.labels.Inherits body.labels
  lines : (later.lines.filter (Line.definesBelow body.labels.supply)).Sublist body.lines

variable {body later last : Body}

theorem Inherits.refl (body : Body) : body.Inherits body :=
  ⟨.refl body.labels, List.filter_sublist⟩

theorem Inherits.trans (hlast : last.Inherits later) (hlater : later.Inherits body) :
    last.Inherits body := by
  refine ⟨hlast.labels.trans hlater.labels, ?_⟩
  have hbound : ∀ line, Line.definesBelow body.labels.supply line = true →
      Line.definesBelow later.labels.supply line = true := by
    intro line
    simp only [Line.definesBelow, Option.any_eq_true, decide_eq_true_eq]
    rintro ⟨id, hlabel, hid⟩
    exact ⟨id, hlabel, Nat.lt_of_lt_of_le hid hlater.labels.supply⟩
  have hfilter : last.lines.filter (Line.definesBelow body.labels.supply) =
      (last.lines.filter (Line.definesBelow later.labels.supply)).filter
        (Line.definesBelow body.labels.supply) := by
    rw [List.filter_filter]
    refine List.filter_congr fun line _ => ?_
    cases hline : Line.definesBelow body.labels.supply line with
    | false => simp
    | true => simp [hbound line hline]
  rw [hfilter]
  exact (hlast.lines.filter _).trans hlater.lines

end Body

/-! ## Edits and scripts -/

namespace Edit

variable {body edited : Body}

theorem inherits_of_splice {position width : Nat} {code : List Instruction}
    (hcode : Code.definitions code = [])
    (hperform : (Edit.splice position width code).perform body = .ok edited) :
    edited.Inherits body := by
  obtain ⟨line, rest, hahead, hlines, -, hlabels⟩ := layout_of_splice hperform
  rw [LabelTable.settle_of_definitions_eq_nil (by rw [Line.definitions_number, hcode])] at hlabels
  refine ⟨hlabels ▸ .refl body.labels, ?_⟩
  rw [hlines, List.filter_append, List.filter_append, Line.filter_definesBelow_number hcode,
    List.append_nil, ← List.filter_append, ← hahead]
  exact List.filter_sublist.trans (body.before_append_drop_ahead_sublist position width)

theorem inherits_of_split {position : Nat} {id : LabelId} (hid : body.labels.supply ≤ id.toNat)
    (hperform : (Edit.split position id).perform body = .ok edited) :
    edited.Inherits body := by
  obtain ⟨line, rest, hahead, hlines, -, hlabels⟩ := layout_of_split hperform
  rw [LabelTable.settle_new_label hid] at hlabels
  refine ⟨hlabels ▸ LabelTable.inherits_put_new hid _ _, ?_⟩
  have hnew : (Line.number body.supply [.label id]).filter
      (Line.definesBelow body.labels.supply) = [] := by
    simp [Line.number, Line.definesBelow, hid]
  rw [hlines, List.filter_append, List.filter_append, hnew, List.append_nil,
    ← List.filter_append]
  exact List.filter_sublist.trans (body.before_append_ahead_sublist position hahead)

/-- An edit that neither puts in a label nor code with labels. -/
theorem inherits_of_perform {edit : Edit} (hsplit : ∀ position id, edit ≠ .split position id)
    (hsplice : ∀ position width code, edit = .splice position width code →
      Code.definitions code = [])
    (hperform : edit.perform body = .ok edited) : edited.Inherits body := by
  cases edit with
  | split position id => exact absurd rfl (hsplit position id)
  | splice position width code => exact inherits_of_splice (hsplice position width code rfl) hperform
  | acquire id =>
      obtain ⟨labels, hlabels, hedited⟩ := bind_eq_ok_iff.mp hperform
      cases hedited
      obtain ⟨entry, hentry, rfl⟩ := LabelTable.exists_put_of_acquire hlabels
      exact ⟨LabelTable.inherits_put hentry _, List.filter_sublist⟩
  | release id =>
      obtain ⟨labels, hlabels, hedited⟩ := bind_eq_ok_iff.mp hperform
      cases hedited
      obtain ⟨entry, references, hentry, -, rfl⟩ := LabelTable.exists_put_of_release hlabels
      exact ⟨LabelTable.inherits_put hentry references, List.filter_sublist⟩
  | remove id =>
      obtain ⟨labels, hlabels, hedited⟩ := bind_eq_ok_iff.mp hperform
      cases hedited
      rw [LabelTable.eq_erase_of_remove hlabels]
      exact ⟨body.labels.inherits_erase id, List.filter_sublist⟩

end Edit

theorem Script.inherits_of_run {body next : Body} {script : Script}
    (hsplit : ∀ position id, Edit.split position id ∉ script)
    (hsplice : ∀ position width code, Edit.splice position width code ∈ script →
      Code.definitions code = [])
    (hrun : Script.run body script = .rewritten next) : next.Inherits body := by
  induction script generalizing body with
  | nil =>
      cases hrun
      exact .refl _
  | cons edit rest ih =>
      obtain ⟨edited, hperform, hrest⟩ := exists_perform_of_run_cons hrun
      have hedited := Edit.inherits_of_perform
        (fun position id heq => hsplit position id (heq ▸ List.mem_cons_self))
        (fun position width code heq => hsplice position width code (heq ▸ List.mem_cons_self))
        hperform
      refine (ih (fun position id hmem => ?_) (fun position width code hmem => ?_) hrest).trans
        hedited
      · exact hsplit position id (List.mem_cons_of_mem _ hmem)
      · exact hsplice position width code (List.mem_cons_of_mem _ hmem)

/-! ## Rules -/

namespace Rule

variable {rule : Rule} {body next : Body} {lines : List Line} {script : Script}

/-- No rule puts in labels by splicing. -/
theorem definitions_of_splice (hplan : rule.plan body lines = .ok (some script))
    {position width : Nat} {code : List Instruction}
    (hsplice : Edit.splice position width code ∈ script) : Code.definitions code = [] := by
  by_cases hcategory : rule.category = .jumps
  · cases rule with
    | removeDeadLabel | removeGotoNextLabel | removeUnreachableAfterGoto | simplifyConstantBranch
    | invertBranchOverGoto =>
        simp only [plan, Control.removeDeadLabel.eq_def, Control.removeGotoNextLabel.eq_def,
          Control.removeUnreachableAfterGoto.eq_def, Control.simplifyConstantBranch.eq_def,
          Control.invertBranchOverGoto.eq_def] at hplan
        grind [bind_eq_ok_iff, pure_eq_ok, Code.definitions_nil, Code.definitions_cons,
          Instruction.label?_goto, Instruction.label?_branch]
    | simplifyGotoGoto =>
        simp only [plan, Control.simplifyGotoGoto.eq_def] at hplan
        split at hplan
        · split at hplan
          · cases hplan
          · rename_i jump rest target hjump
            obtain ⟨ahead, -, hproposal⟩ := bind_eq_ok_iff.mp hplan
            have hlabel := fun final =>
              Instruction.label?_eq_none_of_target? (Instruction.target?_retarget hjump final)
            grind [pure_eq_ok, Code.definitions_nil, Code.definitions_cons]
        · cases hplan
    | simplifyConstantBranchThroughGoto =>
        obtain ⟨target, final, place, rfl | ⟨site, -, rfl⟩⟩ := redirect_of_plan hplan <;>
          simp_all
    | collapseComparisonTail =>
        simp only [plan, Control.collapseComparisonTail.eq_def] at hplan
        split at hplan
        · split at hplan
          · obtain ⟨unique, -, hproposal⟩ := bind_eq_ok_iff.mp hplan
            grind [pure_eq_ok, Code.definitions_nil, Code.definitions_cons,
              Instruction.label?_branch]
          · cases hplan
        · cases hplan
    | _ => cases hcategory
  · obtain ⟨first, window, after, code', -, rfl, hplain⟩ := exchange_of_plan hcategory hplan
    cases List.mem_singleton.mp hsplice
    refine List.filterMap_eq_nil_iff.mpr fun instruction hinstruction => ?_
    exact (hplain instruction (List.mem_append_right _ hinstruction)).1

/-- What a rule leaves inherits the labels of the body it was applied to. -/
theorem inherits_of_applyAt {position : Nat}
    (happly : rule.applyAt body position = .rewritten next) : next.Inherits body := by
  obtain ⟨script, hplan, hrun⟩ := attempt_eq_rewritten_iff.mp happly
  have hsplices : ∀ position width code, Edit.splice position width code ∈ script →
      Code.definitions code = [] := fun _ _ _ => definitions_of_splice hplan
  rcases split_of_plan hplan with hsplit | ⟨place, fresh, target, position, hfresh, rfl⟩
  · exact Script.inherits_of_run hsplit hsplices hrun
  · -- The new label comes first, and takes the next number of the table as it was.
    obtain ⟨divided, hperform, hrest⟩ := Script.exists_perform_of_run_cons hrun
    have hdivided := Edit.inherits_of_split
      (Nat.le_of_eq (LabelTable.toNat_of_fresh? hfresh).symm) hperform
    refine (Script.inherits_of_run (by simp) ?_ hrest).trans hdivided
    exact fun position width code hmem =>
      hsplices position width code (List.mem_cons_of_mem _ hmem)

theorem inherits_of_applyEach {applications : List (Rule × Nat)}
    (happly : applyEach body applications = .ok next) : next.Inherits body := by
  induction applications generalizing body with
  | nil =>
      cases happly
      exact .refl _
  | cons application rest ih =>
      obtain ⟨rule, position⟩ := application
      rw [applyEach] at happly
      split at happly
      · exact ih happly
      · rename_i rewritten hrewritten
        exact (ih happly).trans (inherits_of_applyAt hrewritten)
      · cases happly

end Rule

/-- The rewrites of an optimizer, applied one after the other. -/
theorem Optimizer.Trail.applyEach {optimizer : Optimizer} {body last : Body} {steps : List Step}
    (htrail : optimizer.Trail body steps last) :
    Rule.applyEach body (steps.map fun step => (step.rule, step.position)) = .ok last := by
  induction htrail with
  | nil body => rfl
  | cons hstep hrest ih =>
      rw [List.map_cons, Rule.applyEach, hstep.rewritten]
      exact ih

/-! ## Tracing labels -/

/-- Every label of a body can be traced to an earlier one: it was there, with the same
name and at the same position, or its number is above all that were there and its name
is made from it.  The lines of the labels that were there are in their old order. -/
structure Body.TracesTo (final body : Body) : Prop where
  origin : ∀ entry ∈ final.labels.entries,
    (∃ old ∈ body.labels.entries,
      old.id = entry.id ∧ old.name = entry.name ∧ old.position = entry.position) ∨
    (∀ old ∈ body.labels.entries, old.id < entry.id) ∧ entry.name = splitName entry.id
  order : (final.lines.filter fun line =>
    line.instruction.label?.any (· ∈ Line.definitions body.lines)).Sublist body.lines

theorem Body.Inherits.tracesTo {final body : Body} (hsynced : body.Synced)
    (hinherits : final.Inherits body) : final.TracesTo body where
  origin := by
    intro entry hentry
    have hget := LabelTable.get?_eq_some_of_mem hentry
    by_cases hid : entry.id.toNat < body.labels.supply
    · obtain ⟨old, hold, hname, hposition⟩ := hinherits.labels.kept entry.id entry hget hid
      exact .inl ⟨old, List.mem_of_find?_eq_some hold, LabelTable.id_of_get?_eq_some hold, hname,
        hposition⟩
    · refine .inr ⟨fun old hold => ?_, ?_⟩
      · rw [UInt32.lt_iff_toNat_lt]
        exact Nat.lt_of_lt_of_le (body.labels.below_supply old hold) (Nat.not_lt.mp hid)
      · exact hinherits.labels.named entry.id entry hget (Nat.not_lt.mp hid)
  order := by
    refine List.Sublist.trans ?_ hinherits.lines
    refine List.monotone_filter_right _ fun line hline => ?_
    obtain ⟨id, hlabel, hid⟩ := (Option.any_eq_true _ _).mp hline
    have hknows := hsynced.knows_iff.mpr (of_decide_eq_true hid)
    simp [Line.definesBelow, hlabel, hknows.lt_supply]

/-- Whatever rules are applied to a body that was put together from an instruction list,
and wherever, all labels that it then has can be traced to their origin; and a label that
was taken out at some time is not there at any later time.  An optimizer makes one such
sequence of applications. -/
theorem labels_keep_provenance {names : List (LabelId × String)} {code : List Instruction}
    {body : Body} (hassemble : Body.assemble names code = .ok body) :
    (∀ applications, ∃ final,
      Rule.applyEach body applications = .ok final ∧ final.TracesTo body) ∧
      (∀ first second third earlier later last id,
        Rule.applyEach body first = .ok earlier → Rule.applyEach earlier second = .ok later →
        Rule.applyEach later third = .ok last →
        earlier.labels.Knows id → ¬later.labels.Knows id → ¬last.labels.Knows id) ∧
      ∀ optimizer : Optimizer,
        Rule.applyEach body
            ((optimizer.run body).steps.map fun step => (step.rule, step.position)) =
          .ok (optimizer.optimize body).2 := by
  obtain ⟨hsynced, -, -⟩ := Body.synced_of_assemble hassemble
  refine ⟨fun applications => ?_, ?_, fun optimizer => (optimizer.trail_run hsynced).applyEach⟩
  · obtain ⟨final, -, hfinal, -, -⟩ := Rule.applyEach_eq_ok hsynced applications
    exact ⟨final, hfinal, (Rule.inherits_of_applyEach hfinal).tracesTo hsynced⟩
  · intro first second third earlier later last id _ hsecond hthird
    exact (Rule.inherits_of_applyEach hthird).labels.not_knows
      (Rule.inherits_of_applyEach hsecond).labels

/-- A body with an unused label of the highest number, and a jump to a test that is known
to fail. -/
def outnumbered : List Instruction :=
  [.label 9, .const 0, .goto 1, .label 1, .branch (.test .nonZero) 2, .nop, .label 2]

/-- The unused label goes, and the label that is put in next has a number above it. -/
theorem labels_keep_provenance_at_outnumbered :
    ∃ body final, Body.assemble [(2, "exit")] outnumbered = .ok body ∧
      Rule.applyEach body [(.removeDeadLabel, 0), (.simplifyConstantBranchThroughGoto, 1)] =
        .ok final ∧
      final.TracesTo body ∧
      final.labels.entries =
        [⟨1, "L1", 3, 0⟩, ⟨2, "exit", 6, 1⟩, ⟨10, "split_10", 7, 1⟩] := by
  have hassemble : Body.assemble [(2, "exit")] outnumbered = .ok _ := rfl
  obtain ⟨final, hfinal, htraces⟩ := (labels_keep_provenance hassemble).1
    [(.removeDeadLabel, 0), (.simplifyConstantBranchThroughGoto, 1)]
  have hentries := congrArg (Except.map fun final => final.labels.entries) hfinal
  exact ⟨_, final, hassemble, hfinal, htraces, (Except.ok.inj hentries).symm.trans (by rfl)⟩

end Peephole
