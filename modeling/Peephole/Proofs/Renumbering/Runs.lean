import Mathlib.Data.List.Nodup
import Mathlib.Data.Set.Function
import Peephole.Proofs.Budget
import Peephole.Proofs.Exhaustion
import Peephole.Proofs.Renumbering.Scripts
import Peephole.Proofs.Strategy

/-!
# Runs under a renumbering

Two bodies whose lines and labels differ by a renumbering, that has an answer for
the positions and labels to come as well, are rewritten by the same rules at the
same places, and the results differ by the same renumbering.
-/

namespace Peephole

namespace LabelTable

/-- The number of the next label of a table but `offset`, while there is one. -/
def upcoming? (table : LabelTable) (offset : Nat) : Option LabelId :=
  if table.supply + offset < UInt32.size then some (UInt32.ofNat (table.supply + offset)) else none

variable {table next : LabelTable}

theorem upcoming?_zero (table : LabelTable) : table.upcoming? 0 = table.fresh? := rfl

theorem upcoming?_of_supply {count : Nat} (hsupply : next.supply = table.supply + count)
    (offset : Nat) : next.upcoming? offset = table.upcoming? (offset + count) := by
  rw [upcoming?, upcoming?, hsupply, Nat.add_assoc, Nat.add_comm count]

end LabelTable

namespace Renumbering

theorem instruction_instruction (outer inner : Renumbering) (instruction : Instruction) :
    outer.instruction (inner.instruction instruction) =
      (Renumbering.mk (outer.position ∘ inner.position)
        (outer.label ∘ inner.label)).instruction instruction := by
  cases instruction <;> rfl

/-- A renumbering that undoes another one on the names in a line undoes it on the line. -/
theorem line_line_eq_self {outer inner : Renumbering} {line : Line}
    (hposition : outer.position (inner.position line.position) = line.position)
    (hlabel : ∀ id, line.instruction.label? = some id ∨ line.instruction.target? = some id →
      outer.label (inner.label id) = id) : outer.line (inner.line line) = line := by
  rw [Renumbering.line, Renumbering.line, hposition, instruction_instruction,
    instruction_eq_self hlabel]

end Renumbering

namespace Body

/-- Two bodies in step that differ by a renumbering, and will go on to do so when lines
and labels are put in.  A label is only put in where an instruction goes, so no more of
them can come than there are instructions other than labels. -/
structure Mirrored (source : Body) (renumbering : Renumbering) (result : Body) : Prop where
  source_synced : source.Synced
  result_synced : result.Synced
  aligned : source.Aligned renumbering result
  increasing : ∀ left ∈ Line.definitions source.lines, ∀ right ∈ Line.definitions source.lines,
    left < right → renumbering.label left < renumbering.label right
  upcoming : ∀ offset ≤ Code.size source.instructions,
    result.labels.upcoming? offset = (source.labels.upcoming? offset).map renumbering.label

/-- A label of a body, or the next one to be put in. -/
def Expects (body : Body) (id : LabelId) : Prop :=
  id ∈ Line.definitions body.lines ∨ body.labels.fresh? = some id

namespace Mirrored

variable {renumbering : Renumbering} {source result next : Body} {before lines : List Line}
variable {rule : Rule} {position : Nat}

theorem fresh? (hmirrored : source.Mirrored renumbering result) :
    result.labels.fresh? = source.labels.fresh?.map renumbering.label := by
  rw [← LabelTable.upcoming?_zero, ← LabelTable.upcoming?_zero]
  exact hmirrored.upcoming 0 (Nat.zero_le _)

theorem renumbered (hmirrored : source.Mirrored renumbering result) :
    source.Renumbered renumbering result where
  source_synced := hmirrored.source_synced
  result_synced := hmirrored.result_synced
  lines := hmirrored.aligned.lines
  increasing := hmirrored.increasing
  fresh := by
    intro id hid
    rw [hmirrored.fresh?, hid]
    rfl

theorem definitions (hmirrored : source.Mirrored renumbering result) :
    Line.definitions result.lines = (Line.definitions source.lines).map renumbering.label := by
  rw [hmirrored.aligned.lines, Renumbering.definitions_map]

/-- The order of the labels is kept, also by the one to come. -/
theorem label_lt_label (hmirrored : source.Mirrored renumbering result) {left right : LabelId}
    (hleft : source.Expects left) (hright : source.Expects right) (hlt : left < right) :
    renumbering.label left < renumbering.label right := by
  rcases hleft with hleft | hleft
  · rcases hright with hright | hright
    · exact hmirrored.increasing left hleft right hright hlt
    · have hmem := hmirrored.renumbered.mem_definitions hleft
      rw [Line.definitions_eq] at hmem
      exact hmirrored.result_synced.lt_of_fresh? (hmirrored.renumbered.fresh right hright) _ hmem
  · rcases hright with hright | hright
    · rw [Line.definitions_eq] at hright
      exact absurd (hmirrored.source_synced.lt_of_fresh? hleft right hright) (UInt32.lt_asymm hlt)
    · rw [hleft] at hright
      cases hright
      exact absurd hlt (UInt32.lt_irrefl left)

theorem injOn_label (hmirrored : source.Mirrored renumbering result) :
    Set.InjOn renumbering.label {id | source.Expects id} := by
  intro left hleft right hright heq
  exact Renumbering.injective_of_increasing
    (fun _ hleft _ hright hlt => hmirrored.label_lt_label hleft hright hlt) hleft hright heq

theorem positions (hmirrored : source.Mirrored renumbering result) :
    result.lines.map Line.position =
      (source.lines.map Line.position).map renumbering.position := by
  rw [hmirrored.aligned.lines, List.map_map, List.map_map]
  rfl

theorem injOn_position (hmirrored : source.Mirrored renumbering result) :
    Set.InjOn renumbering.position {position | position ∈ source.lines.map Line.position} := by
  have hnodup := result.distinct
  rw [hmirrored.positions] at hnodup
  exact List.inj_on_of_nodup_map hnodup

/-- The renumbering can be undone. -/
theorem exists_inverse (hmirrored : source.Mirrored renumbering result) :
    ∃ inverse, result.Renumbered inverse source ∧
      ∀ line ∈ source.lines, inverse.line (renumbering.line line) = line := by
  let inverse : Renumbering :=
    ⟨Function.invFunOn renumbering.position {position | position ∈ source.lines.map Line.position},
      Function.invFunOn renumbering.label {id | source.Expects id}⟩
  have hlabel : ∀ id, source.Expects id → inverse.label (renumbering.label id) = id :=
    fun _ hid => hmirrored.injOn_label.leftInvOn_invFunOn hid
  have hline : ∀ line ∈ source.lines, inverse.line (renumbering.line line) = line := by
    intro line hmem
    apply Renumbering.line_line_eq_self
    · exact hmirrored.injOn_position.leftInvOn_invFunOn (List.mem_map_of_mem hmem)
    · rintro id (hid | hid)
      · exact hlabel id (.inl (List.mem_filterMap.mpr ⟨line, hmem, hid⟩))
      · exact hlabel id (.inl (hmirrored.source_synced.mem_definitions
          (List.mem_filterMap.mpr ⟨line, hmem, hid⟩)))
  refine ⟨inverse, ⟨hmirrored.result_synced, hmirrored.source_synced, ?_, ?_, ?_⟩, hline⟩
  · have hself : source.lines.map (inverse.line ∘ renumbering.line) = source.lines.map id :=
      List.map_congr_left hline
    rw [hmirrored.aligned.lines, List.map_map, hself, List.map_id]
  · rw [hmirrored.definitions]
    intro left' hleft' right' hright' hlt
    obtain ⟨left, hleft, rfl⟩ := List.mem_map.mp hleft'
    obtain ⟨right, hright, rfl⟩ := List.mem_map.mp hright'
    rw [hlabel left (.inl hleft), hlabel right (.inl hright)]
    exact Renumbering.lt_of_label_lt hmirrored.increasing hleft hright hlt
  · intro id hid
    rw [hmirrored.fresh?] at hid
    obtain ⟨fresh, hfresh, rfl⟩ := Option.map_eq_some_iff.mp hid
    rw [hlabel fresh (.inr hfresh), hfresh]

/-! ## One rewrite -/

theorem split (hmirrored : source.Mirrored renumbering result)
    (hlines : source.lines = before ++ lines) :
    result.lines = before.map renumbering.line ++ lines.map renumbering.line := by
  rw [hmirrored.aligned.lines, hlines, List.map_append]

/-- A rule declines for one of the bodies if it does for the other. -/
theorem attempt_eq_declined_iff (hmirrored : source.Mirrored renumbering result)
    (hlines : source.lines = before ++ lines) :
    rule.attempt result (lines.map renumbering.line) = .declined ↔
      rule.attempt source lines = .declined := by
  rw [Rule.attempt_eq_declined_iff, Rule.attempt_eq_declined_iff]
  constructor
  · exact rule.plan_eq_none_of_renumbered hmirrored.renumbered hlines
  · intro hnone
    obtain ⟨inverse, hinverse, hback⟩ := hmirrored.exists_inverse
    refine rule.plan_eq_none_of_renumbered hinverse (hmirrored.split hlines) ?_
    have hself : lines.map (inverse.line ∘ renumbering.line) = lines.map id :=
      List.map_congr_left fun line hline => hback line (by simp [hlines, hline])
    rw [List.map_map, hself, List.map_id]
    exact hnone

/-- What the labels of both bodies are after a rewrite.  Both get a new label, or neither
does. -/
theorem labels_of_attempt (hmirrored : source.Mirrored renumbering result) {next' : Body}
    (hlines : source.lines = before ++ lines)
    (hattempt : rule.attempt source lines = .rewritten next)
    (hattempt' : rule.attempt result (lines.map renumbering.line) = .rewritten next')
    (haligned : next.Aligned renumbering next') :
    ∃ count, next.labels.supply = source.labels.supply + count ∧
      next'.labels.supply = result.labels.supply + count ∧
      Code.size next.instructions + count ≤ Code.size source.instructions ∧
      ∀ id ∈ Line.definitions next.lines, source.Expects id := by
  have hlabels := Rule.labels_of_attempt hmirrored.source_synced hlines hattempt
  have hlabels' := Rule.labels_of_attempt hmirrored.result_synced (hmirrored.split hlines) hattempt'
  rw [haligned.lines, Renumbering.definitions_map, hmirrored.definitions] at hlabels'
  -- A label that is new to the one body only would be an old label of the other.
  rcases hlabels with ⟨hsupply, hsize, hkept⟩ | ⟨fresh, hfresh, hnew, hsupply, hsize, hkept⟩
  · rcases hlabels' with ⟨hsupply', -, -⟩ | ⟨fresh', hfresh', hnew', -⟩
    · exact ⟨0, hsupply, hsupply', hsize, fun id hid => .inl (hkept id hid)⟩
    · obtain ⟨id, hid, rfl⟩ := List.mem_map.mp hnew'
      exact absurd (hmirrored.renumbered.mem_definitions (hkept id hid))
        (hmirrored.result_synced.not_mem_of_fresh? hfresh')
  · rcases hlabels' with ⟨-, -, hkept'⟩ | ⟨fresh', -, -, hsupply', -⟩
    · have hmem := hkept' _ (List.mem_map_of_mem hnew)
      rw [← hmirrored.definitions] at hmem
      exact absurd hmem (hmirrored.result_synced.not_mem_of_fresh?
        (hmirrored.renumbered.fresh fresh hfresh))
    · refine ⟨1, hsupply, hsupply', hsize, fun id hid => ?_⟩
      rcases hkept id hid with rfl | hid
      · exact .inr hfresh
      · exact .inl hid

/-- The rewrites that a rule makes of the two bodies differ by the same renumbering. -/
theorem attempt (hmirrored : source.Mirrored renumbering result)
    (hlines : source.lines = before ++ lines)
    (hattempt : rule.attempt source lines = .rewritten next) :
    ∃ next', rule.attempt result (lines.map renumbering.line) = .rewritten next' ∧
      next.Mirrored renumbering next' := by
  obtain ⟨script, hplan, hrun⟩ := Rule.attempt_eq_rewritten_iff.mp hattempt
  have hplan' := rule.plan_renumber hmirrored.renumbered hlines hplan
  rcases rule.attempt_cases hmirrored.result_synced (hmirrored.split hlines) with
    hdeclined | ⟨next', hattempt', hsynced', -⟩
  · rw [Rule.attempt_eq_declined_iff, hplan'] at hdeclined
    cases hdeclined
  · have hrun' : Script.run result (script.map renumbering.edit) = .rewritten next' := by
      rwa [Rule.attempt, hplan'] at hattempt'
    have haligned := hmirrored.aligned.run hrun hrun'
    obtain ⟨count, hsupply, hsupply', hsize, hdefined⟩ :=
      hmirrored.labels_of_attempt hlines hattempt hattempt' haligned
    obtain ⟨hsynced, -⟩ := Rule.rewrites_of_attempt hmirrored.source_synced hlines hattempt
    refine ⟨next', hattempt', hsynced, hsynced', haligned, fun left hleft right hright hlt => ?_,
      fun offset hoffset => ?_⟩
    · exact hmirrored.label_lt_label (hdefined left hleft) (hdefined right hright) hlt
    · rw [LabelTable.upcoming?_of_supply hsupply, LabelTable.upcoming?_of_supply hsupply']
      exact hmirrored.upcoming (offset + count) (by omega)

/-! ## Sequences of rewrites -/

theorem ahead (hmirrored : source.Mirrored renumbering result)
    (hposition : position ∈ source.lines.map Line.position) :
    result.ahead (renumbering.position position) =
      (source.ahead position).map renumbering.line := by
  obtain ⟨line, hline, rfl⟩ := List.mem_map.mp hposition
  obtain ⟨front, rest, hlines⟩ := List.append_of_mem hline
  have hahead := Body.ahead_eq_of_split hlines
  rw [hahead, (hmirrored.aligned.ahead hahead).1, List.map_cons]

theorem applyAt_eq_declined_iff (hmirrored : source.Mirrored renumbering result)
    (hposition : position ∈ source.lines.map Line.position) :
    rule.applyAt result (renumbering.position position) = .declined ↔
      rule.applyAt source position = .declined := by
  rw [Rule.applyAt, hmirrored.ahead hposition]
  exact hmirrored.attempt_eq_declined_iff (Line.before_append_ahead source.lines position).symm

theorem applyAt (hmirrored : source.Mirrored renumbering result)
    (hposition : position ∈ source.lines.map Line.position)
    (happly : rule.applyAt source position = .rewritten next) :
    ∃ next', rule.applyAt result (renumbering.position position) = .rewritten next' ∧
      next.Mirrored renumbering next' := by
  rw [Rule.applyAt, hmirrored.ahead hposition]
  exact hmirrored.attempt (Line.before_append_ahead source.lines position).symm happly

theorem leftmost (hmirrored : source.Mirrored renumbering result) {optimizer : Optimizer}
    {step : Step} (hstep : optimizer.Leftmost source step) :
    ∃ step', optimizer.Leftmost result step' ∧ step'.rule = step.rule ∧
      step.body.Mirrored renumbering step'.body := by
  obtain ⟨⟨earlier, later, hplaces, hearlier⟩, ⟨tried, untried, hrules, htried⟩, hrewritten⟩ :=
    hstep
  have hposition : step.position ∈ source.lines.map Line.position := by simp [hplaces]
  obtain ⟨next', happly, hnext⟩ := hmirrored.applyAt hposition hrewritten
  refine ⟨⟨renumbering.position step.position, step.rule, next'⟩, ⟨?_, ?_, happly⟩, rfl, hnext⟩
  · refine ⟨earlier.map renumbering.position, later.map renumbering.position, ?_, ?_⟩
    · rw [hmirrored.positions, hplaces, List.map_append, List.map_cons]
    · intro place' hplace' rule hrule
      obtain ⟨place, hplace, rfl⟩ := List.mem_map.mp hplace'
      exact (hmirrored.applyAt_eq_declined_iff (by simp [hplaces, hplace])).mpr
        (hearlier place hplace rule hrule)
  · exact ⟨tried, untried, hrules, fun rule hrule =>
      (hmirrored.applyAt_eq_declined_iff hposition).mpr (htried rule hrule)⟩

theorem trail (hmirrored : source.Mirrored renumbering result) {optimizer : Optimizer}
    {steps : List Step} {last : Body} (htrail : optimizer.Trail source steps last) :
    ∃ steps' last', optimizer.Trail result steps' last' ∧
      steps'.map Step.rule = steps.map Step.rule ∧ last.Mirrored renumbering last' := by
  induction htrail generalizing result with
  | nil body => exact ⟨[], result, .nil result, rfl, hmirrored⟩
  | cons hstep hrest ih =>
      obtain ⟨step', hstep', hrule, hnext⟩ := hmirrored.leftmost hstep
      obtain ⟨steps', last', hrest', hrules, hlast⟩ := ih hnext
      refine ⟨step' :: steps', last', .cons hstep' hrest', ?_, hlast⟩
      rw [List.map_cons, List.map_cons, hrule, hrules]

theorem length_eq (hmirrored : source.Mirrored renumbering result) :
    result.length = source.length := by
  rw [Body.length, hmirrored.aligned.lines, List.length_map]
  rfl

theorem rewriteLimit_eq (hmirrored : source.Mirrored renumbering result) (settings : Settings) :
    settings.rewriteLimit result = settings.rewriteLimit source := by
  have hsize : result.labels.size = source.labels.size := by
    rw [hmirrored.result_synced.size_labels, hmirrored.source_synced.size_labels,
      Body.instructions, Body.instructions, ← Line.definitions_eq, ← Line.definitions_eq,
      hmirrored.definitions, List.length_map]
  rw [Settings.rewriteLimit, Settings.rewriteLimit, hmirrored.length_eq, hsize]

end Mirrored

end Body

/-- A report only depends on the rules that were applied and on the lengths. -/
theorem Run.report_congr {run other : Run}
    (hrules : other.steps.map Step.rule = run.steps.map Step.rule)
    (hlength : other.body.length = run.body.length) (before : Nat) :
    other.report before = run.report before := by
  have hsteps : other.steps.length = run.steps.length := by
    simpa using congrArg List.length hrules
  have hhits : (other.report before).hits = (run.report before).hits := by
    funext rule
    rw [hits_report, hits_report, hrules]
  simp only [report] at hhits ⊢
  rw [hsteps, hlength, hhits]

theorem Run.outcome_congr {run other : Run}
    (hrules : other.steps.map Step.rule = run.steps.map Step.rule)
    (hlength : other.body.length = run.body.length) (hfault : other.fault? = run.fault?)
    (before : Nat) : other.outcome before = run.outcome before := by
  rw [outcome, outcome, hfault, report_congr hrules hlength]

/-- An optimizer gives the same report on both bodies, or is stopped by the same fault,
and leaves them differing by the same renumbering. -/
theorem Optimizer.optimize_mirrored (optimizer : Optimizer) {renumbering : Renumbering}
    {source result : Body} (hmirrored : source.Mirrored renumbering result) :
    (optimizer.optimize result).1 = (optimizer.optimize source).1 ∧
      (optimizer.optimize source).2.Mirrored renumbering (optimizer.optimize result).2 := by
  obtain ⟨steps', last', htrail', hrules, hlast⟩ :=
    hmirrored.trail (optimizer.trail_run hmirrored.source_synced)
  have hlength : steps'.length = (optimizer.run source).steps.length := by
    simpa using congrArg List.length hrules
  have hrun : optimizer.run result = ⟨steps', last', (optimizer.run source).fault?⟩ := by
    rw [run, hmirrored.rewriteLimit_eq]
    rcases (optimizer.sound_run hmirrored.source_synced).stops with
      ⟨hfault, hsteps⟩ | ⟨hfault, hsteps⟩
    · obtain ⟨inverse, hinverse, -⟩ := hlast.exists_inverse
      have hsettled' := settled_of_renumbered hinverse (settled_of_runWithin hfault)
      rw [hfault]
      exact runWithin_of_trail hmirrored.result_synced htrail' hsettled' (by omega) _
    · rw [hfault]
      exact runWithin_of_trail_beyond hmirrored.result_synced htrail' (hlength.trans hsteps) _
  rw [optimize, optimize, hrun, hmirrored.length_eq]
  exact ⟨Run.outcome_congr hrules hlast.length_eq (by rfl) _, hlast⟩

end Peephole
