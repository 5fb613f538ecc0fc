import Mathlib.Data.List.Count
import Mathlib.Data.List.Sort
import Peephole.Proofs.Arena.Driving

/-!
# Runs in place

An arena of a body that is in step with its table has words wide enough for the jumps, as
long as there are fewer lines than words can count.  On such an arena everything in place
comes to a result, and to the one that it has with the body: rules, passes, and the whole
loop of the optimizer with its statistics.  The arena that is left is again one of the body
that is left.
-/

namespace Peephole

theorem Overflow.counts_of_lt {targets : List LabelId} (hlength : targets.length < UInt32.size)
    (overflow : Overflow) : overflow.counts targets = some targets.count := by
  have hword : ∀ id, overflow.word (targets.count id) = some (targets.count id) := fun id =>
    overflow.word_of_lt (Nat.lt_of_le_of_lt List.count_le_length hlength)
  simp [counts, hword]

theorem Body.Synced.room {body : Body} (hsynced : body.Synced)
    (hlength : body.length < UInt32.size) : body.labels.Room 1 := by
  constructor
  · decide
  · intro id entry hentry
    have hreferences := hsynced.references_lt hentry
    omega

namespace Arena

/-- An arena of a body that is in step with its label table and whose jumps words can
count. -/
structure InStep (arena : Arena) (body : Body) : Prop where
  represents : arena.Represents body
  synced : body.Synced
  length : body.length < UInt32.size

variable {arena : Arena} {body : Body} {overflow : Overflow}

theorem Represents.audit (hrepresents : arena.Represents body)
    (hlength : body.length < UInt32.size) (overflow : Overflow) :
    arena.audit overflow = some body.audit := by
  have htargets : (Line.targets body.lines).length < UInt32.size :=
    Nat.lt_of_le_of_lt (List.length_filterMap_le _ _) hlength
  rw [Arena.audit, hrepresents.lines?, hrepresents.labels]
  simp only [Option.bind_eq_bind, Option.bind_some, Overflow.counts_of_lt htargets]
  rw [Body.audit, Body.bookkeepingFault?]
  split <;> simp_all

theorem Represents.limit (hrepresents : arena.Represents body) (settings : Settings) :
    settings.limit arena.length arena.labels.size = settings.rewriteLimit body := by
  rw [hrepresents.labels, hrepresents.holds.length]
  rfl

namespace InStep

theorem room (hinStep : arena.InStep body) : body.labels.Room 1 :=
  hinStep.synced.room hinStep.length

theorem audit (hinStep : arena.InStep body) (overflow : Overflow) :
    arena.audit overflow = some (.ok ()) := by
  rw [hinStep.represents.audit hinStep.length, Body.audit_eq_ok_iff.mpr hinStep.synced]

/-- A rewrite of the body does not make it longer. -/
theorem rewrite (hinStep : arena.InStep body) {changed : Arena} {rewritten : Body}
    (hrepresents : changed.Represents rewritten) (hsynced : rewritten.Synced)
    (hrewrites : Rewrites body.instructions rewritten.instructions) :
    changed.InStep rewritten := by
  refine ⟨hrepresents, hsynced, ?_⟩
  have hle := hrewrites.length_le
  simp only [Body.instructions, Line.instructions, List.length_map] at hle
  exact Nat.lt_of_le_of_lt hle hinStep.length

/-- Nothing goes wrong when a rule is tried. -/
theorem apply (hinStep : arena.InStep body) (overflow : Overflow) (rule : Rule) (position : Nat) :
    (rule.apply overflow position).on arena = some (.ok false, arena) ∧
        rule.applyAt body position = .declined ∨
      ∃ changed rewritten, (rule.apply overflow position).on arena = some (.ok true, changed) ∧
        rule.applyAt body position = .rewritten rewritten ∧ changed.InStep rewritten := by
  have hrefines := rule.refines_apply overflow hinStep.represents hinStep.room position
  generalize (rule.apply overflow position).on arena = inArena at hrefines ⊢
  rcases rule.applyAt_cases hinStep.synced position with
    hdeclined | ⟨rewritten, hrewritten, hsynced, hrewrites⟩
  · rw [hdeclined] at hrefines ⊢
    cases hrefines
    exact .inl ⟨rfl, rfl⟩
  · rw [hrewritten] at hrefines ⊢
    cases hrefines with
    | rewritten hrepresents =>
        exact .inr ⟨_, rewritten, rfl, rfl, hinStep.rewrite hrepresents hsynced hrewrites⟩

/-- A pass in place ends as a search in the body does, and not with a fault. -/
theorem pass (hinStep : arena.InStep body) (overflow : Overflow) (optimizer : Optimizer) :
    (InPlace.pass overflow optimizer.rules).on arena = some (.ok none, arena) ∧
        optimizer.search body = .settled ∨
      ∃ position rule changed rewritten,
        (InPlace.pass overflow optimizer.rules).on arena =
          some (.ok (some (position, rule)), changed) ∧
        optimizer.search body = .found position rule rewritten ∧ changed.InStep rewritten := by
  have hrefines := Search.refines_pass overflow hinStep.represents hinStep.room optimizer.rules
  rw [← Optimizer.search] at hrefines
  generalize (InPlace.pass overflow optimizer.rules).on arena = inArena at hrefines ⊢
  rcases optimizer.search_cases hinStep.synced with
    hsettled | ⟨position, rule, rewritten, hfound, hsynced, hrewrites⟩
  · rw [hsettled] at hrefines ⊢
    cases hrefines
    exact .inl ⟨rfl, rfl⟩
  · rw [hfound] at hrefines ⊢
    cases hrefines with
    | found position rule hrepresents =>
        exact .inr ⟨position, rule, _, rewritten, rfl, rfl,
          hinStep.rewrite hrepresents hsynced hrewrites⟩

theorem findMatch (hinStep : arena.InStep body) (overflow : Overflow) (optimizer : Optimizer) :
    InPlace.findMatch overflow optimizer arena = some (optimizer.findMatch body) := by
  rw [InPlace.findMatch_eq hinStep.represents.intact, Optimizer.findMatch]
  rcases hinStep.pass overflow optimizer with
    ⟨hpass, hsettled⟩ | ⟨position, rule, changed, rewritten, hpass, hfound, -⟩
  · rw [hpass, hsettled]
    rfl
  · rw [hpass, hfound]
    rfl

end InStep

end Arena

/-! ## Sequences of applications -/

namespace InPlace

/-- Applies rules at positions one after the other, up to the first that fails. -/
def applyEach (overflow : Overflow) : List (Nat × Rule) → Work Unit
  | [] => return
  | (position, rule) :: rest => do
      let _ ← rule.apply overflow position
      applyEach overflow rest

end InPlace

theorem Arena.InStep.applyEach {arena : Arena} {body : Body} (hinStep : arena.InStep body)
    (overflow : Overflow) (applications : List (Nat × Rule)) :
    ∃ final last, (InPlace.applyEach overflow applications).on arena = some (.ok (), final) ∧
      Rule.applyEach body (applications.map Prod.swap) = .ok last ∧ final.InStep last := by
  induction applications generalizing arena body with
  | nil => exact ⟨arena, body, rfl, rfl, hinStep⟩
  | cons application rest ih =>
      obtain ⟨position, rule⟩ := application
      rw [InPlace.applyEach, Process.on_bind, List.map_cons, Prod.swap_prod_mk, Rule.applyEach]
      rcases hinStep.apply overflow rule position with
        ⟨happly, hdeclined⟩ | ⟨changed, rewritten, happly, hrewritten, hchanged⟩
      · rw [happly, hdeclined]
        exact ih hinStep
      · rw [happly, hrewritten]
        exact ih hchanged

/-! ## The loop -/

namespace Run

/-- The rewrites of a run, each by its position and rule. -/
def log (run : Run) : List (Nat × Rule) :=
  run.steps.map fun step => (step.position, step.rule)

/-- How a run ended. -/
def ended (run : Run) : Except Fault Unit :=
  match run.fault? with
  | none => .ok ()
  | some fault => .error fault

end Run

namespace InPlace

variable {overflow : Overflow} {optimizer : Optimizer} {limit budget : Nat} {progress : Progress}
variable {body : Body}

theorem on_inspect_of_audit (haudit : progress.arena.audit overflow = some (.ok ())) :
    (inspect overflow optimizer limit).on progress = (checkLimit limit).on progress := by
  rw [on_inspect, haudit, ite_self]

/-- A turn of the loop finds nothing, or makes the leftmost rewrite of the body and goes on
to the limit. -/
theorem turn_of_inStep (hinStep : progress.arena.InStep body) (overflow : Overflow)
    (optimizer : Optimizer) (limit : Nat) :
    (turn overflow optimizer limit).on progress = some (.ok false, progress.pass) ∧
        optimizer.search body = .settled ∨
      ∃ step next, (turn overflow optimizer limit).on progress = (checkLimit limit).on next ∧
        optimizer.Leftmost body step ∧ next.arena.InStep step.body ∧
        next.stats.rewrites = progress.stats.rewrites + 1 ∧
        next.log = progress.log ++ [(step.position, step.rule)] := by
  rw [on_turn]
  rcases hinStep.pass overflow optimizer with
    ⟨hpass, hsettled⟩ | ⟨position, rule, changed, rewritten, hpass, hfound, hchanged⟩
  · rw [hpass]
    exact .inl ⟨rfl, hsettled⟩
  · rw [hpass]
    refine .inr ⟨⟨position, rule, rewritten⟩, _, on_inspect_of_audit (hchanged.audit overflow),
      Optimizer.search_eq_found_iff.mp hfound, hchanged, rfl, rfl⟩

/-- The loop in place makes the rewrites of the run, and ends as it does. -/
theorem refines_rewriteAll (overflow : Overflow) (optimizer : Optimizer)
    (hinStep : progress.arena.InStep body)
    (hbudget : progress.stats.rewrites + budget = limit) :
    ∃ final, rewriteAll overflow optimizer limit progress =
        some ((optimizer.runWithin limit budget body).ended, final) ∧
      final.arena.InStep (optimizer.runWithin limit budget body).body ∧
      final.log = progress.log ++ (optimizer.runWithin limit budget body).log := by
  -- The budget is what the limit leaves for further rewrites.
  induction budget generalizing progress body with
  | zero =>
      rcases turn_of_inStep hinStep overflow optimizer limit with
        ⟨hturn, hsettled⟩ | ⟨step, next, hturn, hstep, hnext, hrewrites, hlog⟩
      · rw [rewriteAll_of_rest hturn, Optimizer.runWithin_of_settled hsettled]
        exact ⟨_, rfl, hinStep, (List.append_nil _).symm⟩
      · rw [on_checkLimit, if_pos (by omega)] at hturn
        rw [rewriteAll_of_fault hturn,
          Optimizer.runWithin_zero_of_leftmost hinStep.synced hstep]
        exact ⟨next, rfl, hnext, hlog⟩
  | succ budget ih =>
      rcases turn_of_inStep hinStep overflow optimizer limit with
        ⟨hturn, hsettled⟩ | ⟨step, next, hturn, hstep, hnext, hrewrites, hlog⟩
      · rw [rewriteAll_of_rest hturn, Optimizer.runWithin_of_settled hsettled]
        exact ⟨_, rfl, hinStep, (List.append_nil _).symm⟩
      · rw [on_checkLimit, if_neg (by omega)] at hturn
        rw [rewriteAll_of_rewrite hturn,
          Optimizer.runWithin_succ_of_leftmost hinStep.synced hstep]
        obtain ⟨final, hrun, hfinal, hrest⟩ := ih hnext (by omega)
        refine ⟨final, hrun, hfinal, ?_⟩
        rw [hrest, hlog, List.append_assoc]
        rfl

end InPlace

/-! ## Reports -/

theorem Rule.ofName?_name (rule : Rule) : ofName? rule.name = some rule := by
  cases rule <;> rfl

theorem Rule.name_injective : Function.Injective name := by
  intro left right hname
  apply Option.some.inj
  rw [← left.ofName?_name, hname, right.ofName?_name]

/-- Counting the names of rules is counting the rules. -/
theorem Rule.count_names_iff {rules : List Rule} {name : String} {count : Nat} :
    (rules.map Rule.name).count name = count ∧ 0 < count ↔
      ∃ rule : Rule, rule.name = name ∧ rules.count rule = count ∧ 0 < count := by
  constructor
  · rintro ⟨rfl, hpos⟩
    obtain ⟨rule, -, rfl⟩ := List.mem_map.mp (List.count_pos_iff.mp hpos)
    exact ⟨rule, rfl, (List.count_map_of_injective _ _ name_injective _).symm, hpos⟩
  · rintro ⟨rule, rfl, hcount, hpos⟩
    exact ⟨(List.count_map_of_injective _ _ name_injective _).trans hcount, hpos⟩

/-- How often names occur, by ascending names, can be said in one way. -/
theorem Stats.Counts.unique {hits other : List (String × Nat)} {names : List String}
    (hcounts : Counts hits names) (hother : Counts other names) : hits = other := by
  have hirrefl : Std.Irrefl fun left right : String × Nat => left.1 < right.1 :=
    ⟨fun hit => String.lt_irrefl hit.1⟩
  apply hcounts.ascending.eq_of_mem_iff hother.ascending
  rintro ⟨name, count⟩
  rw [hcounts.mem_iff, hother.mem_iff]

/-- A report as it is counted in place, with the names of the rules. -/
def Report.stats (report : Report) : Stats where
  passes := report.passes
  rewrites := report.rewrites
  hits := report.hitList.map fun (rule, count) => (rule.name, count)
  before := report.before
  after := report.after

theorem Report.ascending_hitList (report : Report) :
    report.hitList.Pairwise fun left right => left.1.name < right.1.name := by
  have hsorted : (Rule.all.mergeSort fun left right => left.name ≤ right.name).Pairwise
      fun left right => decide (left.name ≤ right.name) = true := by
    apply List.pairwise_mergeSort
    · simpa using fun _ _ _ => String.le_trans
    · simpa using fun _ _ => String.le_total _ _
  have hle : report.hitList.Pairwise fun left right => left.1.name ≤ right.1.name := by
    apply List.Pairwise.filter
    rw [List.pairwise_map]
    exact hsorted.imp of_decide_eq_true
  have hne := List.pairwise_map.mp report.nodup_hitList
  refine (hle.and hne).imp ?_
  rintro left right ⟨hle, hne⟩
  by_contra hnot
  exact hne (Rule.name_injective (String.le_antisymm hle (String.not_lt.mp hnot)))

theorem Run.counts_report (run : Run) (before : Nat) :
    Stats.Counts (run.report before).stats.hits ((run.log.map Prod.snd).map Rule.name) := by
  have hrules : run.log.map Prod.snd = run.steps.map Step.rule := by
    rw [log, List.map_map]
    rfl
  constructor
  · exact List.pairwise_map.mpr (run.report before).ascending_hitList
  · intro name count
    rw [Rule.count_names_iff, hrules]
    simp only [Report.stats, List.mem_map, Prod.exists, Prod.mk.injEq, Report.mem_hitList_iff,
      hits_report]
    grind

/-- What is counted along the rewrites of a run is its report. -/
theorem Run.stats_report (run : Run) (before : Nat) :
    { (Stats.along { before := before } run.log).pass with after := run.body.length } =
      (run.report before).stats := by
  have hlength : run.log.length = run.steps.length := List.length_map _
  ext1
  · rw [Stats.pass, Stats.passes_along, hlength]
    exact congrArg (· + 1) (Nat.zero_add _)
  · rw [Stats.pass, Stats.rewrites_along, hlength]
    exact Nat.zero_add _
  · exact (Stats.counts_along before run.log).unique (run.counts_report before)
  · rw [Stats.pass, Stats.before_along]
    rfl
  · rfl

namespace InPlace

variable {arena : Arena} {body : Body}

/-- An optimizer makes the same rewrites in place as on the body, ends with the same report
or the same fault, and leaves an arena of the body that is left. -/
theorem refines_drive (hinStep : arena.InStep body) (overflow : Overflow)
    (optimizer : Optimizer) :
    ∃ progress, drive overflow optimizer arena =
        some ((optimizer.optimize body).1.map Report.stats, progress) ∧
      progress.arena.InStep (optimizer.optimize body).2 ∧
      progress.log = (optimizer.run body).log := by
  have hlength : arena.length = body.length := hinStep.represents.holds.length
  have hlimit := hinStep.represents.limit optimizer.settings
  have hstart : (Progress.mk arena { before := arena.length } []).arena.InStep body := hinStep
  obtain ⟨final, hrun, hfinal, hlog⟩ := refines_rewriteAll overflow optimizer hstart
    (Nat.zero_add (optimizer.settings.limit arena.length arena.labels.size))
  rw [hlimit, ← Optimizer.run] at hfinal hlog
  refine ⟨final, drive_eq_some_iff.mpr ⟨_, hrun, ?_⟩, hfinal, hlog⟩
  rw [hlimit, ← Optimizer.run] at hrun ⊢
  rw [Optimizer.optimize, Run.outcome]
  cases hfault : (optimizer.run body).fault? with
  | some fault =>
      rw [Run.ended, hfault]
      rfl
  | none =>
      have hended : (optimizer.run body).ended = .ok () := by rw [Run.ended, hfault]
      obtain ⟨log, last, -, -, hrest⟩ := trail_of_rewriteAll hinStep.represents.intact hrun
      obtain ⟨rfl, -⟩ := hrest hended
      replace hlog : log = (optimizer.run body).log := hlog
      have hlast : last.length = (optimizer.run body).body.length :=
        hfinal.represents.holds.length
      have hstats := (optimizer.run body).stats_report body.length
      rw [← hlog, ← hlength, ← hlast] at hstats
      rw [hended, ← hlength]
      exact congrArg Except.ok hstats

/-- An optimizer comes to an end, by itself or by its limit. -/
theorem exists_drive (hinStep : arena.InStep body) (overflow : Overflow) (optimizer : Optimizer) :
    ∃ result progress, drive overflow optimizer arena = some (result, progress) ∧
      (∃ left, progress.arena.InStep left) ∧
      ∀ fault, result = .error fault →
        fault = .rewriteLimitExceeded
          (optimizer.settings.limit arena.length arena.labels.size) := by
  obtain ⟨progress, hdrive, hleft, -⟩ := refines_drive hinStep overflow optimizer
  refine ⟨_, progress, hdrive, ⟨_, hleft⟩, fun fault hfault => ?_⟩
  cases houtcome : (optimizer.optimize body).1 with
  | ok report =>
      rw [houtcome] at hfault
      cases hfault
  | error other =>
      rw [houtcome] at hfault
      cases hfault
      rw [hinStep.represents.limit]
      exact Optimizer.fault_of_optimize hinStep.synced houtcome

end InPlace

end Peephole
