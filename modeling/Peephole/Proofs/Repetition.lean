import Peephole.Proofs.Bookkeeping.Runs
import Peephole.Proofs.Exhaustion
import Peephole.Proofs.Storage

/-!
# Optimizing a program again

Between two calls a program is stored, and the second call works on bodies that
were put together anew.  They have the code and the names that the first call
left, and so are at rest, with one exception: a table counted anew does not know
which label numbers were used and given up.
-/

namespace Peephole

/-! ## One method after the other -/

/-- Optimizes one method alone. -/
def Method.optimize (optimizer : Optimizer) (method : Method) :
    Except Fault (Method × MethodReport) := do
  let body ← method.toBody
  let (report, optimized) ← Program.optimizeBody optimizer body
  return (method.store optimized, ⟨method.name, report⟩)

section

variable {optimizer : Optimizer}

theorem Program.optimizeBody_eq_ok_iff {body optimized : Body} {report : Report} :
    optimizeBody optimizer body = .ok (report, optimized) ↔
      optimizer.optimize body = (.ok report, optimized) := by
  rw [optimizeBody]
  rcases optimizer.optimize body with ⟨_ | _, _⟩ <;> simp

theorem Method.optimize_eq_ok_iff {method rewritten : Method} {report : MethodReport} :
    method.optimize optimizer = .ok (rewritten, report) ↔
      ∃ body optimized, method.toBody = .ok body ∧
        optimizer.optimize body = (.ok report.report, optimized) ∧
        rewritten = method.store optimized ∧ report.name = method.name := by
  simp only [optimize, bind_eq_ok_iff, pure_eq_ok, Prod.exists, Program.optimizeBody_eq_ok_iff]
  constructor
  · rintro ⟨body, hbody, _, optimized, hoptimize, ⟨⟩⟩
    exact ⟨body, optimized, hbody, hoptimize, rfl, rfl⟩
  · rintro ⟨body, optimized, hbody, hoptimize, rfl, hname⟩
    exact ⟨body, hbody, report.report, optimized, hoptimize, by rw [← hname]⟩

/-- A program is optimized one method after the other, if all can be. -/
theorem Program.optimize_cons_eq_ok_iff {method : Method} {methods : List Method}
    {rewritten : Program} {reports : List MethodReport} :
    optimize optimizer ⟨method :: methods⟩ = .ok (rewritten, reports) ↔
      ∃ first report rest others, method.optimize optimizer = .ok (first, report) ∧
        optimize optimizer ⟨methods⟩ = .ok (⟨rest⟩, others) ∧
        rewritten = ⟨first :: rest⟩ ∧ reports = report :: others := by
  simp only [optimize, Method.optimize, List.mapM_cons, bind_eq_ok_iff, pure_eq_ok]
  constructor
  · rintro ⟨_, ⟨body, hbody, bodies, hbodies, ⟨⟩⟩, results, hresults, ⟨⟩⟩
    simp only [List.mapM_cons, bind_eq_ok_iff, pure_eq_ok] at hresults
    obtain ⟨result, hresult, results, hresults, ⟨⟩⟩ := hresults
    exact ⟨_, _, _, _, ⟨body, hbody, result, hresult, rfl⟩,
      ⟨bodies, hbodies, results, hresults, rfl⟩, rfl, rfl⟩
  · rintro ⟨first, report, rest, others, ⟨body, hbody, result, hresult, ⟨⟩⟩,
      ⟨bodies, hbodies, results, hresults, ⟨⟩⟩, rfl, rfl⟩
    refine ⟨body :: bodies, ⟨body, hbody, bodies, hbodies, rfl⟩, result :: results, ?_, rfl⟩
    simp only [List.mapM_cons, bind_eq_ok_iff, pure_eq_ok]
    exact ⟨result, hresult, results, hresults, rfl⟩

end

/-! ## Programs at rest -/

/-- A method that an optimizer leaves as it is. -/
def Method.AtRest (optimizer : Optimizer) (method : Method) : Prop :=
  ∃ report, method.optimize optimizer = .ok (method, report) ∧ report.report.rewrites = 0

/-- A program that an optimizer leaves as it is, without a rewrite in any method. -/
def Program.AtRest (optimizer : Optimizer) (program : Program) : Prop :=
  ∃ reports, Program.optimize optimizer program = .ok (program, reports) ∧
    ∀ report ∈ reports, report.report.rewrites = 0

/-- A body whose table has run out of label numbers, though the last one is not in
use, and whose code waits for a new label. -/
structure Body.Stranded (body : Body) : Prop where
  exhausted : body.labels.fresh? = none
  unused : ∀ id ∈ Code.definitions body.instructions, id.toNat + 1 < UInt32.size
  awaits : Code.AwaitsLabel body.instructions

/-- A method that an optimizer leaves with code that waits for a label, for the only
reason that the last label number was in use before. -/
def Method.LeftWaiting (optimizer : Optimizer) (method : Method) : Prop :=
  .simplifyConstantBranchThroughGoto ∈ optimizer.rules ∧
    ∃ body, method.toBody = .ok body ∧ (optimizer.optimize body).2.Stranded

section

variable {optimizer : Optimizer}

theorem Program.atRest_iff {program : Program} :
    program.AtRest optimizer ↔ ∀ method ∈ program.methods, method.AtRest optimizer := by
  obtain ⟨methods⟩ := program
  induction methods with
  | nil => simp [AtRest, optimize]
  | cons method methods ih =>
      rw [List.forall_mem_cons, ← ih]
      simp only [AtRest, Method.AtRest, optimize_cons_eq_ok_iff]
      constructor
      · rintro ⟨_, ⟨first, report, rest, others, hfirst, hrest, ⟨⟩, rfl⟩, hrewrites⟩
        rw [List.forall_mem_cons] at hrewrites
        exact ⟨⟨report, hfirst, hrewrites.1⟩, others, hrest, hrewrites.2⟩
      · rintro ⟨⟨report, hfirst, hreport⟩, others, hrest, hothers⟩
        exact ⟨_, ⟨_, _, _, _, hfirst, hrest, rfl, rfl⟩,
          List.forall_mem_cons.mpr ⟨hreport, hothers⟩⟩

/-- A method that stores its own body is at rest exactly if the body is. -/
theorem Method.atRest_iff_settled {method : Method} {body : Body}
    (hbody : method.toBody = .ok body) (hstore : method.store body = method) :
    method.AtRest optimizer ↔ optimizer.search body = .settled := by
  constructor
  · rintro ⟨report, hoptimize, hrewrites⟩
    obtain ⟨_, optimized, hbody', hoptimize, -⟩ := optimize_eq_ok_iff.mp hoptimize
    cases hbody.symm.trans hbody'
    exact Optimizer.settled_of_rewrites_eq_zero hoptimize hrewrites
  · intro hsettled
    refine ⟨⟨method.name, _⟩, optimize_eq_ok_iff.mpr ⟨body, body, hbody,
      Optimizer.optimize_of_settled hsettled, hstore.symm, rfl⟩, rfl⟩

/-- What an optimizer leaves of a method is at rest when it is stored and put together
again, unless it was left waiting: only the table knows of the numbers given up. -/
theorem Method.atRest_iff_of_optimize {method rewritten : Method} {report : MethodReport}
    (hoptimize : method.optimize optimizer = .ok (rewritten, report)) :
    rewritten.AtRest optimizer ↔ ¬ method.LeftWaiting optimizer := by
  obtain ⟨body, optimized, hbody, hoptimized, rfl, -⟩ := optimize_eq_ok_iff.mp hoptimize
  have hsynced : optimized.Synced := by
    obtain ⟨hsynced, -⟩ := Body.synced_of_assemble (assemble_of_toBody hbody)
    have hlast : (optimizer.optimize body).2.Synced := (optimizer.sound_run hsynced).synced
    rwa [hoptimized] at hlast
  have hsettled := Optimizer.settled_of_optimize hoptimized
  -- The second call works on the rebuilt body, which only differs in its table and positions.
  obtain ⟨rebuilt, hrebuilt, hrebuiltSynced, hinstructions, hnames⟩ :=
    exists_toBody_store method hsynced
  have hfresh := Body.fresh?_ne_none_iff_of_assemble (assemble_of_toBody hrebuilt)
  rw [atRest_iff_settled hrebuilt (store_store hinstructions hnames),
    Optimizer.search_eq_settled_iff_of_instructions hsynced hrebuiltSynced hinstructions hsettled,
    hinstructions]
  constructor
  · rintro hnone ⟨hrule, other, hother, hstranded⟩
    cases hbody.symm.trans hother
    rw [hoptimized] at hstranded
    exact hfresh.mpr hstranded.unused (hnone hrule hstranded.awaits)
  · intro hwaiting hrule hawaits
    refine Decidable.byContradiction fun hsome => hwaiting ⟨hrule, body, hbody, ?_⟩
    rw [hoptimized]
    exact ⟨((Optimizer.search_eq_settled_iff_exhaust hsynced).mp hsettled).2 hrule hawaits,
      hfresh.mp hsome, hawaits⟩

end

/-- Optimizing a program again changes nothing and makes no rewrite, unless the first
call left a method waiting for a label: it had used up the label numbers, the last
one is not in use any more, and a rewrite needs a new label. -/
theorem optimize_again_iff {optimizer : Optimizer} {program rewritten : Program}
    {reports : List MethodReport}
    (hoptimize : Program.optimize optimizer program = .ok (rewritten, reports)) :
    (∃ again, Program.optimize optimizer rewritten = .ok (rewritten, again) ∧
        ∀ report ∈ again, report.report.rewrites = 0) ↔
      ∀ method ∈ program.methods, ¬ method.LeftWaiting optimizer := by
  change rewritten.AtRest optimizer ↔ _
  rw [Program.atRest_iff]
  obtain ⟨methods⟩ := program
  induction methods generalizing rewritten reports with
  | nil =>
      cases hoptimize
      simp
  | cons method methods ih =>
      obtain ⟨first, report, rest, others, hfirst, hrest, rfl, rfl⟩ :=
        Program.optimize_cons_eq_ok_iff.mp hoptimize
      rw [List.forall_mem_cons, List.forall_mem_cons, Method.atRest_iff_of_optimize hfirst,
        ih hrest]

/-- A method with a constant and a jump to a test that the constant fails, and with a
label that has the last number and no jumps. -/
def abandoned : Program :=
  ⟨[⟨"A.f", .method, [.const 1, .goto 1, .label 2, .load .int 0, .label 1,
    .branch (.test .isZero) 2, .load .int 1, .label 4294967295], []⟩]⟩

/-- The method without that label. -/
def waiting : Program :=
  ⟨[⟨"A.f", .method, [.const 1, .goto 1, .label 2, .load .int 0, .label 1,
    .branch (.test .isZero) 2, .load .int 1], []⟩]⟩

/-- The first call takes the last label out and then has no number for another one.
The second call does not know of it. -/
theorem optimize_again_at_abandoned :
    (∃ reports, Program.optimize (.ofSettings {}) abandoned = .ok (waiting, reports)) ∧
      ¬ ∃ again, Program.optimize (.ofSettings {}) waiting = .ok (waiting, again) ∧
        ∀ report ∈ again, report.report.rewrites = 0 := by
  constructor
  · exact ⟨_, rfl⟩
  · rintro ⟨again, hagain, -⟩
    have hsecond : (Program.optimize (.ofSettings {}) waiting).toOption.map
        (fun result => result.1.methods.map Method.code) =
          some [[.goto 3, .label 2, .load .int 0, .branch (.test .isZero) 2, .label 3,
            .load .int 1]] := by decide +kernel
    rw [hagain] at hsecond
    cases hsecond

/-- The same method with a jump to the last label, and something to take out. -/
def retained : Program :=
  ⟨[⟨"A.f", .method, [.nop, .const 1, .goto 1, .label 2, .load .int 0, .label 1,
    .branch (.test .isZero) 2, .load .int 1, .branch (.test .isZero) 4294967295, .load .int 2,
    .label 4294967295], []⟩]⟩

/-- Here the second call finds no number for a new label either. -/
theorem optimize_again_at_retained :
    ∃ rewritten reports,
      Program.optimize (.ofSettings {}) retained = .ok (rewritten, reports) ∧
      rewritten.methods.map Method.code ≠ retained.methods.map Method.code ∧
      ∃ again, Program.optimize (.ofSettings {}) rewritten = .ok (rewritten, again) ∧
        ∀ report ∈ again, report.report.rewrites = 0 := by
  have hoptimize : Program.optimize (.ofSettings {}) retained = .ok (_, _) := rfl
  refine ⟨_, _, hoptimize, by decide, (optimize_again_iff hoptimize).mpr ?_⟩
  intro method hmethod
  cases List.mem_singleton.mp hmethod
  rintro ⟨-, body, hbody, hstranded⟩
  cases hbody
  exact absurd (hstranded.unused 4294967295 (by decide)) (by decide)

end Peephole
