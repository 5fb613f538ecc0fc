import Peephole.Proofs.Budget
import Peephole.Proofs.Strategy

/-!
# Interrupted runs

A limit on the number of rewrites cuts a run short and changes nothing else about
it.  A run that was cut short has left the body as the whole run has it at that
point, in step with its table, and can be taken up there: nothing but the body
goes from one rewrite to the next.
-/

namespace Peephole

namespace Optimizer

variable {body : Body}

/-- Without a limit of its own, an optimizer brings every body in step to rest. -/
theorem fault?_run_eq_none (optimizer : Optimizer) (hsynced : body.Synced)
    (hdefault : optimizer.settings.maxRewrites = none) :
    (optimizer.run body).fault? = none := by
  have hsound := optimizer.sound_run hsynced
  have hcount := hsound.rewrites.count_le (Code.anchors_le_definitions .plain body.instructions)
  have hpotential := Code.potential_le body.instructions
  have hlimit : 8 * (body.instructions.length + 1) *
      ((Code.definitions body.instructions).length + 2) ≤
        optimizer.settings.rewriteLimit body := by
    rw [Settings.rewriteLimit, Settings.limit, hdefault, Option.getD_none, hsynced.size_labels,
      Body.length, Body.instructions, Line.instructions, List.length_map]
    exact Nat.le_max_right _ _
  rcases hsound.stops with ⟨hnone, -⟩ | ⟨-, hsteps⟩
  · exact hnone
  · omega

/-- What the whole run of an optimizer without a limit of its own is. -/
theorem run_eq_of_trail (optimizer : Optimizer) (hsynced : body.Synced)
    (hdefault : optimizer.settings.maxRewrites = none) {steps : List Step} {last : Body}
    (htrail : optimizer.Trail body steps last) (hsettled : optimizer.search last = .settled) :
    optimizer.run body = ⟨steps, last, none⟩ := by
  have hfault := optimizer.fault?_run_eq_none hsynced hdefault
  obtain ⟨hsteps, hbody⟩ := (optimizer.trail_run hsynced).unique (settled_of_runWithin hfault)
    htrail hsettled
  rw [← hsteps, ← hbody, ← hfault]

variable {optimizer : Optimizer} {limit : Nat}

/-- A limit that is kept to makes no difference. -/
theorem runWithin_eq_run (hsynced : body.Synced)
    (hdefault : optimizer.settings.maxRewrites = none)
    (hwithin : (optimizer.run body).steps.length ≤ limit) :
    optimizer.runWithin limit limit body = optimizer.run body := by
  have hfault := optimizer.fault?_run_eq_none hsynced hdefault
  rw [runWithin_of_trail hsynced (optimizer.trail_run hsynced) (settled_of_runWithin hfault)
    hwithin, ← hfault]

/-- A run that is stopped by a limit is the first part of the whole run, and the rest of it
is the run from there. -/
theorem exists_runWithin_of_lt (hsynced : body.Synced)
    (hdefault : optimizer.settings.maxRewrites = none)
    (hbeyond : limit < (optimizer.run body).steps.length) :
    ∃ middle, middle.Synced ∧ middle = (optimizer.run body).bodyAfter body (limit + 1) ∧
      optimizer.runWithin limit limit body =
        ⟨(optimizer.run body).steps.take (limit + 1), middle,
          some (.rewriteLimitExceeded limit)⟩ ∧
      optimizer.run middle =
        ⟨(optimizer.run body).steps.drop (limit + 1), (optimizer.run body).body, none⟩ := by
  have hfault := optimizer.fault?_run_eq_none hsynced hdefault
  have htrail := optimizer.trail_run hsynced
  rw [← List.take_append_drop (limit + 1) (optimizer.run body).steps] at htrail
  obtain ⟨middle, hfirst, hrest⟩ := htrail.split
  have hmiddle := hfirst.synced hsynced
  refine ⟨middle, hmiddle, hfirst.foldl_body.symm, ?_, ?_⟩
  · exact runWithin_of_trail_beyond hsynced hfirst (List.length_take_of_le hbeyond) limit
  · exact optimizer.run_eq_of_trail hmiddle hdefault hrest (settled_of_runWithin hfault)

end Optimizer

/-- A limit on the number of rewrites is exact.  An optimizer that keeps to it does what
it would do without one; an optimizer that does not is stopped by the first rewrite
beyond it, and leaves the body as it is at that point without a limit.  Optimized
from there without a limit, it comes to the same rest. -/
theorem optimize_limited (settings : Settings) (rules : List Rule) (limit : Nat) {body : Body}
    (haudit : body.audit = .ok ()) :
    let unlimited : Optimizer := ⟨{ settings with maxRewrites := none }, rules⟩
    let limited : Optimizer := ⟨{ settings with maxRewrites := some limit }, rules⟩
    ∃ report, (unlimited.optimize body).1 = .ok report ∧
      report.rewrites = (unlimited.run body).steps.length ∧
      (report.rewrites ≤ limit → limited.optimize body = unlimited.optimize body) ∧
      (limit < report.rewrites →
        (limited.optimize body).1 = .error (.rewriteLimitExceeded limit) ∧
          (limited.optimize body).2 = (unlimited.run body).bodyAfter body (limit + 1) ∧
          (limited.optimize body).2.audit = .ok () ∧
          ∃ rest, unlimited.optimize (limited.optimize body).2 =
            (.ok rest, (unlimited.optimize body).2) ∧
            limit + 1 + rest.rewrites = report.rewrites) := by
  intro unlimited limited
  have hsynced := Body.audit_eq_ok_iff.mp haudit
  have hlimited : limited.run body = unlimited.runWithin limit limit body :=
    Optimizer.runWithin_eq_of_rules_eq (show limited.rules = unlimited.rules from rfl) limit limit
      hsynced
  refine ⟨(unlimited.run body).report body.length, ?_, rfl, fun hwithin => ?_, fun hbeyond => ?_⟩
  · rw [Optimizer.optimize, Run.outcome, unlimited.fault?_run_eq_none hsynced rfl]
  · rw [Optimizer.optimize, hlimited, Optimizer.runWithin_eq_run hsynced rfl hwithin]
    rfl
  · obtain ⟨middle, hmiddle, hbody, hrun, hrest⟩ :=
      Optimizer.exists_runWithin_of_lt hsynced rfl hbeyond
    have hoptimize : limited.optimize body = (.error (.rewriteLimitExceeded limit), middle) := by
      rw [Optimizer.optimize, hlimited, hrun]
      rfl
    rw [hoptimize]
    refine ⟨rfl, hbody, Body.audit_eq_ok_iff.mpr hmiddle, ?_⟩
    rw [Optimizer.optimize, hrest]
    refine ⟨_, rfl, ?_⟩
    have hsteps : limit + 1 ≤ (unlimited.run body).steps.length := hbeyond
    simp only [Run.report, List.length_drop]
    omega

/-- Three rewrites are in the limit of three.  Under a limit of one the second is one too
many; the third is then made by the optimizer that takes over. -/
theorem optimize_limited_at_vanishingFactor :
    ∃ body report rest, Body.assemble [] vanishingFactor = .ok body ∧
      (Optimizer.optimize ⟨{ maxRewrites := some 3 }, Rule.all⟩ body =
        Optimizer.optimize ⟨{}, Rule.all⟩ body) ∧
      (Optimizer.optimize ⟨{}, Rule.all⟩ body).1 = .ok report ∧ report.rewrites = 3 ∧
      (Optimizer.optimize ⟨{ maxRewrites := some 1 }, Rule.all⟩ body).1 =
        .error (.rewriteLimitExceeded 1) ∧
      Optimizer.optimize ⟨{}, Rule.all⟩
          (Optimizer.optimize ⟨{ maxRewrites := some 1 }, Rule.all⟩ body).2 =
        (.ok rest, (Optimizer.optimize ⟨{}, Rule.all⟩ body).2) ∧
      1 + 1 + rest.rewrites = 3 := by
  have hassemble : Body.assemble [] vanishingFactor = .ok _ := rfl
  have haudit := Body.audit_eq_ok_iff.mpr (Body.synced_of_assemble hassemble).1
  obtain ⟨report, hreport, hrewrites, hwithin, -⟩ := optimize_limited {} Rule.all 3 haudit
  obtain ⟨report', hreport', hrewrites', -, hbeyond⟩ := optimize_limited {} Rule.all 1 haudit
  have hthree : report.rewrites = 3 := by
    rw [hrewrites]
    decide +kernel
  have hthree' : report'.rewrites = 3 := by
    rw [hrewrites']
    decide +kernel
  obtain ⟨hstopped, -, -, rest, hrest, hcount⟩ := hbeyond (by omega)
  exact ⟨_, report, rest, hassemble, hwithin (by omega), hreport, hthree, hstopped, hrest,
    hcount.trans hthree'⟩

end Peephole
