import Mathlib.Data.List.Perm.Subperm
import Peephole.Proofs.Bookkeeping.Runs
import Peephole.Proofs.Rewriting.Potential

/-!
# The limit on rewrites

Unless another limit is set, a body may be rewritten as often as its length and
the number of its labels permit.  No run of the optimizer ever reaches that
limit, although rewrites put in new labels that it does not allow for.
-/

namespace Peephole

/-- A table in step with a body has one entry for each label of the body. -/
theorem Body.Synced.size_labels {body : Body} (hsynced : body.Synced) :
    body.labels.size = (Code.definitions body.instructions).length := by
  obtain ⟨names, hrecords⟩ := hsynced.recorded
  have hids : (body.labels.entries.map LabelEntry.id).Nodup :=
    List.pairwise_map.mpr (body.labels.ascending.imp UInt32.ne_of_lt)
  have hdefinitions : (Line.definitions body.lines).Nodup := hsynced.nodup_definitions
  have hforward : body.labels.entries.map LabelEntry.id ⊆ Line.definitions body.lines := by
    intro id hid
    obtain ⟨entry, hentry, rfl⟩ := List.mem_map.mp hid
    refine Classical.byContradiction fun hnot => ?_
    have hget := LabelTable.get?_eq_some_of_mem hentry
    rw [hrecords.get?_eq_none hnot] at hget
    cases hget
  have hbackward : Line.definitions body.lines ⊆ body.labels.entries.map LabelEntry.id := by
    intro id hid
    obtain ⟨position, hsite, -⟩ := hrecords.exists_entry hid
    have hget := hrecords id
    rw [hsite] at hget
    exact List.mem_map.mpr ⟨_, List.mem_of_find?_eq_some hget, rfl⟩
  have hlength := Nat.le_antisymm (hids.subperm hforward).length_le
    (hdefinitions.subperm hbackward).length_le
  rw [List.length_map, Line.definitions_eq] at hlength
  exact hlength

/-- Without a limit of its own, an optimizer brings every body that was put together
from an instruction list to rest, within the limit that the length and the number
of labels of the list give. -/
theorem limit_never_exceeded {names : List (LabelId × String)} {code : List Instruction}
    {body : Body} (hassemble : Body.assemble names code = .ok body) (optimizer : Optimizer)
    (hdefault : optimizer.settings.maxRewrites = none) :
    optimizer.settings.rewriteLimit body =
        max 1024 (8 * (code.length + 1) * ((Code.definitions code).length + 2)) ∧
      ∃ report, (optimizer.optimize body).1 = .ok report ∧
        report.rewrites ≤ optimizer.settings.rewriteLimit body := by
  obtain ⟨hsynced, -, rfl⟩ := Body.synced_of_assemble hassemble
  have hlimit : optimizer.settings.rewriteLimit body =
      max 1024 (8 * (body.instructions.length + 1) *
        ((Code.definitions body.instructions).length + 2)) := by
    rw [Settings.rewriteLimit, Settings.limit, hdefault, Option.getD_none, hsynced.size_labels,
      Body.length, Body.instructions, Line.instructions, List.length_map]
  have hsound := optimizer.sound_run hsynced
  have hcount := hsound.rewrites.count_le (Code.anchors_le_definitions .plain body.instructions)
  have hpotential := Code.potential_le body.instructions
  refine ⟨hlimit, (optimizer.run body).report body.length, ?_⟩
  rcases hsound.stops with ⟨hnone, hsteps⟩ | ⟨-, hsteps⟩
  · exact ⟨by rw [Optimizer.optimize, Run.outcome, hnone], hsteps⟩
  · omega

/-- Three jumps that go round in a circle. -/
def roundabout : List Instruction :=
  [.label 0, .goto 2, .label 1, .goto 0, .label 2, .goto 1]

theorem limit_never_exceeded_at_roundabout :
    ∃ body report, Body.assemble [] roundabout = .ok body ∧
      (Optimizer.ofSettings {}).settings.maxRewrites = none ∧
      ((Optimizer.ofSettings {}).optimize body).1 = .ok report ∧ report.rewrites ≤ 1024 := by
  have hassemble : Body.assemble [] roundabout = .ok _ := rfl
  obtain ⟨hlimit, report, hreport, hrewrites⟩ :=
    limit_never_exceeded hassemble (.ofSettings {}) rfl
  rw [hlimit] at hrewrites
  exact ⟨_, report, hassemble, rfl, hreport, hrewrites⟩

end Peephole
