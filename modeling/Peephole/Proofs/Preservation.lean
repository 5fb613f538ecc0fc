import Peephole.Proofs.Bookkeeping.Runs
import Peephole.Proofs.Rewriting.Meaning

/-!
# Optimized code does what the code did

An optimizer may use any rules under any settings, and may have been stopped by
its limit: on every operand stack and all variables, the code it leaves ends as
the original code ends, divides by zero where that does, and goes on forever
where that does.
-/

namespace Peephole

open Machine

/-- What an optimizer leaves of a body in step refines the body. -/
theorem Optimizer.refines_optimize (optimizer : Optimizer) {body : Body} (hsynced : body.Synced) :
    Refines body.instructions (optimizer.optimize body).2.instructions :=
  (optimizer.sound_run hsynced).rewrites.refines

section

variable {source target : List Instruction} {stack locals : List Int32}

theorem run_of_refines (hrefines : Refines source target) {fuel : Nat} {final : Final}
    (hrun : Machine.run source stack locals fuel = .ok final) :
    ∃ fuel' final', Machine.run target stack locals fuel' = .ok final' ∧
      final'.stack = final.stack ∧ final'.locals = final.locals := by
  obtain ⟨trace, last, hhalts, -, rfl⟩ := resume_eq_ok_iff.mp hrun
  obtain ⟨trace', last', hhalts', hstack, hlocals, -⟩ := hrefines.halts hhalts
  exact ⟨trace'.length, _, resume_eq_ok_iff.mpr ⟨trace', last', hhalts', Nat.le_refl _, rfl⟩,
    hstack, hlocals⟩

theorem run_divides_of_refines (hrefines : Refines source target) {fuel : Nat}
    (hrun : Machine.run source stack locals fuel = .error .divisionByZero) :
    ∃ fuel', Machine.run target stack locals fuel' = .error .divisionByZero := by
  have hfuel : ∀ count, Trap.divisionByZero ≠ .outOfFuel count := by simp
  obtain ⟨trace, htraps, -⟩ := (resume_eq_error_iff hfuel).mp hrun
  obtain ⟨trace', htraps', -⟩ := hrefines.divides htraps
  exact ⟨trace'.length + 1, (resume_eq_error_iff hfuel).mpr ⟨trace', htraps', Nat.lt_succ_self _⟩⟩

end

/-- Whatever an optimizer leaves of a body, with or without an error, ends with the
same stack and variables as the code it was put together from, and divides by
zero if that does. -/
theorem optimize_preserves_runs {names : List (LabelId × String)} {code : List Instruction}
    {body : Body} (hassemble : Body.assemble names code = .ok body) (optimizer : Optimizer)
    (stack locals : List Int32) :
    (∀ (fuel : Nat) (final : Final), Machine.run code stack locals fuel = .ok final →
      ∃ fuel' final',
        Machine.run (optimizer.optimize body).2.instructions stack locals fuel' = .ok final' ∧
          final'.stack = final.stack ∧ final'.locals = final.locals) ∧
      ∀ fuel : Nat, Machine.run code stack locals fuel = .error .divisionByZero →
        ∃ fuel', Machine.run (optimizer.optimize body).2.instructions stack locals fuel' =
          .error .divisionByZero := by
  obtain ⟨hsynced, -, rfl⟩ := Body.synced_of_assemble hassemble
  have hrefines := optimizer.refines_optimize hsynced
  exact ⟨fun fuel final => run_of_refines hrefines, fun fuel => run_divides_of_refines hrefines⟩

/-- A constant that is tested elsewhere, a product, and a division. -/
def doubledQuotient : List Instruction :=
  [.const 0, .goto 1, .label 1, .branch (.test .nonZero) 2, .load .int 0, .const 2, .binary .mul,
    .load .int 1, .binary .div, .label 2]

theorem optimize_preserves_runs_at_doubledQuotient :
    ∃ body, Body.assemble [] doubledQuotient = .ok body ∧
      Machine.run doubledQuotient [] [21, 3] 20 = .ok ⟨[14], [21, 3], 10⟩ ∧
      (∃ fuel final, Machine.run ((Optimizer.ofSettings {}).optimize body).2.instructions
        [] [21, 3] fuel = .ok final ∧ final.stack = [14] ∧ final.locals = [21, 3]) ∧
      Machine.run doubledQuotient [] [21, 0] 20 = .error .divisionByZero ∧
      ∃ fuel, Machine.run ((Optimizer.ofSettings {}).optimize body).2.instructions
        [] [21, 0] fuel = .error .divisionByZero := by
  have hassemble : Body.assemble [] doubledQuotient = .ok _ := rfl
  refine ⟨_, hassemble, rfl, ?_, rfl, ?_⟩
  · exact (optimize_preserves_runs hassemble (.ofSettings {}) [] [21, 3]).1 20 _ rfl
  · exact (optimize_preserves_runs hassemble (.ofSettings {}) [] [21, 0]).2 20 rfl

/-- A run that goes on forever still does so after the code was optimized, whether
the optimizer came to rest or was stopped by its limit. -/
theorem optimize_preserves_divergence {names : List (LabelId × String)} {code : List Instruction}
    {body : Body} (hassemble : Body.assemble names code = .ok body) (optimizer : Optimizer)
    (stack locals : List Int32)
    (hdiverges : ∀ fuel, ∃ count,
      Machine.run code stack locals fuel = .error (.outOfFuel count)) (fuel : Nat) :
    Machine.run (optimizer.optimize body).2.instructions stack locals fuel =
      .error (.outOfFuel fuel) := by
  obtain ⟨hsynced, -, rfl⟩ := Body.synced_of_assemble hassemble
  have hendless := forall_outOfFuel_iff_endless.mp hdiverges
  have hafter := (optimizer.refines_optimize hsynced).endless hendless
  rw [Machine.run, resume_of_endless hafter, Nat.zero_add]

/-- A loop that goes on while a constant is zero. -/
def spinning : List Instruction :=
  [.label 1, .const 0, .goto 2, .nop, .label 2, .branch (.test .isZero) 1]

theorem endless_spinning (locals : List Int32) : Endless spinning ⟨0, [], locals⟩ := by
  have hpath : Path spinning ⟨0, [], locals⟩
      [.label 1, .const 0, .goto 2, .label 2, .branch (.test .isZero) 1] ⟨0, [], locals⟩ :=
    .cons rfl rfl (.cons rfl rfl (.cons rfl rfl (.cons rfl rfl (.single rfl rfl))))
  exact hpath.endless (List.cons_ne_nil _ _)

/-- The constant and the test go; the loop stays. -/
theorem optimize_preserves_divergence_at_spinning :
    ∃ body, Body.assemble [] spinning = .ok body ∧
      (∀ fuel, Machine.run spinning [] [] fuel = .error (.outOfFuel fuel)) ∧
      ((Optimizer.ofSettings {}).optimize body).2.instructions = [.label 1, .goto 1] ∧
      ∀ fuel, Machine.run ((Optimizer.ofSettings {}).optimize body).2.instructions [] [] fuel =
        .error (.outOfFuel fuel) := by
  have hassemble : Body.assemble [] spinning = .ok _ := rfl
  have hspins : ∀ fuel, Machine.run spinning [] [] fuel = .error (.outOfFuel fuel) := by
    intro fuel
    rw [Machine.run, resume_of_endless (endless_spinning []), Nat.zero_add]
  refine ⟨_, hassemble, hspins, by rfl, ?_⟩
  exact optimize_preserves_divergence hassemble (.ofSettings {}) [] [] fun fuel =>
    ⟨fuel, hspins fuel⟩

end Peephole
