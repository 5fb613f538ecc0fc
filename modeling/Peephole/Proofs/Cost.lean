import Peephole.Proofs.Preservation

/-!
# The cost of a run

A run costs as many instructions as it executes, labels not counted.  Each pass
through a loop counts anew, so that a body which is no longer than another may
still cost more.  What an optimizer leaves of a body never does: however often
control goes through a rewritten part, and wherever it comes in or leaves it,
the run costs no more than that of the original code.
-/

namespace Peephole

open Code

namespace Machine

/-- The instructions that a run executes, the one that traps included. -/
def executed (code : List Instruction) : Nat → State → List Instruction
  | 0, _ => []
  | fuel + 1, state =>
      match code[state.next]? with
      | none => []
      | some instruction =>
          match execute code state instruction with
          | .ok following => instruction :: executed code fuel following
          | .error _ => [instruction]

/-- The number of instructions that a run executes, labels not counted. -/
def cost (code : List Instruction) (stack locals : List Int32) (fuel : Nat) : Nat :=
  size (executed code fuel ⟨0, stack, locals⟩)

section

variable {code trace : List Instruction} {state last : State} {trap : Trap} {fuel : Nat}

theorem executed_of_path (hpath : Path code state trace last) (fuel : Nat) :
    executed code (fuel + trace.length) state = trace ++ executed code fuel last := by
  induction hpath with
  | nil => rfl
  | cons hfetch hexecute _ ih =>
      rw [List.length_cons, ← Nat.add_assoc, executed, hfetch]
      simp only [hexecute, ih, List.cons_append]

theorem executed_of_halts (hhalts : Halts code state trace last) (hfuel : trace.length ≤ fuel) :
    executed code fuel state = trace := by
  have hpath := executed_of_path hhalts.path (fuel - trace.length)
  have hended : executed code (fuel - trace.length) last = [] := by
    cases fuel - trace.length with
    | zero => rfl
    | succ left => rw [executed, hhalts.ended]
  rwa [Nat.sub_add_cancel hfuel, hended, List.append_nil] at hpath

/-- A trap adds the instruction that traps, and that is no label. -/
theorem size_executed_of_traps (htraps : Traps code state trace trap)
    (hfuel : trace.length < fuel) : size (executed code fuel state) = size trace + 1 := by
  obtain ⟨last, instruction, hpath, hfetch, hexecute⟩ := htraps
  have hlabel : instruction.label? = none := by
    cases instruction with
    | label id => simp [execute] at hexecute
    | _ => rfl
  obtain ⟨left, rfl⟩ := Nat.exists_eq_add_of_lt hfuel
  have hrest : executed code (left + 1) last = [instruction] := by
    rw [executed, hfetch]
    simp only [hexecute]
  rw [show trace.length + left + 1 = left + 1 + trace.length by omega,
    executed_of_path hpath, hrest, size_append, size_cons, hlabel]
  rfl

/-- A run executes as many instructions as it takes steps. -/
theorem length_executed {steps : Nat} {final : Final}
    (hresume : resume code steps fuel state = .ok final) :
    final.steps = steps + (executed code fuel state).length := by
  obtain ⟨trace, last, hhalts, hlength, rfl⟩ := resume_eq_ok_iff.mp hresume
  rw [executed_of_halts hhalts hlength]

end

section

variable {source target : List Instruction} {stack locals : List Int32} {fuel : Nat}

theorem cost_le_of_halts (hrefines : Refines source target) {final : Final}
    (hrun : run source stack locals fuel = .ok final) :
    ∃ enough, ∀ fuel' ≥ enough, ∃ final', run target stack locals fuel' = .ok final' ∧
      final'.stack = final.stack ∧ final'.locals = final.locals ∧
      cost target stack locals fuel' ≤ cost source stack locals fuel := by
  obtain ⟨trace, last, hhalts, hlength, rfl⟩ := resume_eq_ok_iff.mp hrun
  obtain ⟨trace', last', hhalts', hstack, hlocals, hwork⟩ := hrefines.halts hhalts
  refine ⟨trace'.length, fun fuel' hfuel' => ⟨_, resume_eq_ok_iff.mpr
    ⟨trace', last', hhalts', hfuel', rfl⟩, hstack, hlocals, ?_⟩⟩
  calc cost target stack locals fuel' = size trace' := by
        rw [cost, executed_of_halts hhalts' hfuel']
    _ ≤ size trace := hwork
    _ = cost source stack locals fuel := by rw [cost, executed_of_halts hhalts hlength]

theorem cost_le_of_divides (hrefines : Refines source target)
    (hrun : run source stack locals fuel = .error .divisionByZero) :
    ∃ enough, ∀ fuel' ≥ enough, run target stack locals fuel' = .error .divisionByZero ∧
      cost target stack locals fuel' ≤ cost source stack locals fuel := by
  have hfuel : ∀ count, Trap.divisionByZero ≠ .outOfFuel count := by simp
  obtain ⟨trace, htraps, hlength⟩ := (resume_eq_error_iff hfuel).mp hrun
  obtain ⟨trace', htraps', hwork⟩ := hrefines.divides htraps
  refine ⟨trace'.length + 1, fun fuel' hfuel' => ⟨(resume_eq_error_iff hfuel).mpr
    ⟨trace', htraps', hfuel'⟩, ?_⟩⟩
  calc cost target stack locals fuel' = size trace' + 1 := size_executed_of_traps htraps' hfuel'
    _ ≤ size trace + 1 := Nat.succ_le_succ hwork
    _ = cost source stack locals fuel := (size_executed_of_traps htraps hlength).symm

end

end Machine

open Machine

/-- Where the code that a body was put together from ends or divides by zero, what an
optimizer leaves of the body comes to the same at no higher cost, whatever fuel it
is given beyond what it needs. -/
theorem optimize_cost_le {names : List (LabelId × String)} {code : List Instruction}
    {body : Body} (hassemble : Body.assemble names code = .ok body) (optimizer : Optimizer)
    (stack locals : List Int32) (fuel : Nat) :
    (∀ final : Final, Machine.run code stack locals fuel = .ok final →
      ∃ enough, ∀ fuel' ≥ enough, ∃ final',
        Machine.run (optimizer.optimize body).2.instructions stack locals fuel' = .ok final' ∧
          final'.stack = final.stack ∧ final'.locals = final.locals ∧
          cost (optimizer.optimize body).2.instructions stack locals fuel' ≤
            cost code stack locals fuel) ∧
      (Machine.run code stack locals fuel = .error .divisionByZero →
        ∃ enough, ∀ fuel' ≥ enough,
          Machine.run (optimizer.optimize body).2.instructions stack locals fuel' =
              .error .divisionByZero ∧
            cost (optimizer.optimize body).2.instructions stack locals fuel' ≤
              cost code stack locals fuel) := by
  obtain ⟨hsynced, -, rfl⟩ := Body.synced_of_assemble hassemble
  have hrefines := optimizer.refines_optimize hsynced
  exact ⟨fun final => cost_le_of_halts hrefines, cost_le_of_divides hrefines⟩

/-- Counts a variable down to zero and divides by another one. -/
def countdown : List Instruction :=
  [.label 1, .load .int 0, .branch (.test .nonZero) 2, .goto 3, .label 2, .increment 0 (-1),
    .goto 1, .label 3, .const 6, .load .int 1, .binary .div]

theorem optimize_cost_le_at_countdown :
    ∃ body, Body.assemble [] countdown = .ok body ∧
      Machine.run countdown [] [3, 2] 50 = .ok ⟨[3], [0, 2], 26⟩ ∧
      (∃ enough, ∀ fuel ≥ enough, ∃ final,
        Machine.run ((Optimizer.ofSettings {}).optimize body).2.instructions [] [3, 2] fuel =
            .ok final ∧
          final.stack = [3] ∧ final.locals = [0, 2] ∧
          cost ((Optimizer.ofSettings {}).optimize body).2.instructions [] [3, 2] fuel ≤ 18) ∧
      Machine.run countdown [] [3, 0] 50 = .error .divisionByZero ∧
      ∃ enough, ∀ fuel ≥ enough,
        Machine.run ((Optimizer.ofSettings {}).optimize body).2.instructions [] [3, 0] fuel =
            .error .divisionByZero ∧
          cost ((Optimizer.ofSettings {}).optimize body).2.instructions [] [3, 0] fuel ≤ 18 := by
  have hassemble : Body.assemble [] countdown = .ok _ := rfl
  refine ⟨_, hassemble, rfl, ?_, rfl, ?_⟩
  · exact (optimize_cost_le hassemble (.ofSettings {}) [] [3, 2] 50).1 _ rfl
  · exact (optimize_cost_le hassemble (.ofSettings {}) [] [3, 0] 50).2 rfl

end Peephole
