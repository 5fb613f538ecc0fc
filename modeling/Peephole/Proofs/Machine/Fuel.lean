import Peephole.Proofs.Machine.Path

/-!
# The fuel of a run

A run that comes to an end needs a certain amount of fuel.  With less it stops when
the fuel is used up and says how much that was, and from this amount on it always
gives the same result.  The end of the code is noticed without fuel, so that a run
which gets there needs as much as it has steps, while a trap needs one unit more for
the instruction that traps.
-/

namespace Peephole.Machine

/-- A run gives its result from a certain amount of fuel on, and uses up any less. -/
structure Ends (code : List Instruction) (steps : Nat) (state : State) (need : Nat)
    (result : Except Trap Final) : Prop where
  taken : ∀ final, result = .ok final → final.steps = steps + need
  enough : ∀ fuel, need ≤ fuel → resume code steps fuel state = result
  short : ∀ fuel, fuel < need → resume code steps fuel state = .error (.outOfFuel (steps + fuel))

section

variable {code trace : List Instruction} {state last : State} {trap : Trap}
variable {steps fuel count : Nat}

theorem Traps.pending (htraps : Traps code state trace trap) (hcount : count ≤ trace.length) :
    Pending code state count := by
  obtain ⟨last, instruction, hpath, hfetch, -⟩ := htraps
  have hlast : Pending code state trace.length := ⟨trace, last, instruction, hpath, rfl, hfetch⟩
  exact hlast.of_le hcount

theorem Traps.ne_outOfFuel (htraps : Traps code state trace trap) (count : Nat) :
    trap ≠ .outOfFuel count := by
  rintro rfl
  obtain ⟨last, instruction, -, -, hexecute⟩ := htraps
  exact execute_ne_outOfFuel instruction count hexecute

/-- A run to the end of the code needs as much fuel as it has steps. -/
theorem Halts.ends (hhalts : Halts code state trace last) (steps : Nat) :
    Ends code steps state trace.length
      (.ok ⟨last.stack, last.locals, steps + trace.length⟩) where
  taken := by
    rintro _ ⟨⟩
    rfl
  enough := fun _ hfuel => resume_eq_ok_iff.mpr ⟨trace, last, hhalts, hfuel, rfl⟩
  short := fun _ hfuel => resume_eq_outOfFuel_iff.mpr ⟨hhalts.path.pending hfuel, rfl⟩

/-- A run into a trap needs fuel for the instruction that traps as well. -/
theorem Traps.ends (htraps : Traps code state trace trap) (steps : Nat) :
    Ends code steps state (trace.length + 1) (.error trap) where
  taken := by simp
  enough := fun _ hfuel => (resume_eq_error_iff htraps.ne_outOfFuel).mpr ⟨trace, htraps, hfuel⟩
  short := fun _ hfuel =>
    resume_eq_outOfFuel_iff.mpr ⟨htraps.pending (Nat.le_of_lt_succ hfuel), rfl⟩

/-- A run that does not use up its fuel had as much as it needs. -/
theorem exists_ends (hsettled : ∀ count, resume code steps fuel state ≠ .error (.outOfFuel count)) :
    ∃ need, need ≤ fuel ∧ Ends code steps state need (resume code steps fuel state) := by
  cases hresume : resume code steps fuel state with
  | ok final =>
      obtain ⟨trace, last, hhalts, hlength, rfl⟩ := resume_eq_ok_iff.mp hresume
      exact ⟨trace.length, hlength, hhalts.ends steps⟩
  | error trap =>
      have htrap : ∀ count, trap ≠ .outOfFuel count := by
        rintro count rfl
        exact hsettled count hresume
      obtain ⟨trace, htraps, hlength⟩ := (resume_eq_error_iff htrap).mp hresume
      exact ⟨trace.length + 1, hlength, htraps.ends steps⟩

theorem Ends.eq_ok_iff {need : Nat} {final : Final}
    (hends : Ends code steps state need (.ok final)) :
    resume code steps fuel state = .ok final ↔ need ≤ fuel := by
  constructor
  · intro hresume
    rcases Nat.lt_or_ge fuel need with hlt | hle
    · cases hresume.symm.trans (hends.short fuel hlt)
    · exact hle
  · exact hends.enough fuel

end

/-- A run that does not lack fuel has the same result with any more.  One that gets to the
end of the code gets there with exactly the fuel from the number of its steps on, and one
that uses up its fuel says how much that was and uses up any less. -/
theorem run_exact_in_fuel (code : List Instruction) (stack locals : List Int32) (fuel : Nat) :
    ((∀ count, run code stack locals fuel ≠ .error (.outOfFuel count)) →
        ∀ more, fuel ≤ more → run code stack locals more = run code stack locals fuel) ∧
      (∀ final, run code stack locals fuel = .ok final →
        final.steps ≤ fuel ∧
          ∀ other, (run code stack locals other = .ok final ↔ final.steps ≤ other) ∧
            (other < final.steps → run code stack locals other = .error (.outOfFuel other))) ∧
      ∀ count, run code stack locals fuel = .error (.outOfFuel count) →
        count = fuel ∧ ∀ less < fuel, run code stack locals less = .error (.outOfFuel less) := by
  simp only [run]
  refine ⟨?_, ?_, ?_⟩
  · intro hsettled more hmore
    obtain ⟨need, hneed, hends⟩ := exists_ends hsettled
    exact hends.enough more (Nat.le_trans hneed hmore)
  · intro final hfinal
    have hsettled : ∀ count, resume code 0 fuel ⟨0, stack, locals⟩ ≠ .error (.outOfFuel count) := by
      simp [hfinal]
    obtain ⟨need, hneed, hends⟩ := exists_ends hsettled
    rw [hfinal] at hends
    have hsteps : final.steps = need := by simpa using hends.taken final rfl
    rw [hsteps]
    refine ⟨hneed, fun other => ⟨hends.eq_ok_iff, fun hother => ?_⟩⟩
    simpa using hends.short other hother
  · intro count hcount
    obtain ⟨hpending, hcount⟩ := resume_eq_outOfFuel_iff.mp hcount
    refine ⟨by simpa using hcount, fun less hless => ?_⟩
    have hless := hpending.of_le (Nat.le_of_lt hless)
    exact resume_eq_outOfFuel_iff.mpr ⟨hless, (Nat.zero_add less).symm⟩

-- The end of the code is noticed when the fuel is used up.
example :
    [1, 2, 3].map (run [.const 7, .pop] [] []) =
      [.error (.outOfFuel 1), .ok ⟨[], [], 2⟩, .ok ⟨[], [], 2⟩] := rfl

-- An instruction that traps has to be paid for.
example :
    [1, 2, 3].map (run [.const 7, .binary .add] [] []) =
      [.error (.outOfFuel 1), .error (.stackUnderflow 1), .error (.stackUnderflow 1)] := rfl

end Peephole.Machine
