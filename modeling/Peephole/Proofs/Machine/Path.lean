import Peephole.Machine

/-!
# Runs as paths

A run is followed as a path through the states of the machine, together with
the instructions executed on the way.  The machine is deterministic, so a run
that ends goes through every state that a path from its start leads to.  The
fuel of a run only has to be as large as its path is long.
-/

namespace Peephole.Machine

/-- A path executes some instructions one after the other. -/
inductive Path (code : List Instruction) : State → List Instruction → State → Prop
  | nil (state : State) : Path code state [] state
  | cons {state middle last : State} {instruction : Instruction} {trace : List Instruction}
      (hfetch : code[state.next]? = some instruction)
      (hexecute : execute code state instruction = .ok middle)
      (hrest : Path code middle trace last) : Path code state (instruction :: trace) last

/-- A run that reaches the end of the code. -/
structure Halts (code : List Instruction) (state : State) (trace : List Instruction)
    (last : State) : Prop where
  path : Path code state trace last
  ended : code[last.next]? = none

/-- A run that ends in a trap.  The instruction that traps is not part of what was
executed. -/
def Traps (code : List Instruction) (state : State) (trace : List Instruction) (trap : Trap) :
    Prop :=
  ∃ last instruction, Path code state trace last ∧ code[last.next]? = some instruction ∧
    execute code last instruction = .error trap

/-- A run that goes on for any number of instructions. -/
def Endless (code : List Instruction) (state : State) : Prop :=
  ∀ count, ∃ trace last, Path code state trace last ∧ count ≤ trace.length

/-- After some number of instructions there is still one to execute. -/
def Pending (code : List Instruction) (state : State) (count : Nat) : Prop :=
  ∃ trace last instruction, Path code state trace last ∧ trace.length = count ∧
    code[last.next]? = some instruction

section

variable {code : List Instruction} {state middle last : State}
variable {trace left right : List Instruction} {trap : Trap}

theorem Path.single {instruction : Instruction} (hfetch : code[state.next]? = some instruction)
    (hexecute : execute code state instruction = .ok last) :
    Path code state [instruction] last :=
  .cons hfetch hexecute (.nil last)

theorem Path.append (hleft : Path code state left middle) (hright : Path code middle right last) :
    Path code state (left ++ right) last := by
  induction hleft with
  | nil => exact hright
  | cons hfetch hexecute _ ih => exact .cons hfetch hexecute (ih hright)

theorem Path.halts (hleft : Path code state left middle) (hright : Halts code middle right last) :
    Halts code state (left ++ right) last :=
  ⟨hleft.append hright.path, hright.ended⟩

theorem Path.traps (hleft : Path code state left middle) (hright : Traps code middle right trap) :
    Traps code state (left ++ right) trap := by
  obtain ⟨last, instruction, hpath, hfetch, hexecute⟩ := hright
  exact ⟨last, instruction, hleft.append hpath, hfetch, hexecute⟩

/-- Two paths from one state follow each other as long as both go on. -/
theorem Path.split (hleft : Path code state left middle) (hright : Path code state right last)
    (hlength : left.length ≤ right.length) :
    ∃ rest, right = left ++ rest ∧ Path code middle rest last := by
  induction hleft generalizing right with
  | nil => exact ⟨right, rfl, hright⟩
  | cons hfetch hexecute _ ih =>
      cases hright with
      | nil => simp at hlength
      | cons hfetch' hexecute' hrest =>
          rw [hfetch] at hfetch'
          obtain rfl := Option.some.inj hfetch'
          rw [hexecute] at hexecute'
          obtain rfl := Except.ok.inj hexecute'
          obtain ⟨rest, rfl, hpath⟩ := ih hrest (by simpa using hlength)
          exact ⟨rest, rfl, hpath⟩

theorem Path.length_le_of_halts (hleft : Path code state left middle)
    (hhalts : Halts code state trace last) : left.length ≤ trace.length := by
  by_cases hlength : left.length ≤ trace.length
  · exact hlength
  · obtain ⟨rest, rfl, hrest⟩ := hhalts.path.split hleft (Nat.le_of_not_le hlength)
    cases hrest with
    | nil => simp at hlength
    | cons hfetch _ _ => simp [hhalts.ended] at hfetch

theorem Path.halts_rest (hleft : Path code state left middle)
    (hhalts : Halts code state trace last) :
    ∃ rest, trace = left ++ rest ∧ Halts code middle rest last := by
  obtain ⟨rest, htrace, hpath⟩ := hleft.split hhalts.path (hleft.length_le_of_halts hhalts)
  exact ⟨rest, htrace, hpath, hhalts.ended⟩

theorem Path.length_le_of_traps (hleft : Path code state left middle)
    (htraps : Traps code state trace trap) : left.length ≤ trace.length := by
  by_cases hlength : left.length ≤ trace.length
  · exact hlength
  · obtain ⟨last, instruction, hpath, hfetch, hexecute⟩ := htraps
    obtain ⟨rest, rfl, hrest⟩ := hpath.split hleft (Nat.le_of_not_le hlength)
    cases hrest with
    | nil => simp at hlength
    | cons hfetch' hexecute' _ =>
        rw [hfetch] at hfetch'
        obtain rfl := Option.some.inj hfetch'
        simp [hexecute] at hexecute'

theorem Path.traps_rest (hleft : Path code state left middle)
    (htraps : Traps code state trace trap) :
    ∃ rest, trace = left ++ rest ∧ Traps code middle rest trap := by
  have hlength := hleft.length_le_of_traps htraps
  obtain ⟨last, instruction, hpath, hfetch, hexecute⟩ := htraps
  obtain ⟨rest, htrace, hrest⟩ := hleft.split hpath hlength
  exact ⟨rest, htrace, last, instruction, hrest, hfetch, hexecute⟩

theorem Halts.not_traps (hhalts : Halts code state left last)
    (htraps : Traps code state right trap) : False := by
  obtain ⟨rest, -, last', instruction, hpath, hfetch, -⟩ := hhalts.path.traps_rest htraps
  cases hpath with
  | nil => simp [hhalts.ended] at hfetch
  | cons hfetch' _ _ => simp [hhalts.ended] at hfetch'

theorem Traps.unique {other : Trap} (hleft : Traps code state left trap)
    (hright : Traps code state right other) : trap = other := by
  obtain ⟨last, instruction, hpath, hfetch, hexecute⟩ := hleft
  obtain ⟨rest, -, last', instruction', hrest, hfetch', hexecute'⟩ := hpath.traps_rest hright
  cases hrest with
  | nil =>
      rw [hfetch] at hfetch'
      obtain rfl := Option.some.inj hfetch'
      rw [hexecute] at hexecute'
      exact Except.error.inj hexecute'
  | cons hfetch' hstep _ =>
      rw [hfetch] at hfetch'
      obtain rfl := Option.some.inj hfetch'
      simp [hexecute] at hstep

theorem Path.pending {count : Nat} (hpath : Path code state trace last) (hcount : count < trace.length) :
    Pending code state count := by
  induction hpath generalizing count with
  | nil => simp at hcount
  | cons hfetch hexecute _ ih =>
      cases count with
      | zero => exact ⟨[], _, _, .nil _, rfl, hfetch⟩
      | succ count =>
          obtain ⟨before, middle, instruction, hbefore, hlength, hmiddle⟩ :=
            ih (Nat.lt_of_succ_lt_succ hcount)
          exact ⟨_, middle, instruction, .cons hfetch hexecute hbefore,
            congrArg Nat.succ hlength, hmiddle⟩

theorem Pending.of_le {less count : Nat} (hpending : Pending code state count) (hle : less ≤ count) :
    Pending code state less := by
  obtain ⟨trace, last, instruction, hpath, rfl, hfetch⟩ := hpending
  rcases Nat.lt_or_eq_of_le hle with hlt | rfl
  · exact hpath.pending hlt
  · exact ⟨trace, last, instruction, hpath, rfl, hfetch⟩

theorem Endless.rest (hleft : Path code state left middle) (hendless : Endless code state) :
    Endless code middle := by
  intro count
  obtain ⟨trace, last, hpath, hlength⟩ := hendless (left.length + count)
  obtain ⟨rest, rfl, hrest⟩ := hleft.split hpath (by omega)
  refine ⟨rest, last, hrest, ?_⟩
  rw [List.length_append] at hlength
  omega

theorem Endless.not_halts (hendless : Endless code state) (hhalts : Halts code state trace last) :
    False := by
  obtain ⟨longer, other, hpath, hlength⟩ := hendless (trace.length + 1)
  have := hpath.length_le_of_halts hhalts
  omega

theorem Endless.not_traps (hendless : Endless code state)
    (htraps : Traps code state trace trap) : False := by
  obtain ⟨longer, other, hpath, hlength⟩ := hendless (trace.length + 1)
  have := hpath.length_le_of_traps htraps
  omega

/-- A path that comes back to its start can be taken again and again. -/
theorem Path.endless (hpath : Path code state trace state) (hmoves : trace ≠ []) :
    Endless code state := by
  intro count
  induction count with
  | zero => exact ⟨[], state, .nil state, Nat.le_refl 0⟩
  | succ count ih =>
      obtain ⟨more, last, hmore, hlength⟩ := ih
      refine ⟨trace ++ more, last, hpath.append hmore, ?_⟩
      have hpos := List.length_pos_iff.mpr hmoves
      rw [List.length_append]
      omega

/-! ## Paths and fuel -/

theorem resume_of_path (hpath : Path code state trace last) (steps fuel : Nat) :
    resume code steps (fuel + trace.length) state =
      resume code (steps + trace.length) fuel last := by
  induction hpath generalizing steps with
  | nil => rfl
  | cons hfetch hexecute _ ih =>
      rw [resume, hfetch]
      simp only [List.length_cons, ← Nat.add_assoc, hexecute]
      rw [ih]
      congr 1
      omega

/-- With enough fuel a run gives what is left at the end of its path. -/
theorem resume_eq_ok_iff {steps fuel : Nat} {final : Final} :
    resume code steps fuel state = .ok final ↔
      ∃ trace last, Halts code state trace last ∧ trace.length ≤ fuel ∧
        final = ⟨last.stack, last.locals, steps + trace.length⟩ := by
  constructor
  · intro hresume
    induction fuel generalizing state steps with
    | zero =>
        rw [resume] at hresume
        cases hfetch : code[state.next]? with
        | none =>
            simp only [hfetch, Except.ok.injEq] at hresume
            exact ⟨[], state, ⟨.nil state, hfetch⟩, Nat.le_refl _, hresume.symm⟩
        | some instruction => simp [hfetch] at hresume
    | succ fuel ih =>
        rw [resume] at hresume
        cases hfetch : code[state.next]? with
        | none =>
            simp only [hfetch, Except.ok.injEq] at hresume
            exact ⟨[], state, ⟨.nil state, hfetch⟩, Nat.zero_le _, hresume.symm⟩
        | some instruction =>
            cases hexecute : execute code state instruction with
            | error trap => simp [hfetch, hexecute] at hresume
            | ok following =>
                simp only [hfetch, hexecute] at hresume
                obtain ⟨trace, last, hhalts, hlength, hfinal⟩ := ih hresume
                refine ⟨instruction :: trace, last,
                  ⟨.cons hfetch hexecute hhalts.path, hhalts.ended⟩, by simpa using hlength, ?_⟩
                rw [hfinal, List.length_cons]
                congr 1
                omega
  · rintro ⟨trace, last, hhalts, hlength, rfl⟩
    have hresume := resume_of_path hhalts.path steps (fuel - trace.length)
    rw [Nat.sub_add_cancel hlength] at hresume
    rw [hresume, resume, hhalts.ended]

/-- With enough fuel a run gives the trap at the end of its path. -/
theorem resume_eq_error_iff {steps fuel : Nat} (hfuel : ∀ count, trap ≠ .outOfFuel count) :
    resume code steps fuel state = .error trap ↔
      ∃ trace, Traps code state trace trap ∧ trace.length < fuel := by
  constructor
  · intro hresume
    induction fuel generalizing state steps with
    | zero =>
        rw [resume] at hresume
        cases hfetch : code[state.next]? with
        | none => simp [hfetch] at hresume
        | some instruction =>
            simp only [hfetch, Except.error.injEq] at hresume
            exact absurd hresume.symm (hfuel steps)
    | succ fuel ih =>
        rw [resume] at hresume
        cases hfetch : code[state.next]? with
        | none => simp [hfetch] at hresume
        | some instruction =>
            cases hexecute : execute code state instruction with
            | error other =>
                simp only [hfetch, hexecute, Except.error.injEq] at hresume
                subst hresume
                exact ⟨[], ⟨state, instruction, .nil state, hfetch, hexecute⟩, Nat.succ_pos _⟩
            | ok following =>
                simp only [hfetch, hexecute] at hresume
                obtain ⟨trace, htraps, hlength⟩ := ih hresume
                exact ⟨instruction :: trace,
                  (Path.single hfetch hexecute).traps htraps, by simpa using hlength⟩
  · rintro ⟨trace, ⟨last, instruction, hpath, hfetch, hexecute⟩, hlength⟩
    obtain ⟨fuel, rfl⟩ := Nat.exists_eq_add_of_lt hlength
    have hresume := resume_of_path hpath steps (fuel + 1)
    rw [show trace.length + fuel + 1 = fuel + 1 + trace.length by omega, hresume, resume, hfetch]
    simp [hexecute]

/-- No instruction runs out of fuel by itself. -/
theorem execute_ne_outOfFuel (instruction : Instruction) (count : Nat) :
    execute code state instruction ≠ .error (.outOfFuel count) := by
  have hjump : ∀ (state : State) (taken : Bool) (target : LabelId),
      state.jump code taken target ≠ .error (.outOfFuel count) := by
    intro state taken target
    rw [State.jump]
    grind
  unfold execute
  split <;> grind

/-- The fuel is used up where as many instructions have been executed and there is
another one. -/
theorem resume_eq_outOfFuel_iff {steps fuel count : Nat} :
    resume code steps fuel state = .error (.outOfFuel count) ↔
      Pending code state fuel ∧ count = steps + fuel := by
  constructor
  · intro hresume
    induction fuel generalizing state steps with
    | zero =>
        rw [resume] at hresume
        cases hfetch : code[state.next]? with
        | none => simp [hfetch] at hresume
        | some instruction =>
            simp only [hfetch, Except.error.injEq, Trap.outOfFuel.injEq] at hresume
            exact ⟨⟨[], state, instruction, .nil state, rfl, hfetch⟩, hresume.symm⟩
    | succ fuel ih =>
        rw [resume] at hresume
        cases hfetch : code[state.next]? with
        | none => simp [hfetch] at hresume
        | some instruction =>
            cases hexecute : execute code state instruction with
            | error trap =>
                simp only [hfetch, hexecute, Except.error.injEq] at hresume
                exact absurd (hresume ▸ hexecute) (execute_ne_outOfFuel instruction count)
            | ok following =>
                simp only [hfetch, hexecute] at hresume
                obtain ⟨⟨trace, last, next, hpath, hlength, hlast⟩, hcount⟩ := ih hresume
                refine ⟨⟨instruction :: trace, last, next, .cons hfetch hexecute hpath,
                  congrArg Nat.succ hlength, hlast⟩, ?_⟩
                omega
  · rintro ⟨⟨trace, last, instruction, hpath, rfl, hfetch⟩, rfl⟩
    have hresume := resume_of_path hpath steps 0
    rw [Nat.zero_add] at hresume
    rw [hresume, resume, hfetch]

/-- A run that goes on forever uses up any fuel. -/
theorem resume_of_endless (hendless : Endless code state) (steps fuel : Nat) :
    resume code steps fuel state = .error (.outOfFuel (steps + fuel)) := by
  obtain ⟨trace, last, hpath, hlength⟩ := hendless (fuel + 1)
  exact resume_eq_outOfFuel_iff.mpr ⟨hpath.pending hlength, rfl⟩

/-- The runs that no fuel is enough for are those that go on forever. -/
theorem forall_outOfFuel_iff_endless {steps : Nat} :
    (∀ fuel, ∃ count, resume code steps fuel state = .error (.outOfFuel count)) ↔
      Endless code state := by
  constructor
  · intro hfuel count
    obtain ⟨used, hresume⟩ := hfuel count
    obtain ⟨⟨trace, last, instruction, hpath, hlength, -⟩, -⟩ := resume_eq_outOfFuel_iff.mp hresume
    exact ⟨trace, last, hpath, Nat.le_of_eq hlength.symm⟩
  · intro hendless fuel
    exact ⟨steps + fuel, resume_of_endless hendless steps fuel⟩

end

end Peephole.Machine
