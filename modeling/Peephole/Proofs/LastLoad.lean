import Peephole.Proofs.Bookkeeping.Admitted

/-!
# Variables that are dead after a load

A load is judged the last of its variable when straight-line code after it writes the
variable before anything can read it.  The value that the variable keeps until then is of
no consequence: two runs that go on after the load and differ in that value only end
alike, with the same operand stack, the same variables and the same number of steps, or
in the same trap.
-/

namespace Peephole

namespace Machine

variable {code : List Instruction} {instruction : Instruction} {slot : Slot}
variable {state left right : State}

/-- The state in which a variable has another value. -/
def State.assign (state : State) (slot : Slot) (value : Int32) : State :=
  { state with locals := state.locals.set slot.toNat value }

/-- Two states that differ in the value of one variable at most. -/
structure State.AgreesBut (slot : Slot) (left right : State) : Prop where
  next : right.next = left.next
  stack : right.stack = left.stack
  length : right.locals.length = left.locals.length
  locals : ∀ index, index ≠ slot.toNat → right.locals[index]? = left.locals[index]?

theorem State.AgreesBut.exists_assign (hagrees : State.AgreesBut slot left right) :
    ∃ value, right = left.assign slot value := by
  obtain ⟨next, stack, locals⟩ := left
  obtain ⟨next', stack', locals'⟩ := right
  obtain ⟨rfl, rfl, hlength, hlocals⟩ := hagrees
  refine ⟨locals'[slot.toNat]?.getD 0, congrArg (State.mk _ _) ?_⟩
  apply List.ext_getElem?
  intro index
  rw [List.getElem?_set]
  split
  · rename_i hindex
    subst hindex
    split
    · rename_i hslot
      rw [List.getElem?_eq_getElem (hlength ▸ hslot)]
      rfl
    · rename_i hslot
      exact List.getElem?_eq_none (hlength ▸ Nat.not_lt.mp hslot)
  · rename_i hindex
    exact hlocals index (Ne.symm hindex)

/-! ## One instruction -/

theorem next_of_execute {following : State} (hplain : instruction.target? = none)
    (hexecute : execute code state instruction = .ok following) :
    following.next = state.next + 1 := by
  rw [execute_of_plain hplain code state.next state.stack state.locals] at hexecute
  split at hexecute
  · cases hexecute
    rfl
  · cases hexecute

/-- An instruction that avoids a variable neither reads nor changes its value. -/
theorem execute_assign (havoids : instruction.avoids slot = true) (state : State)
    (value : Int32) :
    execute code (state.assign slot value) instruction =
      (execute code state instruction).map (·.assign slot value) := by
  have hplain := Instruction.target?_of_avoids havoids
  obtain ⟨next, stack, locals⟩ := state
  rw [State.assign, execute_of_plain hplain code next stack locals,
    execute_of_plain hplain code next stack (locals.set slot.toNat value),
    execute_set_of_avoids havoids]
  cases execute [] ⟨0, stack, locals⟩ instruction <;> rfl

/-- A store makes up for any difference in its variable. -/
theorem execute_store_assign (kind : Kind) (state : State) (value : Int32) :
    execute code (state.assign slot value) (.store kind slot) =
      execute code state (.store kind slot) := by
  obtain ⟨next, stack, locals⟩ := state
  cases stack with
  | nil => rfl
  | cons top stack => simp [State.assign, execute]

/-! ## Runs -/

/-- Code that overwrites a variable runs alike whatever value the variable has. -/
theorem resume_assign {labels : LabelTable} {lines : List Line}
    (hoverwrites : LastLoad.overwrites labels slot lines = true)
    (hcode : code.drop state.next = Line.instructions lines) (value : Int32)
    (steps fuel : Nat) :
    resume code steps fuel (state.assign slot value) = resume code steps fuel state := by
  induction lines generalizing state steps fuel with
  | nil => cases hoverwrites
  | cons line rest ih =>
      rw [Line.instructions_cons] at hcode
      have hfetch := getElem?_of_drop_eq_cons hcode
      have hfetch' : code[(state.assign slot value).next]? = some line.instruction := hfetch
      cases fuel with
      | zero => rw [resume, resume, hfetch, hfetch']
      | succ fuel =>
          rw [resume, resume, hfetch, hfetch']
          dsimp only
          by_cases hstore : ∃ kind, line.instruction = .store kind slot
          · obtain ⟨kind, hline⟩ := hstore
            rw [hline, execute_store_assign]
          · obtain ⟨havoids, hrest, -⟩ :=
              LastLoad.of_overwrites_cons hoverwrites (not_exists.mp hstore)
            rw [execute_assign havoids]
            cases hexecute : execute code state line.instruction with
            | error trap => rfl
            | ok following =>
                have hnext := next_of_execute (Instruction.target?_of_avoids havoids) hexecute
                exact ih hrest (hnext ▸ drop_succ_of_drop_eq_cons hcode) _ _

end Machine

namespace Body

theorem ahead_of_getElem? {body : Body} {index : Nat} {line : Line}
    (hline : body.lines[index]? = some line) :
    body.ahead line.position = line :: body.lines.drop (index + 1) := by
  obtain ⟨hindex, rfl⟩ := List.getElem?_eq_some_iff.mp hline
  have hlines : body.lines = body.lines.take index ++ body.lines[index] ::
      body.lines.drop (index + 1) := by
    rw [List.getElem_cons_drop, List.take_append_drop]
  exact ahead_eq_of_split hlines

end Body

/-- After a load that is the last of its variable, two runs from states that differ in
that variable at most give the same, whatever fuel they have.  The table of the body need
not be in step for that. -/
theorem run_after_last_load {body : Body} {position index : Nat} {kind : Kind} {slot : Slot}
    (hload : body.lines[index]? = some ⟨position, .load kind slot⟩)
    (hlast : body.isLastLoad position = true) {left right : Machine.State}
    (hnext : left.next = index + 1) (hagrees : left.AgreesBut slot right) (steps fuel : Nat) :
    Machine.resume body.instructions steps fuel left =
      Machine.resume body.instructions steps fuel right := by
  obtain ⟨value, rfl⟩ := hagrees.exists_assign
  have hahead := Body.ahead_of_getElem? hload
  rw [Body.isLastLoad, hahead] at hlast
  have hcode : body.instructions.drop left.next =
      Line.instructions (body.lines.drop (index + 1)) := by
    rw [hnext, Body.instructions, Line.instructions, Line.instructions, List.map_drop]
  exact (Machine.resume_assign hlast hcode value steps fuel).symm

/-- The second variable is written through a kind of its own after a division and a label
that no jump goes to. -/
theorem run_after_last_load_of_dividend :
    ∃ body, Body.assemble [] [.load .int 1, .load .int 0, .binary .div, .label 7, .store .ref 1] =
        .ok body ∧
      body.lines[0]? = some ⟨0, .load .int 1⟩ ∧
      body.isLastLoad 0 = true ∧
      Machine.resume body.instructions 0 9 ⟨1, [6], [2, 5]⟩ = .ok ⟨[], [2, 3], 4⟩ ∧
      Machine.resume body.instructions 0 9 ⟨1, [6], [2, -9]⟩ = .ok ⟨[], [2, 3], 4⟩ := by
  refine ⟨_, rfl, rfl, rfl, rfl, ?_⟩
  have hagrees : Machine.State.AgreesBut 1 ⟨1, [6], [2, 5]⟩ ⟨1, [6], [2, -9]⟩ := by
    refine ⟨rfl, rfl, rfl, ?_⟩
    intro index hindex
    rcases index with _ | _ | index
    · rfl
    · exact absurd rfl hindex
    · rfl
  exact (run_after_last_load rfl rfl rfl hagrees 0 9).symm.trans rfl

end Peephole
