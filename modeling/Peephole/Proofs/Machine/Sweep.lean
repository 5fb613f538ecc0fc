import Peephole.Proofs.Code
import Peephole.Proofs.Machine.Path

/-!
# Straight-line code

Code without jumps is swept from its first to its last instruction, wherever it
stands.  What it does to the operand stack and to the variables does not depend
on the rest of the code, so that it can be compared with other code that is to
stand in its place.
-/

namespace Peephole

/-- Whether an instruction neither jumps nor touches a variable. -/
def Instruction.avoids (slot : Slot) : Instruction → Bool
  | .load _ other | .store _ other | .increment other _ => other != slot
  | .goto _ | .branch _ _ => false
  | _ => true

theorem Instruction.target?_of_avoids {instruction : Instruction} {slot : Slot}
    (havoids : instruction.avoids slot = true) : instruction.target? = none := by
  cases instruction with
  | goto target => cases havoids
  | branch condition target => cases havoids
  | _ => rfl

/-- The same trap, an underflow being put at another place. -/
def Trap.relocate (next : Nat) : Trap → Trap
  | .stackUnderflow _ => .stackUnderflow next
  | trap => trap

theorem Trap.relocate_eq_divisionByZero_iff {next : Nat} {trap : Trap} :
    trap.relocate next = .divisionByZero ↔ trap = .divisionByZero := by
  cases trap <;> simp [relocate]

namespace Machine

/-- What code without jumps makes of an operand stack and of the variables.  An
underflow is reported as if it were at the first place. -/
def sweep : List Instruction → List Int32 → List Int32 →
    Except Trap (List Int32 × List Int32)
  | [], stack, locals => .ok (stack, locals)
  | instruction :: rest, stack, locals =>
      match execute [] ⟨0, stack, locals⟩ instruction with
      | .ok state => sweep rest state.stack state.locals
      | .error trap => .error trap

/-- The instructions of a sweep that are executed. -/
def swept : List Instruction → List Int32 → List Int32 → List Instruction
  | [], _, _ => []
  | instruction :: rest, stack, locals =>
      match execute [] ⟨0, stack, locals⟩ instruction with
      | .ok state => instruction :: swept rest state.stack state.locals
      | .error _ => []

theorem execute_of_plain {instruction : Instruction} (hplain : instruction.target? = none)
    (code : List Instruction) (next : Nat) (stack locals : List Int32) :
    execute code ⟨next, stack, locals⟩ instruction =
      match execute [] ⟨0, stack, locals⟩ instruction with
      | .ok state => .ok ⟨next + 1, state.stack, state.locals⟩
      | .error trap => .error (trap.relocate next) := by
  cases instruction with
  | goto target => simp at hplain
  | branch condition target => simp at hplain
  | nop => rfl
  | label id => rfl
  | const value => rfl
  | load kind slot =>
      simp only [execute]
      cases locals[slot.toNat]? <;> rfl
  | increment slot amount =>
      simp only [execute]
      cases locals[slot.toNat]? <;> rfl
  | store kind slot =>
      cases stack with
      | nil => rfl
      | cons value stack =>
          simp only [execute]
          split <;> rfl
  | binary operator =>
      rcases stack with _ | ⟨right, _ | ⟨left, stack⟩⟩
      · rfl
      · rfl
      · simp only [execute]
        cases operator.evaluate? left right <;> rfl
  | _ => cases stack <;> rfl

/-! ## Sweeps in their place -/

section

variable {code window after : List Instruction} {next : Nat} {stack locals : List Int32}

theorem getElem?_of_drop_eq_cons {instruction : Instruction}
    (hcode : code.drop next = instruction :: after) : code[next]? = some instruction := by
  have hhead := congrArg (fun list => list[0]?) hcode
  simpa [List.getElem?_drop] using hhead

theorem drop_succ_of_drop_eq_cons {instruction : Instruction}
    (hcode : code.drop next = instruction :: after) : code.drop (next + 1) = after := by
  rw [← List.drop_drop, hcode]
  rfl

/-- Code that is swept without a trap is executed to its end. -/
theorem path_of_sweep {stack' locals' : List Int32}
    (hplain : ∀ instruction ∈ window, instruction.target? = none)
    (hcode : code.drop next = window ++ after)
    (hsweep : sweep window stack locals = .ok (stack', locals')) :
    Path code ⟨next, stack, locals⟩ window ⟨next + window.length, stack', locals'⟩ := by
  induction window generalizing next stack locals with
  | nil =>
      simp only [sweep, Except.ok.injEq, Prod.mk.injEq] at hsweep
      obtain ⟨rfl, rfl⟩ := hsweep
      exact .nil _
  | cons instruction rest ih =>
      have hexecute := execute_of_plain (hplain instruction (by simp)) code next stack locals
      rw [sweep] at hsweep
      cases hstep : execute [] ⟨0, stack, locals⟩ instruction with
      | error trap => simp [hstep] at hsweep
      | ok state =>
          rw [hstep] at hsweep hexecute
          have hrest := ih (fun other hother => hplain other (List.mem_cons_of_mem _ hother))
            (drop_succ_of_drop_eq_cons hcode) hsweep
          rw [List.length_cons, Nat.add_comm rest.length, ← Nat.add_assoc]
          exact .cons (getElem?_of_drop_eq_cons hcode) hexecute hrest

/-- Code that is swept into a trap is executed up to it. -/
theorem traps_of_sweep {trap : Trap}
    (hplain : ∀ instruction ∈ window, instruction.target? = none)
    (hcode : code.drop next = window ++ after)
    (hsweep : sweep window stack locals = .error trap) :
    ∃ place, Traps code ⟨next, stack, locals⟩ (swept window stack locals)
      (trap.relocate place) := by
  induction window generalizing next stack locals with
  | nil => simp [sweep] at hsweep
  | cons instruction rest ih =>
      have hexecute := execute_of_plain (hplain instruction (by simp)) code next stack locals
      have hfetch := getElem?_of_drop_eq_cons hcode
      rw [sweep] at hsweep
      rw [swept]
      cases hstep : execute [] ⟨0, stack, locals⟩ instruction with
      | error other =>
          rw [hstep] at hsweep hexecute
          obtain rfl := Except.error.inj hsweep
          exact ⟨next, _, instruction, .nil _, hfetch, hexecute⟩
      | ok state =>
          rw [hstep] at hsweep hexecute
          obtain ⟨place, htraps⟩ := ih
            (fun other hother => hplain other (List.mem_cons_of_mem _ hother))
            (drop_succ_of_drop_eq_cons hcode) hsweep
          exact ⟨place, (Path.single hfetch hexecute).traps htraps⟩

end

/-! ## Sweeps that avoid a variable -/

section

variable {slot : Slot} {instruction : Instruction} {window : List Instruction}

theorem execute_set_of_avoids (havoids : instruction.avoids slot = true)
    (stack locals : List Int32) (value : Int32) :
    execute [] ⟨0, stack, locals.set slot.toNat value⟩ instruction =
      match execute [] ⟨0, stack, locals⟩ instruction with
      | .ok state => .ok { state with locals := state.locals.set slot.toNat value }
      | .error trap => .error trap := by
  have hne : ∀ other : Slot, other ≠ slot → slot.toNat ≠ other.toNat := by
    intro other hother heq
    exact hother (UInt16.toNat_inj.mp heq.symm)
  cases instruction with
  | goto target => simp [Instruction.avoids] at havoids
  | branch condition target => simp [Instruction.avoids] at havoids
  | nop => rfl
  | label id => rfl
  | const constant => rfl
  | load kind other =>
      have hother := hne other (by simpa [Instruction.avoids] using havoids)
      simp only [execute, List.getElem?_set_ne hother]
      cases locals[other.toNat]? <;> rfl
  | increment other amount =>
      have hother := hne other (by simpa [Instruction.avoids] using havoids)
      simp only [execute, List.getElem?_set_ne hother]
      cases locals[other.toNat]? with
      | none => rfl
      | some old => simp [List.set_comm _ _ hother]
  | store kind other =>
      have hother := hne other (by simpa [Instruction.avoids] using havoids)
      cases stack with
      | nil => rfl
      | cons top stack =>
          simp only [execute, List.length_set]
          split
          · simp [List.set_comm _ _ hother]
          · rfl
  | binary operator =>
      rcases stack with _ | ⟨right, _ | ⟨left, stack⟩⟩
      · rfl
      · rfl
      · simp only [execute]
        cases operator.evaluate? left right <;> rfl
  | _ => cases stack <;> rfl

/-- Code that avoids a variable and then writes it does not depend on its value. -/
theorem sweep_set_of_overwritten (havoids : ∀ instruction ∈ window, instruction.avoids slot = true)
    (kind : Kind) (stack locals : List Int32) (value : Int32) :
    sweep (window ++ [.store kind slot]) stack (locals.set slot.toNat value) =
        sweep (window ++ [.store kind slot]) stack locals ∧
      swept (window ++ [.store kind slot]) stack (locals.set slot.toNat value) =
        swept (window ++ [.store kind slot]) stack locals := by
  induction window generalizing stack locals with
  | nil =>
      cases stack with
      | nil => exact ⟨rfl, rfl⟩
      | cons top stack => simp [sweep, swept, execute]
  | cons instruction rest ih =>
      have hset := execute_set_of_avoids (havoids instruction (by simp)) stack locals value
      rw [List.cons_append, sweep, swept, hset, sweep, swept]
      cases execute [] ⟨0, stack, locals⟩ instruction with
      | error trap => exact ⟨rfl, rfl⟩
      | ok state =>
          obtain ⟨hsweep, hswept⟩ := ih
            (fun other hother => havoids other (List.mem_cons_of_mem _ hother))
            state.stack state.locals
          exact ⟨hsweep, congrArg (instruction :: ·) hswept⟩

end

end Machine

end Peephole
