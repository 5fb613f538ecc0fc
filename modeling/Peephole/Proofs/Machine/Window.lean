import Peephole.Proofs.Machine.Simulation
import Peephole.Proofs.Machine.Sweep

/-!
# Exchanging a window

Code that stands in the place of a window, among instructions that stay as they
are, refines what was there before if it does so from the start of the window
on.  The instructions around the window must not jump into it.
-/

namespace Peephole

/-- The outcome of a condition, and what it leaves of the operand stack. -/
def Condition.ask : Condition → List Int32 → Option (Bool × List Int32)
  | .test check, value :: stack => some (check.holds value, stack)
  | .compare relation, right :: left :: stack => some (relation.holds left right, stack)
  | _, _ => none

theorem Condition.ask_negate (condition : Condition) (stack : List Int32) :
    condition.negate.ask stack =
      (condition.ask stack).map fun answer => (!answer.1, answer.2) := by
  cases condition with
  | test check =>
      cases stack with
      | nil => rfl
      | cons value stack => simp [negate, ask, ZeroTest.holds_negate]
  | compare relation =>
      rcases stack with _ | ⟨right, _ | ⟨left, stack⟩⟩
      · rfl
      · rfl
      · simp [negate, ask, Relation.holds_negate]

namespace Machine

open Code

section

variable {code after : List Instruction} {next index : Nat} {stack rest locals : List Int32}

theorem execute_branch (condition : Condition) (target : LabelId) :
    execute code ⟨next, stack, locals⟩ (.branch condition target) =
      match condition.ask stack with
      | some (taken, rest) => State.jump ⟨next, rest, locals⟩ code taken target
      | none => .error (.stackUnderflow next) := by
  cases condition with
  | test check => cases stack <;> rfl
  | compare relation => rcases stack with _ | ⟨right, _ | ⟨left, stack⟩⟩ <;> rfl

/-! ## Labels and their places -/

theorem labelIndex?_eq_none_iff {id : LabelId} :
    labelIndex? id code = none ↔ id ∉ definitions code := by
  induction code with
  | nil => simp [labelIndex?]
  | cons instruction rest ih =>
      rw [labelIndex?, definitions_cons]
      cases hindex : labelIndex? id rest with
      | none =>
          have hrest := ih.mp hindex
          by_cases hlabel : instruction = .label id
          · simp [hlabel]
          · have hnot : instruction.label? ≠ some id := mt label?_eq_some_iff.mp hlabel
            simpa [hlabel, hrest] using hnot
      | some index =>
          have hrest : id ∈ definitions rest :=
            Classical.byContradiction fun hnot => by simp [ih.mpr hnot] at hindex
          simp [hrest]

theorem labelIndex?_append (id : LabelId) (left right : List Instruction) :
    labelIndex? id (left ++ right) =
      ((labelIndex? id right).map (left.length + ·)).or (labelIndex? id left) := by
  induction left with
  | nil => cases hindex : labelIndex? id right <;> simp [labelIndex?, hindex]
  | cons instruction left ih =>
      rw [List.cons_append, labelIndex?, ih, labelIndex?]
      cases labelIndex? id right with
      | none => rfl
      | some index =>
          simp only [Option.map_some, List.length_cons, Option.some_or, Option.some.injEq]
          omega

theorem labelIndex?_of_split {id : LabelId} {left right : List Instruction}
    (hwell : WellFormed code) (hcode : code = left ++ .label id :: right) :
    labelIndex? id code = some left.length := by
  have hright := labelIndex?_eq_none_iff.mpr (hwell.not_mem_of_split hcode).2
  rw [hcode, labelIndex?_append, labelIndex?, hright]
  simp

theorem lt_length_of_labelIndex? {id : LabelId} (hindex : labelIndex? id code = some index) :
    index < code.length := by
  induction code generalizing index with
  | nil => simp [labelIndex?] at hindex
  | cons instruction rest ih =>
      rw [labelIndex?] at hindex
      cases hrest : labelIndex? id rest with
      | none =>
          simp only [hrest] at hindex
          split at hindex
          · obtain rfl := Option.some.inj hindex
            simp
          · cases hindex
      | some index' =>
          simp only [hrest] at hindex
          obtain rfl := Option.some.inj hindex
          have hlt := ih hrest
          rw [List.length_cons]
          omega

/-! ## Single instructions -/

theorem getElem?_of_split {left rest : List Instruction} (hcode : code = left ++ rest)
    (offset : Nat) : code[left.length + offset]? = rest[offset]? := by
  rw [hcode, List.getElem?_append_right (Nat.le_add_right _ _), Nat.add_sub_cancel_left]

theorem path_const {value : Int32} (hfetch : code[next]? = some (.const value)) :
    Path code ⟨next, stack, locals⟩ [.const value] ⟨next + 1, value :: stack, locals⟩ :=
  .single hfetch rfl

theorem path_label {id : LabelId} (hfetch : code[next]? = some (.label id)) :
    Path code ⟨next, stack, locals⟩ [.label id] ⟨next + 1, stack, locals⟩ :=
  .single hfetch rfl

theorem path_goto {target : LabelId} (hfetch : code[next]? = some (.goto target))
    (hindex : labelIndex? target code = some index) :
    Path code ⟨next, stack, locals⟩ [.goto target] ⟨index, stack, locals⟩ :=
  .single hfetch (by simp [execute, State.jump, hindex])

theorem path_branch_taken {condition : Condition} {target : LabelId}
    (hfetch : code[next]? = some (.branch condition target))
    (hask : condition.ask stack = some (true, rest))
    (hindex : labelIndex? target code = some index) :
    Path code ⟨next, stack, locals⟩ [.branch condition target] ⟨index, rest, locals⟩ :=
  .single hfetch (by simp [execute_branch, hask, State.jump, hindex])

theorem path_branch_passed {condition : Condition} {target : LabelId}
    (hfetch : code[next]? = some (.branch condition target))
    (hask : condition.ask stack = some (false, rest)) :
    Path code ⟨next, stack, locals⟩ [.branch condition target] ⟨next + 1, rest, locals⟩ :=
  .single hfetch (by simp [execute_branch, hask, State.jump])

theorem traps_branch {condition : Condition} {target : LabelId}
    (hfetch : code[next]? = some (.branch condition target))
    (hask : condition.ask stack = none) :
    Traps code ⟨next, stack, locals⟩ [] (.stackUnderflow next) :=
  ⟨_, _, .nil _, hfetch, by simp [execute_branch, hask]⟩

end

/-! ## Aligned states -/

/-- The same stack and variables, at places that correspond: up to the start of a
window they are the same, and after it they are off by its old and new width. -/
inductive Aligned (start width width' : Nat) : Nat → State → State → Prop
  | before {index : Nat} {stack locals : List Int32} (hindex : index ≤ start) :
      Aligned start width width' 1 ⟨index, stack, locals⟩ ⟨index, stack, locals⟩
  | after {stack locals : List Int32} (offset : Nat) :
      Aligned start width width' 0 ⟨start + width + offset, stack, locals⟩
        ⟨start + width' + offset, stack, locals⟩

/-- The simulation of code by code that has a window exchanged. -/
abbrev Handing (before window code after : List Instruction) : Nat → State → State → Prop :=
  Handover (before ++ window ++ after) (before ++ code ++ after)
    (Aligned before.length window.length code.length)

section

variable {before window code after : List Instruction} {stack locals : List Int32} {rank : Nat}

/-- A label outside the window is found at places that correspond. -/
theorem exists_landing (window code : List Instruction) {id : LabelId}
    (hid : id ∈ definitions (before ++ after)) (hwindow : id ∉ definitions window)
    (hcode : id ∉ definitions code) :
    ∃ index index', labelIndex? id (before ++ window ++ after) = some index ∧
      labelIndex? id (before ++ code ++ after) = some index' ∧
      ∀ stack locals, ∃ rank, Aligned before.length window.length code.length rank
        ⟨index, stack, locals⟩ ⟨index', stack, locals⟩ := by
  have hwindow := labelIndex?_eq_none_iff.mpr hwindow
  have hcode := labelIndex?_eq_none_iff.mpr hcode
  simp only [labelIndex?_append, hwindow, hcode, List.length_append]
  cases hafter : labelIndex? id after with
  | some offset => exact ⟨_, _, rfl, rfl, fun stack locals => ⟨0, .after offset⟩⟩
  | none =>
      cases hbefore : labelIndex? id before with
      | some index =>
          have hindex := Nat.le_of_lt (lt_length_of_labelIndex? hbefore)
          exact ⟨index, index, rfl, rfl, fun stack locals => ⟨1, .before hindex⟩⟩
      | none =>
          have hnot := labelIndex?_eq_none_iff.mp hafter
          have hnot' := labelIndex?_eq_none_iff.mp hbefore
          rw [definitions_append, List.mem_append] at hid
          exact absurd hid (not_or.mpr ⟨hnot', hnot⟩)

/-- The same instruction at places that correspond. -/
theorem handing_of_instruction {next next' : Nat} {instruction : Instruction}
    (hsource : (before ++ window ++ after)[next]? = some instruction)
    (htarget : (before ++ code ++ after)[next']? = some instruction)
    (hjump : ∀ id, instruction.target? = some id → id ∈ definitions (before ++ after) ∧
      id ∉ definitions window ∧ id ∉ definitions code)
    (hnext : ∀ stack locals, ∃ rank, Aligned before.length window.length code.length rank
      ⟨next + 1, stack, locals⟩ ⟨next' + 1, stack, locals⟩) :
    Handing before window code after rank ⟨next, stack, locals⟩ ⟨next', stack, locals⟩ := by
  cases hplain : instruction.target? with
  | none =>
      have hexecute := execute_of_plain hplain (before ++ window ++ after) next stack locals
      have hexecute' := execute_of_plain hplain (before ++ code ++ after) next' stack locals
      cases hstep : execute [] ⟨0, stack, locals⟩ instruction with
      | ok state =>
          rw [hstep] at hexecute hexecute'
          obtain ⟨rank', haligned⟩ := hnext state.stack state.locals
          exact .advance (.single hsource hexecute) (.single htarget hexecute') (Nat.le_refl _)
            haligned (.inl ⟨by simp, by simp⟩)
      | error trap =>
          rw [hstep] at hexecute hexecute'
          by_cases hdivision : trap = .divisionByZero
          · subst trap
            exact .divide ⟨_, _, .nil _, hsource, hexecute⟩ ⟨_, _, .nil _, htarget, hexecute'⟩
              (Nat.le_refl _)
          · exact .fail ⟨_, _, .nil _, hsource, hexecute⟩
              (mt Trap.relocate_eq_divisionByZero_iff.mp hdivision)
  | some id =>
      obtain ⟨hid, hwindow, hcode⟩ := hjump id hplain
      obtain ⟨index, index', hindex, hindex', hlanding⟩ :=
        exists_landing window code hid hwindow hcode
      cases instruction with
      | goto target =>
          obtain rfl := Option.some.inj hplain
          obtain ⟨rank', haligned⟩ := hlanding stack locals
          exact .advance (path_goto hsource hindex) (path_goto htarget hindex') (Nat.le_refl _)
            haligned (.inl ⟨by simp, by simp⟩)
      | branch condition target =>
          obtain rfl := Option.some.inj hplain
          rcases hask : condition.ask stack with _ | ⟨taken, rest⟩
          · exact .fail (traps_branch hsource hask) (by simp)
          · cases taken with
            | true =>
                obtain ⟨rank', haligned⟩ := hlanding rest locals
                exact .advance (path_branch_taken hsource hask hindex)
                  (path_branch_taken htarget hask hindex') (Nat.le_refl _) haligned
                  (.inl ⟨by simp, by simp⟩)
            | false =>
                obtain ⟨rank', haligned⟩ := hnext rest locals
                exact .advance (path_branch_passed hsource hask)
                  (path_branch_passed htarget hask) (Nat.le_refl _) haligned
                  (.inl ⟨by simp, by simp⟩)
      | _ => cases hplain

theorem getElem?_after (before window after : List Instruction) (offset : Nat) :
    (before ++ window ++ after)[before.length + window.length + offset]? = after[offset]? := by
  rw [← List.length_append, getElem?_of_split rfl]

/-- It is enough to look at what happens from the start of the window on. -/
theorem refines_of_window
    (hjumps : ∀ id ∈ targets (before ++ after), id ∈ definitions (before ++ after) ∧
      id ∉ definitions window ∧ id ∉ definitions code)
    (hwindow : ∀ stack locals, Handing before window code after 1
      ⟨before.length, stack, locals⟩ ⟨before.length, stack, locals⟩) :
    Refines (before ++ window ++ after) (before ++ code ++ after) := by
  have hsimulates : Simulates (before ++ window ++ after) (before ++ code ++ after)
      (Aligned before.length window.length code.length) := by
    intro rank state state' haligned
    cases haligned with
    | @before index stack locals hindex =>
        rcases Nat.lt_or_eq_of_le hindex with hlt | rfl
        · have hsource : (before ++ window ++ after)[index]? = some before[index] := by
            simp [List.getElem?_append, hlt]
          have htarget : (before ++ code ++ after)[index]? = some before[index] := by
            simp [List.getElem?_append, hlt]
          refine handing_of_instruction hsource htarget (fun id hid => hjumps id ?_)
            (fun stack locals => ⟨1, .before hlt⟩)
          rw [targets_append, List.mem_append]
          exact .inl (List.mem_filterMap.mpr ⟨_, List.getElem_mem hlt, hid⟩)
        · exact hwindow stack locals
    | @after stack locals offset =>
        cases hfetch : after[offset]? with
        | none =>
            refine .finish ?_ ?_ rfl rfl
            · rw [getElem?_after, hfetch]
            · rw [getElem?_after, hfetch]
        | some instruction =>
            refine handing_of_instruction ((getElem?_after _ _ _ _).trans hfetch)
              ((getElem?_after _ _ _ _).trans hfetch) (fun id hid => hjumps id ?_)
              (fun stack locals => ⟨0, .after (offset + 1)⟩)
            rw [targets_append, List.mem_append]
            exact .inr (List.mem_filterMap.mpr ⟨_, List.mem_of_getElem? hfetch, hid⟩)
  exact hsimulates.refines fun stack locals => ⟨1, .before (Nat.zero_le _)⟩

end

end Machine

end Peephole
