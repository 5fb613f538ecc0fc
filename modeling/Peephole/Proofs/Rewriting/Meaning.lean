import Peephole.Proofs.Rewriting
import Peephole.Proofs.Machine.Window

/-!
# Rewrites keep the meaning of code

Well-formed code is refined by whatever a rewrite makes of it.  Each rewrite
exchanges a window, so it is followed from the start of the window to a place
where both machines are aligned again.
-/

namespace Peephole

open Code Machine

namespace Code

variable {before window code after : List Instruction}

/-- The jumps around a window go to labels around it if none goes to a label inside. -/
theorem WellFormed.outside (hwell : WellFormed (before ++ window ++ after))
    (hinside : ∀ id ∈ definitions window ++ definitions code, id ∉ targets (before ++ after)) :
    ∀ id ∈ targets (before ++ after), id ∈ definitions (before ++ after) ∧
      id ∉ definitions window ∧ id ∉ definitions code := by
  intro id hid
  have hwindow : id ∉ definitions window :=
    fun hmem => hinside id (List.mem_append_left _ hmem) hid
  have hdefined : id ∈ definitions (before ++ window ++ after) := by
    apply hwell.closed
    simp only [targets_append, List.mem_append] at hid ⊢
    exact hid.elim (fun h => .inl (.inl h)) .inr
  refine ⟨?_, hwindow, fun hmem => hinside id (List.mem_append_right _ hmem) hid⟩
  simp only [definitions_append, List.mem_append] at hdefined ⊢
  exact hdefined.imp_left (fun h => h.resolve_right hwindow)

end Code

namespace Rewrites

variable {before window code after left right : List Instruction}
variable {stack locals : List Int32}

/-! ## Windows without jumps -/

theorem refines_of_sweep (hwell : WellFormed (before ++ window ++ after))
    (hinside : ∀ id ∈ definitions window ++ definitions code, id ∉ targets (before ++ after))
    (hplain : ∀ instruction ∈ window ++ code, instruction.target? = none)
    (hsize : size code ≤ size window)
    (hsweep : ∀ stack locals,
      match sweep window stack locals with
      | .ok result => sweep code stack locals = .ok result
      | .error trap => trap = .divisionByZero →
          sweep code stack locals = .error .divisionByZero ∧
            size (swept code stack locals) ≤ size (swept window stack locals)) :
    Refines (before ++ window ++ after) (before ++ code ++ after) := by
  refine refines_of_window (hwell.outside hinside) fun stack locals => ?_
  have hwindow := fun i hi => hplain i (List.mem_append_left code hi)
  have hcode := fun i hi => hplain i (List.mem_append_right window hi)
  have hdrop : (before ++ window ++ after).drop before.length = window ++ after := by simp
  have hdrop' : (before ++ code ++ after).drop before.length = code ++ after := by simp
  have hstep := hsweep stack locals
  cases hresult : sweep window stack locals with
  | ok result =>
      rw [hresult] at hstep
      obtain ⟨stack', locals'⟩ := result
      exact .advance (path_of_sweep hwindow hdrop hresult) (path_of_sweep hcode hdrop' hstep)
        hsize (.after 0) (.inr (Nat.zero_lt_one))
  | error trap =>
      rw [hresult] at hstep
      obtain ⟨place, htraps⟩ := traps_of_sweep hwindow hdrop hresult
      by_cases hdivision : trap = .divisionByZero
      · obtain ⟨hresult', hwork⟩ := hstep hdivision
        obtain ⟨place', htraps'⟩ := traps_of_sweep hcode hdrop' hresult'
        rw [hdivision] at htraps
        exact .divide htraps htraps' hwork
      · exact .fail htraps (mt Trap.relocate_eq_divisionByZero_iff.mp hdivision)

theorem refines_of_replaceable (hwell : WellFormed (before ++ window ++ after))
    (hreplaceable : Replaceable window code) :
    Refines (before ++ window ++ after) (before ++ code ++ after) := by
  obtain ⟨hwindow, hcode⟩ := hreplaceable.definitions_eq_nil
  refine refines_of_sweep hwell (by simp [hwindow, hcode])
    (fun i hi => (hreplaceable.plain i hi).2) ?_ fun stack locals => ?_
  · have hlighter := hreplaceable.lighter
    rw [size_eq_length hwindow, size_eq_length hcode]
    omega
  · have hcovers := hreplaceable.covers stack locals
    cases hresult : sweep window stack locals with
    | ok result => simpa [hresult] using hcovers
    | error trap =>
        rw [hresult] at hcovers
        exact fun hdivision => absurd hdivision hcovers

theorem refines_of_deadLabel {id : LabelId}
    (hwell : WellFormed (before ++ [Instruction.label id] ++ after))
    (hdead : id ∉ targets (before ++ after)) :
    Refines (before ++ [Instruction.label id] ++ after) (before ++ [] ++ after) :=
  refines_of_sweep hwell (by simpa using hdead) (by simp) (by simp)
    fun stack locals => by simp [sweep, execute]

theorem refines_of_freshLabel {id : LabelId} (hwell : WellFormed (before ++ [] ++ after))
    (hfresh : id ∉ targets (before ++ after)) :
    Refines (before ++ [] ++ after) (before ++ [Instruction.label id] ++ after) :=
  refines_of_sweep hwell (by simpa using hfresh) (by simp) (by simp)
    fun stack locals => by simp [sweep, execute]

/-- Until the variable is written again, its value does not matter. -/
theorem refines_of_storeLoad {middle : List Instruction} {kind kind' : Kind} {slot : Slot}
    (hwell : WellFormed (before ++ ([.store kind slot, .load kind slot] ++
      (middle ++ [Instruction.store kind' slot])) ++ after))
    (havoids : ∀ instruction ∈ middle, instruction.avoids slot = true)
    (hdead : ∀ id ∈ definitions middle, id ∉ targets (before ++ after)) :
    Refines
      (before ++ ([.store kind slot, .load kind slot] ++
        (middle ++ [Instruction.store kind' slot])) ++ after)
      (before ++ (middle ++ [Instruction.store kind' slot]) ++ after) := by
  refine refines_of_sweep hwell ?_ ?_ ?_ fun stack locals => ?_
  · simpa [Instruction.label?] using hdead
  · have hrest : ∀ instruction ∈ middle ++ [Instruction.store kind' slot],
        instruction.target? = none :=
      List.forall_mem_append.mpr
        ⟨fun i hi => Instruction.target?_of_avoids (havoids i hi), by simp [Instruction.target?]⟩
    exact List.forall_mem_append.mpr
      ⟨List.forall_mem_append.mpr ⟨by simp [Instruction.target?], hrest⟩, hrest⟩
  · simp only [size_append]
    omega
  · obtain ⟨rest, hrest⟩ : ∃ rest, rest = middle ++ [Instruction.store kind' slot] := ⟨_, rfl⟩
    cases stack with
    | nil => simp [sweep, execute]
    | cons value stack =>
        by_cases hslot : slot.toNat < locals.length
        · obtain ⟨hsweep, hswept⟩ := sweep_set_of_overwritten havoids kind' (value :: stack)
            locals value
          rw [← hrest] at hsweep hswept ⊢
          simp only [List.cons_append, List.nil_append, sweep, swept, execute, hslot, if_true,
            List.getElem?_set_self, hsweep, hswept, size_cons]
          cases hresult : sweep rest (value :: stack) locals with
          | ok result => rfl
          | error trap =>
              rintro rfl
              exact ⟨rfl, by omega⟩
        · simp [sweep, execute, hslot]

/-! ## Windows with jumps -/

/-- A jump from anywhere to a label outside the window lands at places that
correspond. -/
theorem landing_of_target (id : LabelId) (code : List Instruction)
    (hwell : WellFormed (before ++ window ++ after))
    (hid : id ∈ targets (before ++ window ++ after)) (hwindow : id ∉ definitions window)
    (hcode : id ∉ definitions code) :
    ∃ index index', labelIndex? id (before ++ window ++ after) = some index ∧
      labelIndex? id (before ++ code ++ after) = some index' ∧
      ∀ stack locals, ∃ rank, Aligned before.length window.length code.length rank
        ⟨index, stack, locals⟩ ⟨index', stack, locals⟩ := by
  refine exists_landing window code ?_ hwindow hcode
  have hdefined := hwell.closed id hid
  simp only [definitions_append, List.mem_append] at hdefined ⊢
  exact hdefined.imp_left (fun h => h.resolve_right hwindow)

theorem labelIndex?_window {id : LabelId} (left right : List Instruction)
    (hwell : WellFormed (before ++ (left ++ Instruction.label id :: right) ++ after)) :
    labelIndex? id (before ++ (left ++ Instruction.label id :: right) ++ after) =
      some (before.length + left.length) := by
  have hsplit : before ++ (left ++ Instruction.label id :: right) ++ after =
      (before ++ left) ++ Instruction.label id :: (right ++ after) := by
    simp
  rw [labelIndex?_of_split hwell hsplit, List.length_append]

theorem refines_of_constantTaken {value : Int32} {check : ZeroTest} {target : LabelId}
    (hwell :
      WellFormed (before ++ [Instruction.const value, .branch (.test check) target] ++ after))
    (hcheck : check.holds value = true) :
    Refines (before ++ [Instruction.const value, .branch (.test check) target] ++ after)
      (before ++ [Instruction.goto target] ++ after) := by
  refine refines_of_window (hwell.outside (by simp)) fun stack locals => ?_
  have hfetch := getElem?_of_split
    (List.append_assoc before [.const value, .branch (.test check) target] after)
  have hfetch' := getElem?_of_split (List.append_assoc before [.goto target] after)
  obtain ⟨index, index', hindex, hindex', hlanding⟩ :=
    landing_of_target target [.goto target] hwell (by simp) (by simp) (by simp)
  obtain ⟨rank, haligned⟩ := hlanding stack locals
  have hask : (Condition.test check).ask (value :: stack) = some (true, stack) := by
    simp [Condition.ask, hcheck]
  exact .advance ((path_const (hfetch 0)).append (path_branch_taken (hfetch 1) hask hindex))
    (path_goto (hfetch' 0) hindex') (by simp) haligned (.inl ⟨by simp, by simp⟩)

theorem refines_of_constantPassed {value : Int32} {check : ZeroTest} {target : LabelId}
    (hwell :
      WellFormed (before ++ [Instruction.const value, .branch (.test check) target] ++ after))
    (hcheck : check.holds value = false) :
    Refines (before ++ [Instruction.const value, .branch (.test check) target] ++ after)
      (before ++ [] ++ after) := by
  refine refines_of_window (hwell.outside (by simp)) fun stack locals => ?_
  have hfetch := getElem?_of_split
    (List.append_assoc before [.const value, .branch (.test check) target] after)
  have hask : (Condition.test check).ask (value :: stack) = some (false, stack) := by
    simp [Condition.ask, hcheck]
  exact .advance ((path_const (hfetch 0)).append (path_branch_passed (hfetch 1) hask))
    (.nil _) (by simp) (.after 0) (.inr Nat.zero_lt_one)

theorem refines_of_unreachable {target : LabelId} {dead : Instruction}
    (hwell : WellFormed (before ++ [Instruction.goto target, dead] ++ after))
    (hlabel : dead.label? = none) :
    Refines (before ++ [Instruction.goto target, dead] ++ after)
      (before ++ [Instruction.goto target] ++ after) := by
  refine refines_of_window (hwell.outside (by simp [hlabel])) fun stack locals => ?_
  have hfetch := getElem?_of_split (List.append_assoc before [.goto target, dead] after)
  have hfetch' := getElem?_of_split (List.append_assoc before [.goto target] after)
  obtain ⟨index, index', hindex, hindex', hlanding⟩ :=
    landing_of_target target [.goto target] hwell (by simp) (by simp [hlabel]) (by simp)
  obtain ⟨rank, haligned⟩ := hlanding stack locals
  exact .advance (path_goto (hfetch 0) hindex) (path_goto (hfetch' 0) hindex') (Nat.le_refl _)
    haligned (.inl ⟨by simp, by simp⟩)

theorem sweep_labels (labels : List LabelId) (stack locals : List Int32) :
    sweep (labels.map .label) stack locals = .ok (stack, locals) := by
  induction labels with
  | nil => rfl
  | cons id labels ih => simpa [sweep, execute] using ih

theorem size_labels (labels : List LabelId) : size (labels.map .label) = 0 := by
  induction labels with
  | nil => rfl
  | cons id labels ih => simpa using ih

theorem refines_of_gotoNext {labels : List LabelId} {target : LabelId}
    (hwell : WellFormed (before ++ [Instruction.goto target] ++
      (labels.map .label ++ Instruction.label target :: after))) :
    Refines
      (before ++ [Instruction.goto target] ++
        (labels.map .label ++ Instruction.label target :: after))
      (before ++ [] ++ (labels.map .label ++ Instruction.label target :: after)) := by
  refine refines_of_window (hwell.outside (by simp)) fun stack locals => ?_
  have hfetch := getElem?_of_split (List.append_assoc before [.goto target]
    (labels.map .label ++ Instruction.label target :: after))
  have hindex : labelIndex? target (before ++ [Instruction.goto target] ++
      (labels.map .label ++ Instruction.label target :: after)) =
        some (before.length + 1 + labels.length) := by
    rw [labelIndex?_of_split hwell (List.append_assoc _ _ _).symm]
    simp
    omega
  have hplain : ∀ instruction ∈ labels.map Instruction.label, instruction.target? = none := by
    simp
  have hdrop : List.drop before.length (before ++ [] ++ (labels.map .label ++
      .label target :: after)) = labels.map .label ++ Instruction.label target :: after := by
    simp
  have hpath := path_of_sweep hplain hdrop (sweep_labels labels stack locals)
  rw [List.length_map] at hpath
  exact .advance (path_goto (hfetch 0) hindex) hpath (by simp [size_labels])
    (.after labels.length) (.inr Nat.zero_lt_one)

/-- A jump to a jump. -/
theorem refines_of_chain {jump : Instruction} {target final : LabelId}
    (hwell : WellFormed (before ++ [jump] ++ after)) (hjump : jump.target? = some target)
    (hlanding : before ++ [jump] ++ after =
      left ++ Instruction.label target :: .goto final :: right) :
    Refines (before ++ [jump] ++ after) (before ++ [jump.retarget final] ++ after) := by
  have hretarget := Instruction.target?_retarget hjump final
  have hlabel := Instruction.label?_eq_none_of_target? hjump
  have hlabel' := Instruction.label?_eq_none_of_target? hretarget
  refine refines_of_window (hwell.outside (by simp [hlabel, hlabel'])) fun stack locals => ?_
  have hfetch := getElem?_of_split (List.append_assoc before [jump] after) 0
  have hfetch' := getElem?_of_split (List.append_assoc before [jump.retarget final] after) 0
  have hland := getElem?_of_split hlanding
  have htarget := labelIndex?_of_split hwell hlanding
  have hfinal : final ∈ targets (before ++ [jump] ++ after) := by simp [hlanding]
  obtain ⟨index, index', hindex, hindex', haligned⟩ :=
    landing_of_target final [jump.retarget final] hwell hfinal (by simp [hlabel])
      (by simp [hlabel'])
  have honward : ∀ stack, Path (before ++ [jump] ++ after) ⟨left.length, stack, locals⟩
      [.label target, .goto final] ⟨index, stack, locals⟩ := fun stack =>
    (path_label (hland 0)).append (path_goto (hland 1) hindex)
  cases jump with
  | goto target =>
      obtain rfl := Option.some.inj hjump
      obtain ⟨rank, haligned⟩ := haligned stack locals
      exact .advance ((path_goto hfetch htarget).append (honward stack))
        (path_goto hfetch' hindex') (by simp) haligned (.inl ⟨by simp, by simp⟩)
  | branch condition target =>
      obtain rfl := Option.some.inj hjump
      rcases hask : condition.ask stack with _ | ⟨taken, rest⟩
      · exact .fail (traps_branch hfetch hask) (by simp)
      · cases taken with
        | true =>
            obtain ⟨rank, haligned⟩ := haligned rest locals
            exact .advance ((path_branch_taken hfetch hask htarget).append (honward rest))
              (path_branch_taken hfetch' hask hindex') (by simp) haligned
              (.inl ⟨by simp, by simp⟩)
        | false =>
            exact .advance (path_branch_passed hfetch hask) (path_branch_passed hfetch' hask)
              (Nat.le_refl _) (.after 0) (.inl ⟨by simp, by simp⟩)
  | _ => cases hjump

/-- A constant and a jump to a test of it. -/
theorem refines_of_through {value : Int32} {check : ZeroTest} {target skipped final : LabelId}
    (hwell : WellFormed (before ++ [Instruction.const value, .goto target] ++ after))
    (hlanding : before ++ [Instruction.const value, .goto target] ++ after =
      left ++ Instruction.label target :: .branch (.test check) skipped :: right)
    (hfinal : labelIndex? final (before ++ [Instruction.const value, .goto target] ++ after) =
      if check.holds value then
        labelIndex? skipped (before ++ [Instruction.const value, .goto target] ++ after)
      else some (left.length + 2))
    (hdefined : final ∈ definitions (before ++ after)) :
    Refines (before ++ [Instruction.const value, .goto target] ++ after)
      (before ++ [Instruction.goto final] ++ after) := by
  refine refines_of_window (hwell.outside (by simp)) fun stack locals => ?_
  have hfetch := getElem?_of_split (List.append_assoc before [.const value, .goto target] after)
  have hfetch' := getElem?_of_split (List.append_assoc before [.goto final] after)
  have hland := getElem?_of_split hlanding
  have htarget := labelIndex?_of_split hwell hlanding
  obtain ⟨index, index', hindex, hindex', haligned⟩ :=
    exists_landing [.const value, .goto target] [.goto final] hdefined (by simp) (by simp)
  obtain ⟨rank, haligned⟩ := haligned stack locals
  have hentry : Path (before ++ [Instruction.const value, .goto target] ++ after)
      ⟨before.length, stack, locals⟩ [.const value, .goto target, .label target]
      ⟨left.length + 1, value :: stack, locals⟩ :=
    (path_const (hfetch 0)).append ((path_goto (hfetch 1) htarget).append (path_label (hland 0)))
  have hask : (Condition.test check).ask (value :: stack) = some (check.holds value, stack) := rfl
  have hleave : Path (before ++ [Instruction.const value, .goto target] ++ after)
      ⟨left.length + 1, value :: stack, locals⟩ [.branch (.test check) skipped]
      ⟨index, stack, locals⟩ := by
    rw [hindex] at hfinal
    cases hcheck : check.holds value with
    | true =>
        rw [hcheck, if_pos rfl] at hfinal
        exact path_branch_taken (hland 1) (hcheck ▸ hask) hfinal.symm
    | false =>
        rw [hcheck, if_neg Bool.false_ne_true] at hfinal
        obtain rfl := Option.some.inj hfinal
        exact path_branch_passed (hland 1) (hcheck ▸ hask)
  exact .advance (hentry.append hleave) (path_goto (hfetch' 0) hindex') (by simp) haligned
    (.inl ⟨by simp, by simp⟩)

theorem refines_of_throughTaken {value : Int32} {check : ZeroTest} {target final : LabelId}
    (hwell : WellFormed (before ++ [Instruction.const value, .goto target] ++ after))
    (hlanding : before ++ [Instruction.const value, .goto target] ++ after =
      left ++ Instruction.label target :: .branch (.test check) final :: right)
    (hcheck : check.holds value = true) :
    Refines (before ++ [Instruction.const value, .goto target] ++ after)
      (before ++ [Instruction.goto final] ++ after) := by
  have hdefined := hwell.closed final (by simp [hlanding])
  exact refines_of_through hwell hlanding (by rw [if_pos hcheck]) (by simpa using hdefined)

theorem refines_of_throughPassed {value : Int32} {check : ZeroTest}
    {target skipped next : LabelId}
    (hwell : WellFormed (before ++ [Instruction.const value, .goto target] ++ after))
    (hlanding : before ++ [Instruction.const value, .goto target] ++ after =
      left ++ Instruction.label target :: .branch (.test check) skipped :: .label next :: right)
    (hcheck : check.holds value = false) :
    Refines (before ++ [Instruction.const value, .goto target] ++ after)
      (before ++ [Instruction.goto next] ++ after) := by
  have hnext : labelIndex? next (before ++ [Instruction.const value, .goto target] ++ after) =
      some (left.length + 2) := by
    have hsplit := hlanding.trans
      (List.append_assoc left [.label target, .branch (.test check) skipped] _).symm
    rw [labelIndex?_of_split hwell hsplit, List.length_append]
    rfl
  have hdefined :
      next ∈ definitions (before ++ [Instruction.const value, .goto target] ++ after) := by
    rw [hlanding, mem_definitions]
    simp
  exact refines_of_through hwell hlanding (by rw [hcheck, if_neg Bool.false_ne_true, hnext])
    (by simpa using hdefined)

/-- The label after the test is put in first, where nothing jumps to it yet. -/
theorem refines_of_throughSplit {value : Int32} {check : ZeroTest}
    {target skipped fresh : LabelId}
    (hwell :
      WellFormed (left ++ Instruction.label target :: .branch (.test check) skipped :: right))
    (hlanding : before ++ [Instruction.const value, .goto target] ++ after =
      left ++ Instruction.label target :: .branch (.test check) skipped :: .label fresh :: right)
    (hcheck : check.holds value = false)
    (hfresh : fresh ∉ definitions
      (left ++ Instruction.label target :: .branch (.test check) skipped :: right)) :
    Refines (left ++ Instruction.label target :: .branch (.test check) skipped :: right)
      (before ++ [Instruction.goto fresh] ++ after) := by
  obtain ⟨front, hfront⟩ : ∃ front,
      front = left ++ [Instruction.label target, .branch (.test check) skipped] := ⟨_, rfl⟩
  have hold : left ++ Instruction.label target :: .branch (.test check) skipped :: right =
      front ++ right := by
    simp [hfront]
  have hnew : before ++ [Instruction.const value, .goto target] ++ after =
      front ++ Instruction.label fresh :: right := by
    simp [hfront, hlanding]
  rw [hold] at hwell hfresh ⊢
  have hwell' := hwell.insert hfresh
  have hinsert : Refines (front ++ right) (front ++ Instruction.label fresh :: right) := by
    have hjump : fresh ∉ targets (front ++ right) := fun hid => hfresh (hwell.closed fresh hid)
    simpa using refines_of_freshLabel (by simpa using hwell) hjump
  rw [← hnew] at hwell' hinsert
  exact hinsert.trans (refines_of_throughPassed hwell' hlanding hcheck)

/-- A conditional jump over a jump. -/
theorem refines_of_invert {condition : Condition} {skip target : LabelId}
    (hwell : WellFormed (before ++ [Instruction.branch condition skip, .goto target] ++
      .label skip :: after)) :
    Refines
      (before ++ [Instruction.branch condition skip, .goto target] ++
        Instruction.label skip :: after)
      (before ++ [Instruction.branch condition.negate target] ++
        Instruction.label skip :: after) := by
  refine refines_of_window (hwell.outside (by simp)) fun stack locals => ?_
  have hfetch := getElem?_of_split (List.append_assoc before
    [.branch condition skip, .goto target] (.label skip :: after))
  have hfetch' := getElem?_of_split (List.append_assoc before
    [.branch condition.negate target] (.label skip :: after)) 0
  have hskip : labelIndex? skip (before ++ [Instruction.branch condition skip, .goto target] ++
      .label skip :: after) = some (before.length + 2) := by
    simpa using labelIndex?_of_split hwell rfl
  obtain ⟨index, index', hindex, hindex', hlanding⟩ := landing_of_target target
    [.branch condition.negate target] hwell (by simp) (by simp) (by simp)
  have hnegate := condition.ask_negate stack
  rcases hask : condition.ask stack with _ | ⟨taken, rest⟩
  · exact .fail (traps_branch (hfetch 0) hask) (by simp)
  · rw [hask] at hnegate
    cases taken with
    | true =>
        exact .advance (path_branch_taken (hfetch 0) hask hskip)
          (path_branch_passed hfetch' hnegate) (by simp) (.after 0) (.inl ⟨by simp, by simp⟩)
    | false =>
        obtain ⟨rank, haligned⟩ := hlanding rest locals
        exact .advance ((path_branch_passed (hfetch 0) hask).append (path_goto (hfetch 1) hindex))
          (path_branch_taken hfetch' hnegate hindex') (by simp) haligned (.inl ⟨by simp, by simp⟩)

/-- Of two values, one zero and one not, exactly one passes a test. -/
theorem holds_of_values {otherwise value : Int32} (check : ZeroTest)
    (hvalues : ((otherwise == 0) != (value == 0)) = true) :
    check.holds otherwise = (false == check.holds value) := by
  rw [bne_iff_ne] at hvalues
  cases hotherwise : otherwise == 0 <;> cases hvalue : value == 0 <;>
    cases check <;> simp_all [ZeroTest.holds, bne]

theorem ask_kept (condition : Condition) (holding : Bool) (stack : List Int32) :
    (if holding then condition else condition.negate).ask stack =
      (condition.ask stack).map fun answer => (answer.1 == holding, answer.2) := by
  cases holding with
  | true => simp
  | false => simp [Condition.ask_negate]

/-- Both ways through a comparison leave a value on the stack, with a label and a
test of it ahead. -/
theorem exists_path_to_test {source : List Instruction} {start : Nat} {condition : Condition}
    {otherwise value : Int32} {holds finish : LabelId} {taken : Bool} {rest : List Int32}
    (hbranch : source[start]? = some (.branch condition holds))
    (hotherwise : source[start + 1]? = some (.const otherwise))
    (hgoto : source[start + 2]? = some (.goto finish))
    (hlabel : source[start + 3]? = some (.label holds))
    (hvalue : source[start + 4]? = some (.const value))
    (hholds : labelIndex? holds source = some (start + 3))
    (hfinish : labelIndex? finish source = some (start + 5))
    (hask : condition.ask stack = some (taken, rest)) (locals : List Int32) :
    ∃ trace, Path source ⟨start, stack, locals⟩ trace
        ⟨start + 5, (if taken then value else otherwise) :: rest, locals⟩ ∧
      1 ≤ size trace := by
  cases taken with
  | true =>
      exact ⟨_, (path_branch_taken hbranch hask hholds).append
        ((path_label hlabel).append (path_const hvalue)), by simp⟩
  | false =>
      exact ⟨_, (path_branch_passed hbranch hask).append
        ((path_const hotherwise).append (path_goto hgoto hfinish)), by simp⟩

theorem refines_of_collapse {condition : Condition} {otherwise value : Int32} {check : ZeroTest}
    {holds finish target : LabelId}
    (hwell : WellFormed (before ++ [Instruction.branch condition holds, .const otherwise,
      .goto finish, .label holds, .const value, .label finish,
      .branch (.test check) target] ++ after))
    (hvalues : ((otherwise == 0) != (value == 0)) = true)
    (hholds : holds ∉ targets before ++ [finish, target] ++ targets after)
    (hfinish : finish ∉ targets before ++ [holds, target] ++ targets after) :
    Refines (before ++ [Instruction.branch condition holds, .const otherwise, .goto finish,
        .label holds, .const value, .label finish, .branch (.test check) target] ++ after)
      (before ++
        [Instruction.branch (if check.holds value then condition else condition.negate) target] ++
        after) := by
  have hinside : ∀ id ∈ [holds, finish], id ∉ targets (before ++ after) := by
    simp only [targets_append, List.mem_append, List.mem_cons] at hholds hfinish ⊢
    grind
  have htarget : target ∉ [holds, finish] := by
    simp only [List.mem_append, List.mem_cons] at hholds hfinish ⊢
    grind
  refine refines_of_window (hwell.outside hinside) fun stack locals => ?_
  have hfetch := getElem?_of_split (List.append_assoc before [.branch condition holds,
    .const otherwise, .goto finish, .label holds, .const value, .label finish,
    .branch (.test check) target] after)
  have hfetch' := getElem?_of_split (List.append_assoc before
    [.branch (if check.holds value then condition else condition.negate) target] after) 0
  obtain ⟨index, index', hindex, hindex', hlanding⟩ := landing_of_target target
    [.branch (if check.holds value then condition else condition.negate) target] hwell (by simp)
    htarget (by simp)
  have hholdsSite := labelIndex?_window [_, _, _] [_, _, _] hwell
  have hfinishSite := labelIndex?_window [_, _, _, _, _] [_] hwell
  have hkept := ask_kept condition (check.holds value) stack
  rcases hask : condition.ask stack with _ | ⟨taken, rest⟩
  · exact .fail (traps_branch (hfetch 0) hask) (by simp)
  · rw [hask] at hkept
    obtain ⟨trace, hpath, hwork⟩ := exists_path_to_test (hfetch 0) (hfetch 1) (hfetch 2)
      (hfetch 3) (hfetch 4) hholdsSite hfinishSite hask locals
    have hpath := hpath.append (path_label (hfetch 5))
    have hanswer : (Condition.test check).ask ((if taken then value else otherwise) :: rest) =
        some (taken == check.holds value, rest) := by
      have hvalue := holds_of_values check hvalues
      cases taken <;> simp [Condition.ask, hvalue]
    cases hgoes : taken == check.holds value with
    | true =>
        rw [hgoes] at hanswer
        simp only [Option.map_some, hgoes] at hkept
        obtain ⟨rank, haligned⟩ := hlanding rest locals
        exact .advance (hpath.append (path_branch_taken (hfetch 6) hanswer hindex))
          (path_branch_taken hfetch' hkept hindex') (by simp) haligned
          (.inl ⟨by simp, by simp⟩)
    | false =>
        rw [hgoes] at hanswer
        simp only [Option.map_some, hgoes] at hkept
        exact .advance (hpath.append (path_branch_passed (hfetch 6) hanswer))
          (path_branch_passed hfetch' hkept) (by simp) (.after 0) (.inl ⟨by simp, by simp⟩)

/-- Code is refined by all that a rewrite can make of it. -/
theorem refines (hrewrites : Rewrites before after) (hwell : WellFormed before) :
    Refines before after := by
  cases hrewrites with
  | contract hreplaceable => exact refines_of_replaceable hwell hreplaceable
  | storeLoad havoids hdead =>
      simpa using refines_of_storeLoad (by simpa using hwell) havoids hdead
  | deadLabel hdead => simpa using refines_of_deadLabel hwell hdead
  | gotoNext => simpa using refines_of_gotoNext hwell
  | unreachable hlabel => exact refines_of_unreachable hwell hlabel
  | chain hjump hlanding _ => exact refines_of_chain hwell hjump hlanding
  | constantTaken hcheck => exact refines_of_constantTaken hwell hcheck
  | constantPassed hcheck => simpa using refines_of_constantPassed hwell hcheck
  | throughTaken hlanding hcheck => exact refines_of_throughTaken hwell hlanding hcheck
  | throughPassed hlanding hcheck => exact refines_of_throughPassed hwell hlanding hcheck
  | throughSplit hlanding hcheck hfresh _ =>
      exact refines_of_throughSplit hwell hlanding hcheck
        (fun hid => UInt32.lt_irrefl _ (hfresh _ hid))
  | invert => exact refines_of_invert hwell
  | collapse hvalues hholds hfinish => exact refines_of_collapse hwell hvalues hholds hfinish

end Rewrites

/-- What holds of one rewrite holds of all of them together. -/
theorem RewritesIn.refines {count : Nat} {before after : List Instruction}
    (hrewrites : RewritesIn count before after) : Refines before after := by
  induction hrewrites with
  | refl code => exact .refl code
  | step hwell hfirst _ ih => exact (hfirst.refines hwell).trans ih

end Peephole
