import Peephole.Proofs.Rewriting.Anchors
import Peephole.Proofs.Rewriting.Weight

/-!
# How often code can be rewritten

Every jump is charged for the open labels up to the one it goes to: no shortening
of chains can take it through more.  A jump that is sent somewhere else can start
over, but an instruction is gone then, and its price covers the jump.
-/

namespace Peephole

namespace Code

/-- The number of open labels up to a label. -/
def rank (opens : List LabelId) (target : LabelId) : Nat :=
  opens.countP (· ≤ target)

/-- The sum of the ranks of some jumps. -/
def toll (opens : List LabelId) : List LabelId → Nat
  | [] => 0
  | target :: jumps => rank opens target + toll opens jumps

/-- What the rewrites of some code can use up, at a price for each instruction that
allows for a number of open labels. -/
def potential (allowance : Nat) (code : List Instruction) : Nat :=
  (allowance + 2) * size code + products code + (definitions code).length +
    toll (openLabels code) (targets code)

/-! ## Ranks and tolls -/

variable {opens opens' jumps jumps' : List LabelId}

theorem rank_le_length (opens : List LabelId) (target : LabelId) :
    rank opens target ≤ opens.length :=
  List.countP_le_length

theorem rank_mono (hopens : opens'.Sublist opens) (target : LabelId) :
    rank opens' target ≤ rank opens target :=
  hopens.countP_le

/-- Going from an open label to a smaller one lowers the rank. -/
theorem rank_lt {target final : LabelId} (htarget : target ∈ opens) (hsmaller : final < target) :
    rank opens final < rank opens target := by
  obtain ⟨left, right, rfl⟩ := List.append_of_mem htarget
  have hrest : ∀ ids : List LabelId, rank ids final ≤ rank ids target := fun ids =>
    List.countP_mono_left fun id _ hid => by
      simpa using UInt32.le_trans (of_decide_eq_true hid) (UInt32.le_of_lt hsmaller)
  have hleft := hrest left
  have hright := hrest right
  have hnot : ¬ target ≤ final := UInt32.not_le.mpr hsmaller
  simp only [rank, List.countP_append, List.countP_cons, decide_eq_true_eq, hnot,
    UInt32.le_refl, if_true, if_false] at hleft hright ⊢
  omega

@[simp]
theorem toll_nil (opens : List LabelId) : toll opens [] = 0 := rfl

@[simp]
theorem toll_cons (opens : List LabelId) (target : LabelId) (jumps : List LabelId) :
    toll opens (target :: jumps) = rank opens target + toll opens jumps := rfl

@[simp]
theorem toll_append (opens jumps jumps' : List LabelId) :
    toll opens (jumps ++ jumps') = toll opens jumps + toll opens jumps' := by
  induction jumps with
  | nil => simp
  | cons target jumps ih => simp [ih, Nat.add_assoc]

theorem toll_le_of_rank_le (hrank : ∀ target ∈ jumps, rank opens' target ≤ rank opens target) :
    toll opens' jumps ≤ toll opens jumps := by
  induction jumps with
  | nil => exact Nat.le_refl 0
  | cons target jumps ih =>
      rw [toll_cons, toll_cons]
      exact Nat.add_le_add (hrank target (by simp))
        (ih fun other hother => hrank other (List.mem_cons_of_mem _ hother))

theorem toll_mono (hopens : opens'.Sublist opens) (hjumps : jumps'.Sublist jumps) :
    toll opens' jumps' ≤ toll opens jumps := by
  refine Nat.le_trans (toll_le_of_rank_le fun target _ => rank_mono hopens target) ?_
  induction hjumps with
  | slnil => exact Nat.le_refl _
  | cons target hsublist ih =>
      rw [toll_cons]
      omega
  | cons_cons target hsublist ih =>
      rw [toll_cons, toll_cons]
      omega

/-- A jump that goes elsewhere costs no more than there are open labels. -/
theorem toll_redirect {allowance : Nat} (jumps jumps' : List LabelId) (old final : LabelId)
    (hlength : opens'.length ≤ allowance)
    (hrank : ∀ target ∈ jumps ++ jumps', rank opens' target ≤ rank opens target) :
    toll opens' (jumps ++ [final] ++ jumps') ≤
      toll opens (jumps ++ [old] ++ jumps') + allowance := by
  have hkept := toll_le_of_rank_le hrank
  have hfinal := rank_le_length opens' final
  simp only [toll_append, toll_cons, toll_nil] at hkept ⊢
  omega

theorem toll_le_mul (opens jumps : List LabelId) :
    toll opens jumps ≤ jumps.length * opens.length := by
  induction jumps with
  | nil => simp
  | cons target jumps ih =>
      have hrank := rank_le_length opens target
      rw [toll_cons, List.length_cons, Nat.succ_mul]
      omega

theorem products_le_size (code : List Instruction) : products code ≤ size code := by
  refine List.countP_mono_left fun instruction _ hproduct => ?_
  rw [beq_iff_eq.mp hproduct]
  rfl

theorem length_targets_le_size (code : List Instruction) :
    (targets code).length ≤ size code := by
  induction code with
  | nil => exact Nat.le_refl 0
  | cons instruction code ih =>
      cases htarget : instruction.target? with
      | none =>
          rw [targets_cons, htarget, size_cons]
          simp only [Option.toList_none, List.nil_append]
          omega
      | some target =>
          have hlabel := Instruction.label?_eq_none_of_target? htarget
          simp [htarget, hlabel]
          omega

/-! ## Rewrites -/

variable {before after : List Instruction} {allowance : Nat}

/-- An instruction less pays for one more label and for the new way of a jump. -/
theorem potential_lt_of_size_lt (hsize : size after < size before)
    (hproducts : products after ≤ products before)
    (hrest : (definitions after).length + toll (openLabels after) (targets after) ≤
      (definitions before).length + toll (openLabels before) (targets before) + (allowance + 1)) :
    potential allowance after < potential allowance before := by
  have hprice := Nat.mul_le_mul_left (allowance + 2) (Nat.succ_le_of_lt hsize)
  rw [Nat.mul_succ] at hprice
  rw [potential, potential]
  omega

theorem potential_lt_of_tamer (htamer : Tamer after before) (hsize : size after < size before)
    (hproducts : products after ≤ products before)
    (hlabels : (definitions after).length ≤ (definitions before).length)
    (htargets : (targets after).Sublist (targets before)) :
    potential allowance after < potential allowance before := by
  have htoll := toll_mono htamer.opens htargets
  exact potential_lt_of_size_lt hsize hproducts (by omega)

theorem quiet_of_plain {code : List Instruction} (hcode : code ≠ [])
    (hplain : ∀ instruction ∈ code, instruction.label? = none ∧ instruction.target? = none) :
    Quiet code := by
  refine ⟨hcode, List.filterMap_eq_nil_iff.mpr fun i hi => (hplain i hi).1, ?_⟩
  obtain ⟨instruction, rest, rfl⟩ := List.exists_cons_of_ne_nil hcode
  have htarget := (hplain instruction (by simp)).2
  cases instruction with
  | branch condition target => cases htarget
  | _ => rfl

end Code

open Code

namespace Replaceable

variable {window code : List Instruction}

theorem tamer (hreplaceable : Replaceable window code) (after : List Instruction) :
    Tamer (code ++ after) (window ++ after) := by
  have hplain := hreplaceable.plain
  refine (quiet_of_plain hreplaceable.window_ne_nil
    fun i hi => hplain i (List.mem_append_left _ hi)).tamer ?_ after
  by_cases hcode : code = []
  · exact .inl hcode
  · exact .inr (quiet_of_plain hcode fun i hi => hplain i (List.mem_append_right _ hi))

end Replaceable

namespace Rewrites

/-- Some code that can be rewritten into other code at the cost of its potential. -/
structure Descends (allowance : Nat) (before after : List Instruction) : Prop where
  anchors : anchors .plain after ≤ anchors .plain before
  potential : potential allowance after < potential allowance before

variable {allowance : Nat} {before after : List Instruction}

/-- Code with fewer instructions than a window, and no more of anything that
counts. -/
structure Fewer (code window : List Instruction) : Prop where
  size : size code < size window
  products : products code ≤ products window
  labels : (definitions code).length ≤ (definitions window).length
  targets : (targets code).Sublist (targets window)

theorem Fewer.nil {window : List Instruction} (hsize : 0 < Code.size window) : Fewer [] window :=
  ⟨hsize, Nat.zero_le _, Nat.zero_le _, List.nil_sublist _⟩

theorem descends_of_window (front window code : List Instruction) {back : List Instruction}
    (hfewer : Fewer code window) (htamer : Tamer (code ++ back) (window ++ back)) :
    Descends allowance (front ++ window ++ back) (front ++ code ++ back) := by
  obtain ⟨hsize, hproducts, hlabels, htargets⟩ := hfewer
  have htamer := htamer.within front
  refine ⟨htamer.anchors .plain, potential_lt_of_tamer htamer ?_ ?_ ?_ ?_⟩
  · simp only [size_append]
    omega
  · simp only [products_append]
    omega
  · simp only [definitions_append, List.length_append]
    omega
  · simp only [targets_append]
    exact ((List.Sublist.refl _).append htargets).append (List.Sublist.refl _)

/-- Code that is no shorter has a product less. -/
theorem descends_of_replaceable (front : List Instruction) {window code back : List Instruction}
    (hreplaceable : Replaceable window code) :
    Descends allowance (front ++ window ++ back) (front ++ code ++ back) := by
  obtain ⟨hwindow, hcode⟩ := hreplaceable.definitions_eq_nil
  obtain ⟨hwindow', hcode'⟩ := hreplaceable.targets_eq_nil
  have hproductless : products code = 0 := List.count_eq_zero.mpr hreplaceable.productless
  have hsize := size_eq_length hwindow
  have hsize' := size_eq_length hcode
  rcases hreplaceable.lighter with hshorter | ⟨hlength, hproduct⟩
  · have hfewer : Fewer code window :=
      ⟨by omega, by omega, by simp [hcode], by simp [hcode']⟩
    exact descends_of_window front window code hfewer (hreplaceable.tamer back)
  · have hproducts : 0 < products window := List.count_pos_iff.mpr hproduct
    have htamer := (hreplaceable.tamer back).within front
    have htoll := toll_mono htamer.opens (List.Sublist.refl (targets front ++ targets back))
    refine ⟨htamer.anchors .plain, ?_⟩
    simp only [potential, size_append, products_append, definitions_append, targets_append,
      hwindow, hcode, hwindow', hcode', hsize, hsize', hlength, List.append_nil]
    omega

/-- A constant and a jump become a jump to somewhere else. -/
theorem descends_of_redirect {front back : List Instruction} {value : Int32}
    {target : LabelId} (final : LabelId)
    (hallowance :
      Code.anchors .plain (front ++ [Instruction.const value, .goto target] ++ back) ≤ allowance) :
    Descends allowance (front ++ [Instruction.const value, .goto target] ++ back)
      (front ++ [Instruction.goto final] ++ back) := by
  have htamer := (tamer_of_redirect value target final back).within front
  have hanchors := htamer.anchors .plain
  refine ⟨hanchors, potential_lt_of_size_lt (by simp) (by simp) ?_⟩
  have hlength := length_openLabels_le (front ++ [Instruction.goto final] ++ back)
  have htoll := toll_redirect (targets front) (targets back) target final
    (Nat.le_trans hlength (Nat.le_trans hanchors hallowance))
    (fun other _ => rank_mono htamer.opens other)
  have htargets : targets (front ++ [Instruction.const value, .goto target] ++ back) =
      targets front ++ [target] ++ targets back := by simp
  have htargets' : targets (front ++ [Instruction.goto final] ++ back) =
      targets front ++ [final] ++ targets back := by simp
  have hlabels : (definitions (front ++ [Instruction.goto final] ++ back)).length =
      (definitions (front ++ [Instruction.const value, .goto target] ++ back)).length := by simp
  rw [htargets, htargets', hlabels]
  omega

/-- The label that a jump goes to is put in first. -/
theorem descends_of_split {front back left right : List Instruction} {value : Int32}
    {check : ZeroTest} {target skipped fresh : LabelId}
    (hlanding : front ++ [Instruction.const value, .goto target] ++ back =
      left ++ Instruction.label target :: .branch (.test check) skipped :: .label fresh :: right)
    (hfresh : ∀ id ∈ definitions
      (left ++ Instruction.label target :: .branch (.test check) skipped :: right), id < fresh)
    (hbare : ∀ id rest, right ≠ .label id :: rest)
    (hwell :
      WellFormed (left ++ Instruction.label target :: .branch (.test check) skipped :: right))
    (hallowance : Code.anchors .plain
      (left ++ Instruction.label target :: .branch (.test check) skipped :: right) ≤ allowance) :
    Descends allowance (left ++ Instruction.label target :: .branch (.test check) skipped :: right)
      (front ++ [Instruction.goto fresh] ++ back) := by
  have htamer := (tamer_of_redirect value target fresh back).within front
  rw [hlanding] at htamer
  have hanchors := htamer.anchors .plain
  rw [anchors_insert left target skipped fresh (.test check) hbare] at hanchors
  obtain ⟨opens, opens', hopens, hinsert⟩ :=
    openLabels_insert_sublist left right target skipped fresh (.test check)
  -- The label that was put in is above all that the old jumps go to.
  have htargets :
      targets (left ++ Instruction.label target :: .branch (.test check) skipped :: right) =
        targets front ++ [target] ++ targets back := by
    simpa using (congrArg targets hlanding).symm
  have hrank : ∀ id ∈ targets front ++ targets back,
      rank (openLabels (front ++ [Instruction.goto fresh] ++ back)) id ≤
        rank (opens ++ opens') id := by
    intro id hid
    have hjump : id ∈ targets
        (left ++ Instruction.label target :: .branch (.test check) skipped :: right) := by
      rw [htargets]
      rcases List.mem_append.mp hid with hid | hid <;> simp [hid]
    have hbelow : ¬ fresh ≤ id := UInt32.not_le.mpr (hfresh id (hwell.closed id hjump))
    refine Nat.le_trans (rank_mono (htamer.opens.trans hinsert) id) ?_
    simp [rank, hbelow]
  have hlength := length_openLabels_le (front ++ [Instruction.goto fresh] ++ back)
  have htoll := toll_redirect (targets front) (targets back) target fresh
    (Nat.le_trans hlength (Nat.le_trans hanchors hallowance)) hrank
  have hsize := congrArg size hlanding
  have hproducts := congrArg products hlanding
  have hlabels := congrArg (fun code => (definitions code).length) hlanding
  refine ⟨hanchors, potential_lt_of_size_lt ?_ ?_ ?_⟩
  · simp at hsize ⊢
    omega
  · simp at hproducts ⊢
    omega
  · have htargets' : targets (front ++ [Instruction.goto fresh] ++ back) =
        targets front ++ [fresh] ++ targets back := by simp
    rw [htargets, htargets', hopens]
    simp at hlabels ⊢
    simp at htoll
    omega

/-- A jump to an open label goes to a smaller one. -/
theorem descends_of_chain {front back left right : List Instruction} {jump : Instruction}
    {target final : LabelId} (hjump : jump.target? = some target)
    (hlanding : front ++ [jump] ++ back = left ++ Instruction.label target :: .goto final :: right)
    (hsmaller : final < target) :
    Descends allowance (front ++ [jump] ++ back) (front ++ [jump.retarget final] ++ back) := by
  have hretarget := Instruction.target?_retarget hjump final
  have htamer := (tamer_of_retarget hjump final back).append front
  rw [List.append_cons, List.append_cons front jump] at htamer
  refine ⟨htamer.anchors .plain, ?_⟩
  have hopen : target ∈ openLabels (front ++ [jump] ++ back) := by
    rw [hlanding]
    exact mem_openLabels_of_goto left right target final
  have hrank := Nat.lt_of_le_of_lt (rank_mono htamer.opens final) (rank_lt hopen hsmaller)
  have htoll := toll_mono htamer.opens (List.Sublist.refl (targets front ++ targets back))
  have hlabel := Instruction.label?_eq_none_of_target? hjump
  have hlabel' := Instruction.label?_eq_none_of_target? hretarget
  have hproducts := products_singleton_of_target? hjump
  have hproducts' := products_singleton_of_target? hretarget
  simp only [potential, size_append, size_cons, hlabel, hlabel', products_append, hproducts,
    hproducts', definitions_append, definitions_cons, targets_append, targets_cons, hjump,
    hretarget, targets_nil, toll_append, Option.toList_some, toll_cons, toll_nil] at htoll ⊢
  omega

theorem descends (hrewrites : Rewrites before after) (hwell : WellFormed before)
    (hallowance : Code.anchors .plain before ≤ allowance) : Descends allowance before after := by
  cases hrewrites with
  | contract hreplaceable => exact descends_of_replaceable _ hreplaceable
  | storeLoad havoids hdead =>
      rename_i front middle back kind kind' slot
      have hquiet : Quiet [.store kind slot, .load kind slot] := ⟨by simp, rfl, rfl⟩
      simpa using descends_of_window front _ [] (.nil (by simp [Instruction.label?]))
        (hquiet.tamer (.inl rfl) _)
  | deadLabel hdead =>
      rename_i front back id
      have htamer := (tamer_of_label id back).append front
      refine ⟨by simpa using htamer.anchors .plain, ?_⟩
      have htoll := toll_mono htamer.opens (List.Sublist.refl (targets (front ++ back)))
      simp [potential] at htoll ⊢
      omega
  | gotoNext =>
      rename_i front back labels target
      have hquiet : Quiet [.goto target] := ⟨by simp, rfl, rfl⟩
      simpa using descends_of_window front _ [] (.nil (by simp)) (hquiet.tamer (.inl rfl) _)
  | unreachable hlabel =>
      rename_i front back target dead
      have hquiet : Quiet [.goto target, dead] := ⟨by simp, by simp [hlabel], rfl⟩
      have hquiet' : Quiet [.goto target] := ⟨by simp, rfl, rfl⟩
      have hfewer : Fewer [.goto target] [.goto target, dead] := by constructor <;> simp [hlabel]
      exact descends_of_window front _ _ hfewer (hquiet.tamer (.inr hquiet') _)
  | chain hjump hlanding hsmaller =>
      rename_i front back left right jump target final
      exact descends_of_chain hjump hlanding hsmaller
  | constantTaken hcheck =>
      rename_i front back value check target
      have hquiet : Quiet [.const value, .branch (.test check) target] := ⟨by simp, rfl, rfl⟩
      have hquiet' : Quiet [.goto target] := ⟨by simp, rfl, rfl⟩
      have hfewer : Fewer [.goto target] [.const value, .branch (.test check) target] := by
        constructor <;> simp
      exact descends_of_window front _ _ hfewer (hquiet.tamer (.inr hquiet') _)
  | constantPassed hcheck =>
      rename_i front back value check target
      have hquiet : Quiet [.const value, .branch (.test check) target] := ⟨by simp, rfl, rfl⟩
      simpa using descends_of_window front _ [] (.nil (by simp)) (hquiet.tamer (.inl rfl) _)
  | throughTaken hlanding hcheck => exact descends_of_redirect _ hallowance
  | throughPassed hlanding hcheck => exact descends_of_redirect _ hallowance
  | throughSplit hlanding hcheck hfresh hbare =>
      exact descends_of_split hlanding hfresh hbare hwell hallowance
  | invert =>
      rename_i front back condition skip target
      exact descends_of_window front [_, _] [_] (by constructor <;> simp)
        (tamer_of_invert _ _ _ _ _)
  | collapse hvalues hholds hfinish =>
      rename_i front back condition otherwise value check holds finish target
      exact descends_of_window front [_, _, _, _, _, _, _] [_] (by constructor <;> simp)
        (tamer_of_collapse _ _ _ _ _ _ _ _ _ _ _)

end Rewrites

/-- The potential bounds the number of rewrites. -/
theorem RewritesIn.count_le {allowance count : Nat} {before after : List Instruction}
    (hrewrites : RewritesIn count before after)
    (hallowance : anchors .plain before ≤ allowance) : count ≤ potential allowance before := by
  induction hrewrites with
  | refl code => exact Nat.zero_le _
  | step hwell hfirst hrest ih =>
      obtain ⟨hanchors, hpotential⟩ := hfirst.descends hwell hallowance
      have hcount := ih (Nat.le_trans hanchors hallowance)
      omega

/-- The potential of code, with its labels as the allowance, stays far below the
product of its length and the number of its labels. -/
theorem Code.potential_le (code : List Instruction) :
    potential (definitions code).length code ≤
      8 * (code.length + 1) * ((definitions code).length + 2) := by
  obtain ⟨labels, hlabels⟩ : ∃ labels, labels = (definitions code).length := ⟨_, rfl⟩
  have hopens : (openLabels code).length ≤ labels := by
    rw [hlabels]
    exact Nat.le_trans (length_openLabels_le code) (anchors_le_definitions .plain code)
  have htoll : toll (openLabels code) (targets code) ≤ size code * labels :=
    Nat.le_trans (toll_le_mul _ _) (Nat.mul_le_mul (length_targets_le_size code) hopens)
  have hproducts := products_le_size code
  have hlength := length_eq_size_add code
  have hwiden : size code * labels + size code ≤ (labels + 2) * size code := by
    rw [Nat.mul_comm (size code) labels, Nat.add_mul]
    omega
  have hsplit : (code.length + 1) * (labels + 2) =
      (labels + 2) * size code + (labels + 1) * (labels + 2) := by
    rw [hlength, ← hlabels, Nat.add_assoc, Nat.add_mul, Nat.mul_comm (size code)]
  have hmore : labels ≤ (labels + 1) * (labels + 2) := by
    rw [Nat.add_mul]
    omega
  rw [potential, ← hlabels, Nat.mul_assoc, hsplit]
  omega

end Peephole
