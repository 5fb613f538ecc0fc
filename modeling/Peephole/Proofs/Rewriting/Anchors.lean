import Peephole.Proofs.Rewriting

/-!
# Anchors and open labels

A rewrite can put in a new label, but only right behind a conditional jump that
follows a label.  Labels at such places are no anchors, and so no rewrite ever
makes the number of anchors grow.  A chain of jumps, on the other hand, is only
shortened at a label that no conditional jump follows.  Such labels are open;
there are never more of them than anchors.
-/

namespace Peephole

namespace Code

/-- What stands right before a place. -/
inductive Mode where
  /-- Nothing that matters. -/
  | plain
  | labelled
  /-- A label and one or more conditional jumps after it. -/
  | tested

namespace Mode

def next (mode : Mode) : Instruction → Mode
  | .label _ => .labelled
  | .branch _ _ =>
      match mode with
      | .plain => .plain
      | .labelled | .tested => .tested
  | _ => .plain

def charge (mode : Mode) : Instruction → Nat
  | .label _ =>
      match mode with
      | .plain | .labelled => 1
      | .tested => 0
  | _ => 0

end Mode

/-- The labels that do not follow a label and conditional jumps. -/
def anchors (mode : Mode) : List Instruction → Nat
  | [] => 0
  | instruction :: rest => mode.charge instruction + anchors (mode.next instruction) rest

def startsWithBranch (code : List Instruction) : Bool :=
  code.head?.any Instruction.isConditional

@[simp]
theorem startsWithBranch_nil : startsWithBranch [] = false := rfl

@[simp]
theorem startsWithBranch_cons (instruction : Instruction) (code : List Instruction) :
    startsWithBranch (instruction :: code) = instruction.isConditional := rfl

/-- The labels that no conditional jump follows. -/
def openLabels : List Instruction → List LabelId
  | [] => []
  | .label id :: rest => if startsWithBranch rest then openLabels rest else id :: openLabels rest
  | _ :: rest => openLabels rest

/-! ## How many there are -/

/-- What stands before some code makes a difference of one anchor at most. -/
theorem anchors_mode (code : List Instruction) :
    anchors .tested code ≤ anchors .labelled code ∧
      anchors .labelled code ≤ anchors .plain code ∧
      anchors .plain code ≤ anchors .tested code + 1 := by
  induction code with
  | nil => simp [anchors]
  | cons instruction rest ih =>
      cases instruction <;> simp only [anchors, Mode.charge, Mode.next] <;> omega

theorem anchors_le_plain (mode : Mode) (code : List Instruction) :
    anchors mode code ≤ anchors .plain code := by
  have hmode := anchors_mode code
  cases mode <;> omega

theorem anchors_le_definitions (mode : Mode) (code : List Instruction) :
    anchors mode code ≤ (definitions code).length := by
  induction code generalizing mode with
  | nil => exact Nat.le_refl 0
  | cons instruction rest ih =>
      have hrest := ih (mode.next instruction)
      rw [anchors, definitions_cons, List.length_append]
      have hcharge : mode.charge instruction ≤ instruction.label?.toList.length := by
        cases instruction <;> cases mode <;> simp [Mode.charge, Instruction.label?]
      omega

/-- The three bounds are proved together: a label that has just been read counts as
open unless a conditional jump is read next. -/
theorem length_openLabels_mode (code : List Instruction) :
    (openLabels code).length ≤ anchors .plain code ∧
      (openLabels code).length ≤ anchors .tested code + 1 ∧
      (openLabels code).length + (if startsWithBranch code then 0 else 1) ≤
        anchors .labelled code + 1 := by
  induction code with
  | nil => simp [openLabels, anchors]
  | cons instruction rest ih =>
      cases instruction with
      | label id =>
          by_cases hbranch : startsWithBranch rest = true <;>
            simp only [hbranch, if_true, if_false, Bool.false_eq_true, openLabels, anchors,
              Mode.charge, Mode.next, startsWithBranch_cons, Instruction.isConditional,
              List.length_cons] at ih ⊢ <;>
            omega
      | branch condition target =>
          simp only [openLabels, anchors, Mode.charge, Mode.next, startsWithBranch_cons,
            Instruction.isConditional, if_true]
          omega
      | _ =>
          simp only [openLabels, anchors, Mode.charge, Mode.next, startsWithBranch_cons,
            Instruction.isConditional, if_false, Bool.false_eq_true]
          omega

theorem length_openLabels_le (code : List Instruction) :
    (openLabels code).length ≤ anchors .plain code :=
  (length_openLabels_mode code).1

/-! ## What rewrites do to them -/

/-- Some code that stands in the place of other code: it has no more anchors and no
more open labels, and makes no label before it open. -/
structure Tamer (code' code : List Instruction) : Prop where
  anchors : ∀ mode, anchors mode code' ≤ anchors mode code
  opens : (openLabels code').Sublist (openLabels code)
  branch : startsWithBranch code = true → startsWithBranch code' = true

theorem Tamer.cons {code' code : List Instruction} (htamer : Tamer code' code)
    (instruction : Instruction) : Tamer (instruction :: code') (instruction :: code) := by
  refine ⟨fun mode => Nat.add_le_add_left (htamer.anchors _) _, ?_, ?_⟩
  · cases instruction with
    | label id =>
        have hbranch := htamer.branch
        have hopens := htamer.opens
        simp only [openLabels]
        split
        · split
          · exact hopens
          · exact hopens.trans (List.sublist_cons_self id _)
        · split
          · simp_all
          · exact hopens.cons_cons id
    | _ => exact htamer.opens
  · exact id

theorem Tamer.append {code' code : List Instruction} (htamer : Tamer code' code)
    (before : List Instruction) : Tamer (before ++ code') (before ++ code) := by
  induction before with
  | nil => exact htamer
  | cons instruction before ih => exact ih.cons instruction

theorem Tamer.within {code window back : List Instruction}
    (htamer : Tamer (code ++ back) (window ++ back)) (front : List Instruction) :
    Tamer (front ++ code ++ back) (front ++ window ++ back) := by
  rw [List.append_assoc, List.append_assoc]
  exact htamer.append front

/-- Code without labels that starts with neither label nor conditional jump. -/
structure Quiet (code : List Instruction) : Prop where
  nonempty : code ≠ []
  definitions : definitions code = []
  branch : startsWithBranch code = false

section Quiet

variable {window code : List Instruction} {instruction : Instruction}

theorem openLabels_cons_of_label?_eq_none (hlabel : instruction.label? = none)
    (after : List Instruction) : openLabels (instruction :: after) = openLabels after := by
  cases instruction with
  | label id => simp at hlabel
  | _ => rfl

theorem openLabels_append_of_definitions (hwindow : definitions window = [])
    (after : List Instruction) : openLabels (window ++ after) = openLabels after := by
  induction window with
  | nil => rfl
  | cons instruction window ih =>
      rw [definitions_cons, List.append_eq_nil_iff, Option.toList_eq_nil_iff] at hwindow
      rw [List.cons_append, openLabels_cons_of_label?_eq_none hwindow.1, ih hwindow.2]

theorem anchors_plain_append (hwindow : definitions window = []) (after : List Instruction) :
    anchors .plain (window ++ after) = anchors .plain after := by
  induction window with
  | nil => rfl
  | cons instruction window ih =>
      rw [definitions_cons, List.append_eq_nil_iff, Option.toList_eq_nil_iff] at hwindow
      rw [List.cons_append, anchors]
      cases instruction with
      | label id => simp at hwindow
      | _ => simpa [Mode.charge, Mode.next] using ih hwindow.2

theorem Quiet.anchors (hquiet : Quiet window) (mode : Mode) (after : List Instruction) :
    anchors mode (window ++ after) = Code.anchors .plain after := by
  obtain ⟨hnonempty, hdefinitions, hbranch⟩ := hquiet
  rw [← anchors_plain_append hdefinitions]
  cases window with
  | nil => exact absurd rfl hnonempty
  | cons instruction window =>
      cases instruction with
      | label id => simp at hdefinitions
      | branch condition target => simp [Instruction.isConditional] at hbranch
      | _ => rfl

/-- Taking out quiet code, or putting other quiet code in its place. -/
theorem Quiet.tamer (hwindow : Quiet window) (hcode : code = [] ∨ Quiet code)
    (after : List Instruction) : Tamer (code ++ after) (window ++ after) := by
  have hbranch : startsWithBranch (window ++ after) = false := by
    obtain ⟨instruction, rest, rfl⟩ := List.exists_cons_of_ne_nil hwindow.nonempty
    exact hwindow.branch
  have hdefinitions : Code.definitions code = [] := by
    rcases hcode with rfl | hcode
    · rfl
    · exact hcode.definitions
  have hopens : openLabels (code ++ after) = openLabels (window ++ after) := by
    rw [openLabels_append_of_definitions hwindow.definitions,
      openLabels_append_of_definitions hdefinitions]
  refine ⟨fun mode => ?_, ?_, ?_⟩
  · rw [hwindow.anchors]
    rcases hcode with rfl | hcode
    · exact anchors_le_plain mode after
    · exact Nat.le_of_eq (hcode.anchors mode after)
  · simp [hopens]
  · rw [hbranch]
    exact fun habsurd => absurd habsurd Bool.false_ne_true

end Quiet

variable {after : List Instruction}

theorem tamer_of_label (id : LabelId) (after : List Instruction) :
    Tamer after (.label id :: after) := by
  have hmode := anchors_mode after
  refine ⟨fun mode => ?_, ?_, fun habsurd => absurd habsurd Bool.false_ne_true⟩
  · cases mode <;> simp only [anchors, Mode.charge, Mode.next] <;> omega
  · rw [openLabels]
    split
    · exact List.Sublist.refl _
    · exact List.sublist_cons_self id _

theorem tamer_of_retarget {jump : Instruction} {target : LabelId}
    (hjump : jump.target? = some target) (final : LabelId) (after : List Instruction) :
    Tamer (jump.retarget final :: after) (jump :: after) := by
  cases jump with
  | goto target => exact ⟨fun mode => Nat.le_refl _, List.Sublist.refl _, id⟩
  | branch condition target => exact ⟨fun mode => Nat.le_refl _, List.Sublist.refl _, id⟩
  | _ => cases hjump

theorem tamer_of_redirect (value : Int32) (target final : LabelId) (after : List Instruction) :
    Tamer ([.goto final] ++ after) ([.const value, .goto target] ++ after) := by
  have hquiet : Quiet [.const value, .goto target] := ⟨by simp, rfl, rfl⟩
  have hquiet' : Quiet [.goto final] := ⟨by simp, rfl, rfl⟩
  exact hquiet.tamer (.inr hquiet') after

/-- A conditional jump over a jump, to a label after it. -/
theorem tamer_of_invert (condition condition' : Condition) (skip target id : LabelId) :
    Tamer (.branch condition' target :: .label id :: after)
      (.branch condition skip :: .goto target :: .label id :: after) := by
  refine ⟨fun mode => ?_, List.Sublist.refl _, fun _ => rfl⟩
  cases mode <;> simp only [anchors, Mode.charge, Mode.next] <;> omega

/-- Two labels among other instructions, between two conditional jumps. -/
theorem tamer_of_collapse (condition condition' condition'' : Condition)
    (holds finish target target' id id' : LabelId) (value value' : Int32) :
    Tamer (.branch condition' target :: after)
      (.branch condition holds :: .const value :: .goto finish :: .label id :: .const value' ::
        .label id' :: .branch condition'' target' :: after) := by
  have hmode := anchors_mode after
  refine ⟨fun mode => ?_, ?_, fun _ => rfl⟩
  · cases mode <;> simp only [anchors, Mode.charge, Mode.next] <;> omega
  · exact List.sublist_cons_self id _

/-! ## New labels -/

theorem anchors_append (mode : Mode) (before after : List Instruction) :
    anchors mode (before ++ after) =
      anchors mode before + anchors (before.foldl Mode.next mode) after := by
  induction before generalizing mode with
  | nil => simp [anchors]
  | cons instruction before ih =>
      simp only [List.cons_append, anchors, List.foldl_cons, ih]
      omega

/-- A label behind a labelled conditional jump is no anchor. -/
theorem anchors_insert (before : List Instruction) (target skipped fresh : LabelId)
    (condition : Condition) (hbare : ∀ id rest, after ≠ .label id :: rest) :
    anchors .plain (before ++ .label target :: .branch condition skipped :: .label fresh :: after) =
      anchors .plain (before ++ .label target :: .branch condition skipped :: after) := by
  have hnext : anchors .labelled after = anchors .tested after := by
    cases after with
    | nil => rfl
    | cons instruction rest =>
        cases instruction with
        | label id => exact absurd rfl (hbare id rest)
        | _ => rfl
  simp only [anchors_append, anchors, Mode.charge, Mode.next, hnext, Nat.zero_add]

/-- What is open before a label does not depend on what comes after it. -/
theorem exists_openLabels_append (before : List Instruction) (id : LabelId) :
    ∃ front, ∀ after, openLabels (before ++ .label id :: after) =
      front ++ openLabels (.label id :: after) := by
  induction before with
  | nil => exact ⟨[], fun after => rfl⟩
  | cons instruction before ih =>
      obtain ⟨front, hfront⟩ := ih
      have hbranch : ∀ after, startsWithBranch (before ++ .label id :: after) =
          startsWithBranch (before ++ [.label id]) := by
        intro after
        cases before <;> rfl
      cases instruction with
      | label other =>
          simp only [List.cons_append, openLabels, hbranch, hfront]
          by_cases hopen : startsWithBranch (before ++ [.label id]) = true
          · exact ⟨front, fun after => if_pos hopen⟩
          · exact ⟨other :: front, fun after => if_neg hopen⟩
      | _ => exact ⟨front, hfront⟩

theorem mem_openLabels_of_goto (before after : List Instruction) (id target : LabelId) :
    id ∈ openLabels (before ++ .label id :: .goto target :: after) := by
  obtain ⟨front, hfront⟩ := exists_openLabels_append before id
  rw [hfront, openLabels, startsWithBranch_cons]
  simp [Instruction.isConditional]

/-- A label put in behind a labelled conditional jump is the only one that may
become open. -/
theorem openLabels_insert_sublist (before after : List Instruction)
    (target skipped fresh : LabelId) (condition : Condition) :
    ∃ front back,
      openLabels (before ++ .label target :: .branch condition skipped :: after) =
        front ++ back ∧
      (openLabels (before ++ .label target :: .branch condition skipped :: .label fresh ::
        after)).Sublist (front ++ fresh :: back) := by
  obtain ⟨front, hfront⟩ := exists_openLabels_append before target
  refine ⟨front, openLabels after, hfront _, ?_⟩
  rw [hfront]
  refine List.Sublist.append (List.Sublist.refl front) ?_
  simp only [openLabels, startsWithBranch_cons, Instruction.isConditional, if_true]
  split
  · exact List.sublist_cons_self fresh _
  · exact List.Sublist.refl _

end Code

end Peephole
