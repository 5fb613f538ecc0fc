import Peephole.Proofs.Bookkeeping.Runs

/-!
# Rules that leave jumps and labels alone

Rules outside the category of jumps look at windows that hold neither jumps nor
labels and put code without jumps and labels in their place.  They keep no count of
anything: the table stays as it is, and so do all lines that it speaks of.
-/

namespace Peephole

/-- Whether an instruction defines a label or jumps to one. -/
def Instruction.isControl (instruction : Instruction) : Bool :=
  instruction.isLabel || instruction.isJump

theorem Instruction.isControl_eq_false_iff {instruction : Instruction} :
    instruction.isControl = false ↔ instruction.label? = none ∧ instruction.target? = none := by
  simp [isControl, isLabel, isJump]

namespace Line

/-- The lines that define labels or jump to them. -/
def control (lines : List Line) : List Line :=
  lines.filter (·.instruction.isControl)

@[simp]
theorem control_append (left right : List Line) :
    control (left ++ right) = control left ++ control right :=
  List.filter_append left right

theorem control_eq_nil {lines : List Line}
    (hplain : ∀ instruction ∈ instructions lines,
      instruction.label? = none ∧ instruction.target? = none) : control lines = [] := by
  refine List.filter_eq_nil_iff.mpr fun line hline => ?_
  rw [Instruction.isControl_eq_false_iff.mpr (hplain _ (List.mem_map_of_mem hline))]
  exact Bool.false_ne_true

end Line

/-! ## Scripts of rules without jumps -/

namespace Rule

variable {rule : Rule} {body next : Body} {before lines : List Line} {script : Script}

/-- A rule outside the category of jumps exchanges the first lines ahead for code; neither
holds jumps or labels. -/
theorem exchange_of_plan (hcategory : rule.category ≠ .jumps)
    (hplan : rule.plan body lines = .ok (some script)) :
    ∃ first window after code, lines = (first :: window) ++ after ∧
      script = [.splice first.position (window.length + 1) code] ∧
      ∀ instruction ∈ Line.instructions (first :: window) ++ code,
        instruction.label? = none ∧ instruction.target? = none := by
  by_cases hrule : rule = .removeSuperfluousStoreLoad
  · subst hrule
    simp only [plan, LastLoad.removeSuperfluousStoreLoad.eq_def] at hplan
    split at hplan
    · split at hplan
      · cases hplan
        exact ⟨_, [_], _, [], rfl, rfl, by simp [Instruction.label?, Instruction.target?]⟩
      · cases hplan
    · cases hplan
  · obtain ⟨contraction?, hfits, hcontract⟩ := contracts_of_category hcategory hrule
    rw [hcontract] at hplan
    obtain ⟨first, window, after, code, hlines, hscript, hreplaceable⟩ :=
      exists_of_contract hfits hplan
    exact ⟨first, window, after, code, hlines, hscript, hreplaceable.plain⟩

/-- A rule outside the category of jumps has no labels to look up, and finds no fault. -/
theorem exists_plan_of_category (hcategory : rule.category ≠ .jumps) (body : Body)
    (lines : List Line) : ∃ proposal, rule.plan body lines = .ok proposal := by
  by_cases hrule : rule = .removeSuperfluousStoreLoad
  · subst hrule
    simp only [plan, LastLoad.removeSuperfluousStoreLoad.eq_def]
    split
    · split <;> exact ⟨_, rfl⟩
    · exact ⟨_, rfl⟩
  · obtain ⟨contraction?, -, hcontract⟩ := contracts_of_category hcategory hrule
    rw [hcontract]
    exact exists_contract contraction? lines

end Rule

namespace Body

/-- Two bodies have the same lines that define labels or jump to them, and the same
table. -/
structure SharesControl (body other : Body) : Prop where
  lines : Line.control other.lines = Line.control body.lines
  labels : other.labels = body.labels

theorem SharesControl.trans {body other third : Body} (hfirst : body.SharesControl other)
    (hsecond : other.SharesControl third) : body.SharesControl third :=
  ⟨hsecond.lines.trans hfirst.lines, hsecond.labels.trans hfirst.labels⟩

end Body

/-- A rule outside the category of jumps declines any body, or leaves one with the same
jumps, labels and table. -/
theorem Rule.applyAt_of_category {rule : Rule} (hcategory : rule.category ≠ .jumps) (body : Body)
    (position : Nat) :
    rule.applyAt body position = .declined ∨
      ∃ rewritten, rule.applyAt body position = .rewritten rewritten ∧
        body.SharesControl rewritten := by
  obtain ⟨proposal, hplan⟩ := exists_plan_of_category hcategory body (body.ahead position)
  rw [applyAt, attempt, hplan]
  cases proposal with
  | none => exact .inl rfl
  | some script =>
      obtain ⟨first, window, after, code, hahead, rfl, hplain⟩ := exchange_of_plan hcategory hplan
      obtain ⟨hwindow, hcode⟩ := List.forall_mem_append.mp hplain
      have hlines : body.lines =
          Line.before body.lines position ++ (first :: window) ++ after := by
        rw [List.append_assoc, ← hahead]
        exact (Line.before_append_ahead body.lines position).symm
      have hdefinitions : Code.definitions code = [] :=
        List.filterMap_eq_nil_iff.mpr fun instruction hmem => (hcode instruction hmem).1
      obtain ⟨spliced, hsplice, hspliced, hlabels⟩ := body.perform_splice hlines hdefinitions
      refine .inr ⟨spliced, Script.run_cons hsplice [], ?_, hlabels⟩
      have hnumber : Line.control (Line.number body.supply code) = [] := by
        apply Line.control_eq_nil
        rwa [Line.instructions_number]
      have hold := congrArg Line.control hlines
      rw [Line.control_append, Line.control_append, Line.control_eq_nil hwindow,
        List.append_nil] at hold
      rw [hspliced, Line.control_append, Line.control_append, hnumber, List.append_nil, hold]

/-- An optimizer without rules for jumps leaves every line that defines a label or jumps
to one where it is, and the table as it is, however its run ends and whatever the table
may say. -/
theorem control_untouched {optimizer : Optimizer}
    (hrules : ∀ rule ∈ optimizer.rules, rule.category ≠ .jumps) (body : Body) :
    Line.control (optimizer.optimize body).2.lines = Line.control body.lines ∧
      (optimizer.optimize body).2.labels = body.labels := by
  have happly : ∀ reached, body.SharesControl reached → ∀ rule ∈ optimizer.rules, ∀ position,
      rule.applyAt reached position = .declined ∨
        ∃ rewritten, rule.applyAt reached position = .rewritten rewritten ∧
          body.SharesControl rewritten := by
    intro reached hreached rule hrule position
    rcases Rule.applyAt_of_category (hrules rule hrule) reached position with
      hdeclined | ⟨rewritten, hrewritten, hshares⟩
    · exact .inl hdeclined
    · exact .inr ⟨rewritten, hrewritten, hreached.trans hshares⟩
  have hshares : body.SharesControl (optimizer.optimize body).2 :=
    Optimizer.kept_of_runWithin happly _ _ ⟨rfl, rfl⟩
  exact ⟨hshares.lines, hshares.labels⟩

/-- A loop around code that all comes to nothing. -/
def idleLoop : List Instruction :=
  [.label 4, .load .int 0, .const 1, .const 1, .binary .sub, .binary .mul,
    .branch (.test .isZero) 7, .store .int 1, .load .int 1, .store .int 1, .goto 4, .nop, .label 7]

/-- The code between the jumps and labels goes; these stay at their positions, and also
what jump rules would take out. -/
theorem control_untouched_at_idleLoop :
    ∃ body, Body.assemble [(7, "exit")] idleLoop = .ok body ∧
      (∀ rule ∈ (Optimizer.ofSettings { jumps := false }).rules, rule.category ≠ .jumps) ∧
      ((Optimizer.ofSettings { jumps := false }).optimize body).2.instructions =
        [.label 4, .const 0, .branch (.test .isZero) 7, .store .int 1, .goto 4, .label 7] ∧
      Line.control ((Optimizer.ofSettings { jumps := false }).optimize body).2.lines =
        [⟨0, .label 4⟩, ⟨6, .branch (.test .isZero) 7⟩, ⟨10, .goto 4⟩, ⟨12, .label 7⟩] ∧
      ((Optimizer.ofSettings { jumps := false }).optimize body).2.labels = body.labels := by
  have hassemble : Body.assemble [(7, "exit")] idleLoop = .ok _ := rfl
  have hrules : ∀ rule ∈ (Optimizer.ofSettings { jumps := false }).rules,
      rule.category ≠ .jumps := by decide
  obtain ⟨hlines, hlabels⟩ := control_untouched hrules _
  exact ⟨_, hassemble, hrules, by decide +kernel, hlines.trans (by rfl), hlabels⟩

end Peephole
