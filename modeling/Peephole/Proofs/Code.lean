import Peephole.Line

/-!
# Labels and jumps of an instruction list

What an instruction list defines and where it jumps to does not depend on the
positions its instructions stand at.  The statements about runs, about rewrites
and about their number are made for plain instruction lists; this module ties
the lists to the lines of a body.
-/

namespace Peephole

namespace Instruction

@[simp]
theorem label?_label (id : LabelId) : (label id).label? = some id := rfl

@[simp]
theorem target?_label (id : LabelId) : (label id).target? = none := rfl

@[simp]
theorem label?_goto (target : LabelId) : (goto target).label? = none := rfl

@[simp]
theorem target?_goto (target : LabelId) : (goto target).target? = some target := rfl

@[simp]
theorem label?_branch (condition : Condition) (target : LabelId) :
    (branch condition target).label? = none := rfl

@[simp]
theorem target?_branch (condition : Condition) (target : LabelId) :
    (branch condition target).target? = some target := rfl

@[simp]
theorem label?_const (value : Int32) : (const value).label? = none := rfl

@[simp]
theorem target?_const (value : Int32) : (const value).target? = none := rfl

theorem label?_eq_none_of_target? {instruction : Instruction} {target : LabelId}
    (htarget : instruction.target? = some target) : instruction.label? = none := by
  cases instruction <;> simp_all [target?, label?]

theorem target?_retarget {instruction : Instruction} {target : LabelId}
    (htarget : instruction.target? = some target) (final : LabelId) :
    (instruction.retarget final).target? = some final := by
  cases instruction <;> simp_all [target?, retarget]

end Instruction

namespace Code

/-- The labels that some instructions define, in order. -/
def definitions (code : List Instruction) : List LabelId :=
  code.filterMap Instruction.label?

/-- The labels that some instructions jump to, one for each jump. -/
def targets (code : List Instruction) : List LabelId :=
  code.filterMap Instruction.target?

/-- No label is defined twice, and every jump goes to a label that is defined. -/
structure WellFormed (code : List Instruction) : Prop where
  nodup : (definitions code).Nodup
  closed : ∀ id ∈ targets code, id ∈ definitions code

@[simp]
theorem definitions_nil : definitions [] = [] := rfl

@[simp]
theorem definitions_cons (instruction : Instruction) (code : List Instruction) :
    definitions (instruction :: code) = instruction.label?.toList ++ definitions code := by
  cases hlabel : instruction.label? <;> simp [definitions, hlabel]

@[simp]
theorem definitions_append (left right : List Instruction) :
    definitions (left ++ right) = definitions left ++ definitions right :=
  List.filterMap_append

@[simp]
theorem targets_nil : targets [] = [] := rfl

@[simp]
theorem targets_cons (instruction : Instruction) (code : List Instruction) :
    targets (instruction :: code) = instruction.target?.toList ++ targets code := by
  cases htarget : instruction.target? <;> simp [targets, htarget]

@[simp]
theorem targets_append (left right : List Instruction) :
    targets (left ++ right) = targets left ++ targets right :=
  List.filterMap_append

theorem label?_eq_some_iff {instruction : Instruction} {id : LabelId} :
    instruction.label? = some id ↔ instruction = .label id := by
  cases instruction <;> simp [Instruction.label?]

theorem mem_definitions {code : List Instruction} {id : LabelId} :
    id ∈ definitions code ↔ Instruction.label id ∈ code := by
  simp [definitions, label?_eq_some_iff]

/-- A label that is defined once splits the list in one way only. -/
theorem WellFormed.not_mem_of_split {code before after : List Instruction} {id : LabelId}
    (hcode : WellFormed code) (hsplit : code = before ++ .label id :: after) :
    id ∉ definitions before ∧ id ∉ definitions after := by
  have hnodup := hcode.nodup
  rw [hsplit] at hnodup
  simp only [definitions_append, definitions_cons, Instruction.label?, Option.toList_some,
    List.singleton_append, List.nodup_append, List.nodup_cons] at hnodup
  exact ⟨fun hid => hnodup.2.2 id hid id (by simp) rfl, hnodup.2.1.1⟩

/-- A label that is not defined yet can be put in anywhere. -/
theorem WellFormed.insert {before after : List Instruction} {id : LabelId}
    (hwell : WellFormed (before ++ after)) (hid : id ∉ definitions (before ++ after)) :
    WellFormed (before ++ .label id :: after) := by
  have hperm : (definitions (before ++ .label id :: after)).Perm
      (id :: definitions (before ++ after)) := by
    simp only [definitions_append]
    exact List.perm_middle
  constructor
  · exact hperm.nodup_iff.mpr (List.nodup_cons.mpr ⟨hid, hwell.nodup⟩)
  · intro other hother
    exact hperm.mem_iff.mpr
      (List.mem_cons_of_mem _ (hwell.closed other (by simpa using hother)))

/-! ## Instructions that are no labels -/

/-- The number of instructions that are no labels. -/
def size (code : List Instruction) : Nat :=
  code.countP (!·.isLabel)

section

variable {left right : List Instruction} {instruction : Instruction}

@[simp]
theorem size_nil : size [] = 0 := rfl

@[simp]
theorem size_append : size (left ++ right) = size left + size right :=
  List.countP_append

@[simp]
theorem size_cons :
    size (instruction :: right) = size right + if instruction.label? = none then 1 else 0 := by
  cases hlabel : instruction.label? <;> simp [size, Instruction.isLabel, hlabel]

theorem size_eq_length (hlabels : definitions left = []) : size left = left.length := by
  refine List.countP_eq_length.mpr fun instruction hinstruction => ?_
  simp [Instruction.isLabel, List.filterMap_eq_nil_iff.mp hlabels instruction hinstruction]

/-- Every instruction counts as a label or otherwise. -/
theorem length_eq_size_add (code : List Instruction) :
    code.length = size code + (definitions code).length := by
  induction code with
  | nil => rfl
  | cons instruction code ih =>
      cases hlabel : instruction.label? <;> simp [hlabel, ih] <;> omega

end

end Code

namespace Line

@[simp]
theorem instructions_nil : instructions [] = [] := rfl

@[simp]
theorem instructions_cons (line : Line) (lines : List Line) :
    instructions (line :: lines) = line.instruction :: instructions lines := rfl

@[simp]
theorem instructions_append (left right : List Line) :
    instructions (left ++ right) = instructions left ++ instructions right :=
  List.map_append

@[simp]
theorem definitions_append (left right : List Line) :
    definitions (left ++ right) = definitions left ++ definitions right :=
  List.filterMap_append

@[simp]
theorem targets_append (left right : List Line) :
    targets (left ++ right) = targets left ++ targets right :=
  List.filterMap_append

theorem definitions_eq (lines : List Line) :
    definitions lines = Code.definitions (instructions lines) := by
  rw [Code.definitions, instructions, List.filterMap_map]
  rfl

theorem mem_definitions {lines : List Line} {id : LabelId} :
    id ∈ definitions lines ↔ .label id ∈ instructions lines := by
  rw [definitions_eq, Code.mem_definitions]

theorem targets_eq (lines : List Line) :
    targets lines = Code.targets (instructions lines) := by
  rw [Code.targets, instructions, List.filterMap_map]
  rfl

end Line

end Peephole
