import Peephole.Proofs.Bookkeeping.Admitted

/-!
# Renumbering

The positions of the lines and the numbers of the labels are only names.  A rule
that proposes a script for a body proposes the same script for a body with other
positions and other labels, with the names changed, as long as the new label
numbers are in the same order.  The names of the labels for the listing and what
once stood at stale positions play no part at all.
-/

namespace Peephole

/-- New positions for lines and new numbers for labels. -/
structure Renumbering where
  position : Nat → Nat
  label : LabelId → LabelId

namespace Renumbering

def instruction (renumbering : Renumbering) : Instruction → Instruction
  | .goto target => .goto (renumbering.label target)
  | .branch condition target => .branch condition (renumbering.label target)
  | .label id => .label (renumbering.label id)
  | other => other

def line (renumbering : Renumbering) (line : Line) : Line :=
  ⟨renumbering.position line.position, renumbering.instruction line.instruction⟩

def edit (renumbering : Renumbering) : Edit → Edit
  | .split position id => .split (renumbering.position position) (renumbering.label id)
  | .acquire id => .acquire (renumbering.label id)
  | .release id => .release (renumbering.label id)
  | .remove id => .remove (renumbering.label id)
  | .splice position width code =>
      .splice (renumbering.position position) width (code.map renumbering.instruction)

section

variable {renumbering : Renumbering} {instruction : Instruction} {lines : List Line}

theorem instruction_goto (target : LabelId) :
    renumbering.instruction (.goto target) = .goto (renumbering.label target) := rfl

@[simp]
theorem label?_instruction : (renumbering.instruction instruction).label? =
    instruction.label?.map renumbering.label := by
  cases instruction <;> rfl

@[simp]
theorem target?_instruction : (renumbering.instruction instruction).target? =
    instruction.target?.map renumbering.label := by
  cases instruction <;> rfl

theorem instruction_eq_self
    (hlabel : ∀ id, instruction.label? = some id ∨ instruction.target? = some id →
      renumbering.label id = id) : renumbering.instruction instruction = instruction := by
  cases instruction with
  | goto target => exact congrArg Instruction.goto (hlabel target (.inr rfl))
  | branch condition target =>
      exact congrArg (Instruction.branch condition) (hlabel target (.inr rfl))
  | label id => exact congrArg Instruction.label (hlabel id (.inl rfl))
  | _ => rfl

theorem retarget_instruction (final : LabelId) :
    (renumbering.instruction instruction).retarget (renumbering.label final) =
      renumbering.instruction (instruction.retarget final) := by
  cases instruction <;> rfl

@[simp]
theorem definitions_map : Line.definitions (lines.map renumbering.line) =
    (Line.definitions lines).map renumbering.label := by
  simp only [Line.definitions, List.filterMap_map, List.map_filterMap]
  congr 1
  funext line
  exact label?_instruction

@[simp]
theorem targets_map : Line.targets (lines.map renumbering.line) =
    (Line.targets lines).map renumbering.label := by
  simp only [Line.targets, List.filterMap_map, List.map_filterMap]
  congr 1
  funext line
  exact target?_instruction

theorem instructions_map : Line.instructions (lines.map renumbering.line) =
    (Line.instructions lines).map renumbering.instruction := by
  simp only [Line.instructions, List.map_map]
  rfl

@[simp]
theorem leadingLabels_map : Line.leadingLabels (lines.map renumbering.line) =
    (Line.leadingLabels lines).map renumbering.label := by
  induction lines with
  | nil => rfl
  | cons line rest ih =>
      obtain ⟨position, instruction⟩ := line
      cases instruction with
      | label id => exact congrArg (renumbering.label id :: ·) ih
      | _ => rfl

end

/-- New numbers in the same order are different for different labels. -/
theorem injective_of_increasing {known : LabelId → Prop} {label : LabelId → LabelId}
    (hincreasing : ∀ left, known left → ∀ right, known right →
      left < right → label left < label right)
    {left right : LabelId} (hleft : known left) (hright : known right)
    (heq : label left = label right) : left = right := by
  refine Classical.byContradiction fun hne => ?_
  rcases UInt32.lt_or_lt_of_ne hne with hlt | hlt
  · exact absurd heq (UInt32.ne_of_lt (hincreasing left hleft right hright hlt))
  · exact absurd heq.symm (UInt32.ne_of_lt (hincreasing right hright left hleft hlt))

/-- The order of labels can be told from that of their new numbers. -/
theorem lt_of_label_lt {known : LabelId → Prop} {label : LabelId → LabelId}
    (hincreasing : ∀ left, known left → ∀ right, known right →
      left < right → label left < label right)
    {left right : LabelId} (hleft : known left) (hright : known right)
    (hlt : label left < label right) : left < right := by
  have hne : left ≠ right := fun heq => UInt32.lt_irrefl (label right) (heq ▸ hlt)
  rcases UInt32.lt_or_lt_of_ne hne with hless | hmore
  · exact hless
  · exact absurd (hincreasing right hright left hleft hmore) (UInt32.lt_asymm hlt)

end Renumbering

namespace Body

/-- A body whose lines are those of another one, renumbered.  Both are in step with
their tables, the order of the labels is kept, and a label that is new to the one
is new to the other. -/
structure Renumbered (source : Body) (renumbering : Renumbering) (result : Body) : Prop where
  source_synced : source.Synced
  result_synced : result.Synced
  lines : result.lines = source.lines.map renumbering.line
  increasing : ∀ left ∈ Line.definitions source.lines, ∀ right ∈ Line.definitions source.lines,
    left < right → renumbering.label left < renumbering.label right
  fresh : ∀ id, source.labels.fresh? = some id → result.labels.fresh? = some (renumbering.label id)

/-- The table leads to the place where a label is defined. -/
theorem Synced.landing_of_split {body : Body} {front rest : List Line} {position : Nat}
    {id : LabelId} (hsynced : body.Synced)
    (hlines : body.lines = front ++ ⟨position, .label id⟩ :: rest) :
    body.landing id = .ok (⟨position, .label id⟩ :: rest) := by
  obtain ⟨names, hrecords⟩ := hsynced.recorded
  have hline : ⟨position, .label id⟩ ∈ body.lines := by simp [hlines]
  have hsite := Line.site?_eq_some_of_mem hsynced.nodup_definitions hline rfl
  have hahead := ahead_eq_of_split hlines
  simp [Body.landing, LabelTable.entry, hrecords id, hsite, hahead]

/-- Whether a label of the body is jumped to can be told from its jumps. -/
theorem Synced.isDestination_iff {body : Body} {line : Line} {id : LabelId}
    (hsynced : body.Synced) (hline : line ∈ body.lines) (hlabel : line.instruction = .label id) :
    body.labels.isDestination line = true ↔ id ∈ Line.targets body.lines := by
  obtain ⟨names, hrecords⟩ := hsynced.recorded
  have hsite := Line.site?_eq_some_of_mem hsynced.nodup_definitions hline hlabel
  simp [LabelTable.isDestination, hlabel, hrecords id, hsite, List.count_eq_zero]

namespace Renumbered

variable {renumbering : Renumbering} {source result : Body} {before lines : List Line}
variable {id : LabelId}

theorem injective (hrenumbered : source.Renumbered renumbering result) {left right : LabelId}
    (hleft : left ∈ Line.definitions source.lines)
    (hright : right ∈ Line.definitions source.lines)
    (heq : renumbering.label left = renumbering.label right) : left = right :=
  Renumbering.injective_of_increasing hrenumbered.increasing hleft hright heq

theorem mem_targets_iff (hrenumbered : source.Renumbered renumbering result)
    (hid : id ∈ Line.definitions source.lines) :
    renumbering.label id ∈ Line.targets result.lines ↔ id ∈ Line.targets source.lines := by
  rw [hrenumbered.lines, Renumbering.targets_map, List.mem_map]
  constructor
  · rintro ⟨other, hother, heq⟩
    have hdefined := hrenumbered.source_synced.mem_definitions hother
    rwa [← hrenumbered.injective hdefined hid heq]
  · intro htarget
    exact ⟨id, htarget, rfl⟩

theorem count_targets (hrenumbered : source.Renumbered renumbering result)
    (hid : id ∈ Line.definitions source.lines) :
    (Line.targets result.lines).count (renumbering.label id) =
      (Line.targets source.lines).count id := by
  rw [hrenumbered.lines, Renumbering.targets_map, List.count, List.countP_map, List.count]
  apply List.countP_congr
  intro other hother
  have hdefined := hrenumbered.source_synced.mem_definitions hother
  simp only [Function.comp_apply, beq_iff_eq]
  exact ⟨fun heq => hrenumbered.injective hdefined hid heq, congrArg renumbering.label⟩

theorem mem_definitions (hrenumbered : source.Renumbered renumbering result)
    (hid : id ∈ Line.definitions source.lines) :
    renumbering.label id ∈ Line.definitions result.lines := by
  rw [hrenumbered.lines, Renumbering.definitions_map]
  exact List.mem_map_of_mem hid

theorem isDead (hrenumbered : source.Renumbered renumbering result)
    (hid : id ∈ Line.definitions source.lines) :
    result.labels.isDead (renumbering.label id) = source.labels.isDead id := by
  obtain ⟨_, hsource⟩ := hrenumbered.source_synced.recorded
  obtain ⟨_, hresult⟩ := hrenumbered.result_synced.recorded
  rw [hsource.isDead hid, hresult.isDead (hrenumbered.mem_definitions hid)]
  simp only [hrenumbered.mem_targets_iff hid]

theorem bothUnique (hrenumbered : source.Renumbered renumbering result) {other : LabelId}
    (hid : id ∈ Line.definitions source.lines) (hother : other ∈ Line.definitions source.lines) :
    Control.bothUnique result.labels (renumbering.label id) (renumbering.label other) =
      Control.bothUnique source.labels id other := by
  obtain ⟨_, hsource⟩ := hrenumbered.source_synced.recorded
  obtain ⟨_, hresult⟩ := hrenumbered.result_synced.recorded
  rw [Control.bothUnique_of_records hsource hid hother,
    Control.bothUnique_of_records hresult (hrenumbered.mem_definitions hid)
      (hrenumbered.mem_definitions hother),
    hrenumbered.count_targets hid, hrenumbered.count_targets hother]

theorem landing (hrenumbered : source.Renumbered renumbering result)
    (hid : id ∈ Line.definitions source.lines) :
    ∃ front position rest, source.lines = front ++ ⟨position, .label id⟩ :: rest ∧
      source.landing id = .ok (⟨position, .label id⟩ :: rest) ∧
      result.landing (renumbering.label id) =
        .ok (renumbering.line ⟨position, .label id⟩ :: rest.map renumbering.line) := by
  rw [Line.definitions_eq] at hid
  obtain ⟨front, position, rest, hlines, hlanding⟩ := hrenumbered.source_synced.landing hid
  refine ⟨front, position, rest, hlines, hlanding, ?_⟩
  apply hrenumbered.result_synced.landing_of_split
  rw [hrenumbered.lines, hlines, List.map_append, List.map_cons]
  rfl

theorem isDestination (hrenumbered : source.Renumbered renumbering result) {line : Line}
    (hline : line ∈ source.lines) :
    result.labels.isDestination (renumbering.line line) = source.labels.isDestination line := by
  cases hlabel : line.instruction.label? with
  | none =>
      have hlabel' : (renumbering.line line).instruction.label? = none := by
        rw [Renumbering.line, Renumbering.label?_instruction, hlabel]
        rfl
      simp only [LabelTable.isDestination, hlabel, hlabel']
  | some id =>
      have hlabel := Code.label?_eq_some_iff.mp hlabel
      have hid : id ∈ Line.definitions source.lines :=
        Line.mem_definitions.mpr (List.mem_map.mpr ⟨line, hline, hlabel⟩)
      have hline' : renumbering.line line ∈ result.lines := by
        rw [hrenumbered.lines]
        exact List.mem_map_of_mem hline
      have hlabel' : (renumbering.line line).instruction = .label (renumbering.label id) := by
        rw [Renumbering.line, hlabel]
        rfl
      rw [Bool.eq_iff_iff, hrenumbered.result_synced.isDestination_iff hline' hlabel',
        hrenumbered.source_synced.isDestination_iff hline hlabel, hrenumbered.mem_targets_iff hid]

end Renumbered

/-- Two bodies in step with the same instructions differ in the positions of their
lines only, as far as they agree on the number of a new label. -/
theorem Synced.exists_renumbering {source result : Body} (hsource : source.Synced)
    (hresult : result.Synced) (hinstructions : result.instructions = source.instructions)
    (hfresh : ∀ id, source.labels.fresh? = some id → result.labels.fresh? = some id) :
    ∃ position, source.Renumbered ⟨position, id⟩ result := by
  -- A position goes to the one at the same place in the other body.
  let positions : List Nat := result.lines.map Line.position
  refine ⟨fun position => positions.getD ((source.lines.map Line.position).idxOf position) 0,
    hsource, hresult, ?_, fun _ _ _ _ hlt => hlt, hfresh⟩
  have hlength : result.lines.length = source.lines.length := by
    simpa [Body.instructions, Line.instructions] using congrArg List.length hinstructions
  apply List.ext_getElem
  · rw [hlength, List.length_map]
  · intro index hleft hright
    have hindex : index < source.lines.length := hlength ▸ hleft
    have hplace := source.distinct.idxOf_getElem index (by simpa using hindex)
    rw [List.getElem_map] at hplace
    have hposition : positions.getD ((source.lines.map Line.position).idxOf
        source.lines[index].position) 0 = result.lines[index].position := by
      simp [hplace, positions, hleft]
    have hinstruction : result.lines[index].instruction = source.lines[index].instruction := by
      simpa [Body.instructions, Line.instructions, hleft, hindex] using
        congrArg (fun code => code[index]?) hinstructions
    rw [List.getElem_map, Renumbering.line, Renumbering.instruction_eq_self fun _ _ => rfl,
      ← hinstruction]
    exact congrArg (Line.mk · result.lines[index].instruction) hposition.symm

end Body

end Peephole
