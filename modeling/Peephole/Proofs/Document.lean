import Peephole.Document.Program
import Peephole.Proofs.Json.Reading

/-!
# Documents

Each part of a program is read back from the value that stands for it: numbers from
their notation within the bounds of their type, variants by their name, and records by
the names of their fields, of which an empty list of labels is left out.  So a program
is read back from its document.
-/

namespace Peephole

namespace Json

/-- Items that are read back one by one are read back as a list. -/
theorem items?_map {α : Type} {read? : Json → Option α} {toJson : α → Json}
    (hread : ∀ value, read? (toJson value) = some value) (values : List α) :
    (Json.array (values.map toJson)).items? read? = some values := by
  rw [items?]
  induction values with
  | nil => rfl
  | cons value values ih =>
      rw [List.map_cons, List.mapM_cons, hread, ih]
      rfl

theorem integer?_integer {low high value : Int} (hlow : low ≤ value) (hhigh : value < high) :
    (integer value).integer? low high = some value := by
  rw [integer, integer?, if_pos ⟨hlow, hhigh⟩]

theorem natural?_integer {bound value : Nat} (hvalue : value < bound) :
    (integer value).natural? bound = some value := by
  rw [natural?, integer?_integer (Int.natCast_nonneg value) (Int.ofNat_lt.mpr hvalue)]
  rfl

section

variable {members : List (String × Json)}

theorem field?_record (hdistinct : (members.map Prod.fst).Nodup) (name : String) :
    field? name (members.map fun member => (some member.1, member.2)) =
      some (List.lookup name members) := by
  induction members with
  | nil => rfl
  | cons member members ih =>
      rw [List.map_cons, List.nodup_cons] at hdistinct
      rw [field?] at ih ⊢
      rw [List.map_cons, List.filter_cons, List.lookup_cons]
      by_cases hname : name = member.1
      · subst hname
        have hothers : (members.map fun member => (some member.1, member.2)).filter
            (·.1 == some member.1) = [] := by
          rw [List.filter_eq_nil_iff]
          intro written hwritten
          obtain ⟨other, hother, rfl⟩ := List.mem_map.mp hwritten
          have hne : other.1 ≠ member.1 := by
            intro heq
            exact hdistinct.1 (heq ▸ List.mem_map_of_mem hother)
          simp [hne]
        rw [hothers]
        simp
      · have hpassed : (name == member.1) = false := beq_eq_false_iff_ne.mpr hname
        rw [if_neg (by simp [Ne.symm hname]), hpassed]
        exact ih hdistinct.2

/-- The fields of a record are found by their names. -/
theorem fields?_record (hdistinct : (members.map Prod.fst).Nodup) (names : List String) :
    (record members).fields? names = some (names.map (List.lookup · members)) := by
  have hnamed : (members.map fun member => (some member.1, member.2)).all (·.1.isSome) = true := by
    simp
  rw [record, fields?, if_pos hnamed]
  induction names with
  | nil => rfl
  | cons name names ih =>
      rw [List.mapM_cons, field?_record hdistinct, ih]
      rfl

end

end Json

namespace Instruction

open Json

theorem readSlot?_integer (slot : Slot) : readSlot? (integer slot.toNat) = some slot := by
  rw [readSlot?, natural?_integer slot.toNat_lt_size, Option.map_some, UInt16.ofNat_toNat]

theorem readLabel?_integer (id : LabelId) : readLabel? (integer id.toNat) = some id := by
  rw [readLabel?, natural?_integer id.toNat_lt_size, Option.map_some, UInt32.ofNat_toNat]

theorem readConstant?_integer (value : Int32) :
    readConstant? (integer value.toInt) = some value := by
  have hlow := value.le_toInt
  have hhigh := value.toInt_lt
  rw [readConstant?, integer?_integer (by omega) (by omega), Option.map_some, Int32.ofInt_toInt]

theorem readAmount?_integer (amount : Int8) :
    readAmount? (integer amount.toInt) = some amount := by
  have hlow := amount.le_toInt
  have hhigh := amount.toInt_lt
  rw [readAmount?, integer?_integer (by omega) (by omega), Option.map_some, Int8.ofInt_toInt]

section

variable {instruction : Instruction} {operand : Json}

/-- The name of an instruction with operands is that of none without. -/
theorem ofJson?_of_operand (hoperand : instruction.operand? = some operand)
    (hplain : plain.find? (·.documentName == instruction.documentName) = none) :
    ofJson? instruction.toJson = ofOperand? instruction.documentName operand := by
  rw [toJson, hoperand]
  dsimp only
  rw [ofJson?, record, List.map_cons, List.map_nil, variant?]
  dsimp only [Option.bind_eq_bind, Option.bind_some]
  rw [hplain]

theorem ofJson?_of_slot {build : Slot → Instruction} {slot : Slot}
    (hoperand : instruction.operand? = some (integer slot.toNat))
    (hplain : plain.find? (·.documentName == instruction.documentName) = none)
    (hslot : withSlot.find? (fun other => (other 0).documentName == instruction.documentName) =
      some build) :
    ofJson? instruction.toJson = some (build slot) := by
  rw [ofJson?_of_operand hoperand hplain]
  unfold ofOperand?
  rw [hslot]
  exact congrArg (Option.map build) (readSlot?_integer slot)

theorem ofJson?_of_label {build : LabelId → Instruction} {id : LabelId}
    (hoperand : instruction.operand? = some (integer id.toNat))
    (hplain : plain.find? (·.documentName == instruction.documentName) = none)
    (hslot : withSlot.find? (fun other => (other 0).documentName == instruction.documentName) =
      none)
    (hlabel : withLabel.find? (fun other => (other 0).documentName == instruction.documentName) =
      some build) :
    ofJson? instruction.toJson = some (build id) := by
  rw [ofJson?_of_operand hoperand hplain]
  unfold ofOperand?
  rw [hslot, hlabel]
  exact congrArg (Option.map build) (readLabel?_integer id)

end

/-- Every instruction is read back from its value. -/
theorem ofJson?_toJson (instruction : Instruction) :
    ofJson? instruction.toJson = some instruction := by
  cases instruction with
  | load kind slot => cases kind <;> exact ofJson?_of_slot rfl rfl rfl
  | store kind slot => cases kind <;> exact ofJson?_of_slot rfl rfl rfl
  | increment slot amount =>
      rw [ofJson?_of_operand rfl rfl]
      change ((readSlot? (integer slot.toNat)).bind fun slot =>
        (readAmount? (integer amount.toInt)).bind fun amount => some (increment slot amount)) = _
      rw [readSlot?_integer, readAmount?_integer]
      rfl
  | const value =>
      rw [ofJson?_of_operand rfl rfl]
      exact congrArg (Option.map const) (readConstant?_integer value)
  | goto id => exact ofJson?_of_label rfl rfl rfl rfl
  | branch condition id =>
      rcases condition with (_ | _) | (_ | _ | _ | _ | _ | _) <;>
        exact ofJson?_of_label rfl rfl rfl rfl
  | label id => exact ofJson?_of_label rfl rfl rfl rfl
  | binary operator => cases operator <;> rfl
  | _ => rfl

end Instruction

namespace LabelName

theorem ofJson?_toJson (label : LabelName) : ofJson? label.toJson = some label := by
  have hfields : label.toJson.fields? ["id", "name"] =
      some [some (.integer label.id.toNat), some (.text label.name)] := by
    rw [toJson, Json.fields?_record (by simp)]
    simp [List.lookup_cons]
  rw [ofJson?, hfields]
  simp [Instruction.readLabel?_integer, Json.text, Json.text?]

end LabelName

theorem MethodKind.ofJson?_toJson (kind : MethodKind) : ofJson? kind.toJson = some kind := by
  cases kind <;> rfl

namespace Method

/-- An empty list of labels is left out, and a list that is left out is empty. -/
theorem orElse?_labels (labels : List LabelName) :
    Json.orElse? [] (Json.items? LabelName.ofJson?)
      (if labels = [] then none else some (.array (labels.map LabelName.toJson))) =
        some labels := by
  split
  · subst labels
    rw [Json.orElse?]
  · rw [Json.orElse?, Json.items?_map LabelName.ofJson?_toJson]

theorem ofJson?_toJson (method : Method) : ofJson? method.toJson = some method := by
  have hfields : method.toJson.fields? ["name", "kind", "code", "labels"] =
      some [some (.text method.name), some method.kind.toJson,
        some (.array (method.code.map Instruction.toJson)),
        if method.labels = [] then none
        else some (.array (method.labels.map LabelName.toJson))] := by
    rw [toJson, Json.fields?_record (by split <;> simp)]
    cases method.labels <;> simp [List.lookup_cons]
  rw [ofJson?, hfields]
  simp [Json.text, Json.text?, MethodKind.ofJson?_toJson,
    Json.items?_map Instruction.ofJson?_toJson, orElse?_labels]

end Method

theorem Program.ofJson?_toJson (program : Program) : ofJson? program.toJson = some program := by
  have hfields : program.toJson.fields? ["methods"] =
      some [some (.array (program.methods.map Method.toJson))] := by
    rw [toJson, Json.fields?_record (by simp)]
    simp [List.lookup_cons]
  rw [ofJson?, hfields]
  exact congrArg (Option.map Program.mk) (Json.items?_map Method.ofJson?_toJson program.methods)

/-- The document of a program is a text for its value, and the program is read back from
it, whatever its names, operands and label lists are. -/
theorem Program.read_back_from_document (program : Program) :
    Json.parse? program.toText = some program.toJson ∧
      ofText? program.toText = some program := by
  have hparse : Json.parse? program.toText = some program.toJson :=
    Json.parse?_pretty program.toJson
  refine ⟨hparse, ?_⟩
  rw [ofText?, hparse, Option.bind_some]
  exact program.ofJson?_toJson

end Peephole
