import Peephole.Program
import Peephole.Proofs.Bookkeeping.Script

/-!
# Storing bodies

A method keeps the instructions of a body and those names of its labels that are
not the default.  This is enough to put the body together again: the positions
are new and the table is counted anew, but the code and the names of all labels
are the same, and so is what would be stored.
-/

namespace Peephole

/-- The name under which a table has a label. -/
def LabelTable.name? (table : LabelTable) (id : LabelId) : Option String :=
  (table.get? id).map LabelEntry.name

theorem LabelTable.map_get?_labelName (table : LabelTable) (id : LabelId) :
    (table.get? id).map (fun entry => LabelName.mk entry.id entry.name) =
      (table.name? id).map (LabelName.mk id) := by
  rw [name?, Option.map_map]
  cases hentry : table.get? id with
  | none => rfl
  | some entry =>
      obtain rfl := id_of_get?_eq_some hentry
      rfl

theorem LabelTable.Records.name?_eq {table : LabelTable} {names : LabelId → String}
    {lines : List Line} {jumps : List LabelId} (hrecords : table.Records names lines jumps)
    (id : LabelId) :
    table.name? id = if id ∈ Line.definitions lines then some (names id) else none :=
  hrecords.map_get?_eq fun _ => rfl

namespace Method

variable {table other : LabelTable} {body : Body}

theorem mem_ownNames_iff {label : LabelName} :
    label ∈ ownNames table ↔
      table.name? label.id = some label.name ∧ label.name ≠ defaultLabelName label.id := by
  obtain ⟨id, name⟩ := label
  simp only [ownNames, List.mem_map, List.mem_filter, bne_iff_ne, LabelName.mk.injEq,
    LabelTable.name?, Option.map_eq_some_iff]
  constructor
  · rintro ⟨entry, ⟨hentry, hname⟩, rfl, rfl⟩
    exact ⟨⟨entry, LabelTable.get?_eq_some_of_mem hentry, rfl⟩, hname⟩
  · rintro ⟨⟨entry, hentry, rfl⟩, hname⟩
    obtain rfl := LabelTable.id_of_get?_eq_some hentry
    exact ⟨entry, ⟨List.mem_of_find?_eq_some hentry, hname⟩, rfl, rfl⟩

/-- What is stored of a table depends on the names of its labels only. -/
theorem ownNames_eq_of_name?_eq (hnames : ∀ id, table.name? id = other.name? id) :
    ownNames table = ownNames other := by
  have hlabels : table.entries.map (fun entry => LabelName.mk entry.id entry.name) =
      other.entries.map fun entry => LabelName.mk entry.id entry.name := by
    apply LabelTable.map_entries_eq
    intro id
    rw [LabelTable.map_get?_labelName, LabelTable.map_get?_labelName, hnames]
  have hstored : ∀ table : LabelTable, ownNames table =
      (table.entries.map fun entry => LabelName.mk entry.id entry.name).filter
        fun label => label.name != defaultLabelName label.id := by
    intro table
    rw [List.filter_map]
    rfl
  rw [hstored, hstored, hlabels]

/-- The names that are stored give every label of a table its name back. -/
theorem givenName_ownNames (table : LabelTable) (id : LabelId) :
    Body.givenName ((ownNames table).map fun label => (label.id, label.name)) id =
      (table.name? id).getD (defaultLabelName id) := by
  have hmem : ∀ name, (id, name) ∈
      ((ownNames table).map fun label => (label.id, label.name)).reverse ↔
        table.name? id = some name ∧ name ≠ defaultLabelName id := by
    intro name
    rw [List.mem_reverse, ← @mem_ownNames_iff table ⟨id, name⟩]
    constructor
    · intro hname
      obtain ⟨label, hlabel, heq⟩ := List.mem_map.mp hname
      cases heq
      exact hlabel
    · intro hlabel
      exact List.mem_map_of_mem hlabel
  rw [Body.givenName]
  cases hlookup : List.lookup id
      ((ownNames table).map fun label => (label.id, label.name)).reverse with
  | none =>
      cases hname : table.name? id with
      | none => rfl
      | some name =>
          by_cases hdefault : name = defaultLabelName id
          · exact hdefault.symm
          · have hkey := List.lookup_eq_none_iff.mp hlookup _ ((hmem name).mpr ⟨hname, hdefault⟩)
            simp at hkey
  | some name =>
      obtain ⟨left, right, hsplit, -⟩ := List.lookup_eq_some_iff.mp hlookup
      rw [((hmem name).mp (by simp [hsplit])).1]

end Method

namespace Body

variable {names : List (LabelId × String)} {code : List Instruction} {body : Body}

/-- Well-formed code can be put together under any names. -/
theorem exists_assemble (names : List (LabelId × String)) (hwell : Code.WellFormed code) :
    ∃ body, assemble names code = .ok body := by
  have hrepeated : Line.repeated? (Line.number 0 code) = none := by
    rw [Line.repeated?_eq_none_iff, Line.definitions_number]
    exact hwell.nodup
  have hundefined : Line.undefined? (Line.number 0 code) = none := by
    rw [Line.undefined?_eq_none_iff, Line.definitions_number, Line.targets_number]
    exact hwell.closed
  simp only [assemble, hrepeated, hundefined]
  exact ⟨_, rfl⟩

theorem labels_of_assemble (hassemble : assemble names code = .ok body) :
    body.labels = tabulate names body.lines := by
  rw [assemble] at hassemble
  split at hassemble
  · cases hassemble
  · cases hassemble
  · cases hassemble
    rfl

/-- Tabulating some lines raises the bound on the label numbers above those that they
define. -/
theorem supply_foldl_put_le_iff (entryOf : LabelId → Nat → LabelEntry)
    (hentryOf : ∀ id position, (entryOf id position).id = id) (lines : List Line)
    (table : LabelTable) (bound : Nat) :
    (lines.foldl
        (fun table line =>
          match line.instruction.label? with
          | some id => table.put (entryOf id line.position)
          | none => table)
        table).supply ≤ bound ↔
      table.supply ≤ bound ∧ ∀ id ∈ Line.definitions lines, id.toNat < bound := by
  induction lines generalizing table with
  | nil => simp [Line.definitions]
  | cons line rest ih =>
      rw [List.foldl_cons, ih]
      cases hlabel : line.instruction.label? with
      | none => simp only [Line.definitions, List.filterMap_cons, hlabel]
      | some id =>
          simp only [Line.definitions, List.filterMap_cons, hlabel, LabelTable.put, hentryOf,
            Nat.max_le, Nat.add_one_le_iff, List.forall_mem_cons, and_assoc]

/-- The table of a body that was just put together has used no numbers but those of
its labels. -/
theorem supply_le_iff_of_assemble (hassemble : assemble names code = .ok body) (bound : Nat) :
    body.labels.supply ≤ bound ↔ ∀ id ∈ Code.definitions code, id.toNat < bound := by
  obtain ⟨-, -, rfl⟩ := synced_of_assemble hassemble
  have htable := supply_foldl_put_le_iff
    (fun id position => ⟨id, givenName names id, position, (Line.targets body.lines).count id⟩)
    (fun _ _ => rfl) body.lines .empty bound
  rw [Line.definitions_eq] at htable
  rw [labels_of_assemble hassemble]
  exact htable.trans (and_iff_right (Nat.zero_le bound))

/-- The first label that is put into a body just put together takes the number after the
greatest. -/
theorem labels_supply_of_assemble {greatest : LabelId}
    (hassemble : assemble names code = .ok body)
    (hgreatest : greatest ∈ Code.definitions code)
    (hle : ∀ id ∈ Code.definitions code, id ≤ greatest) :
    body.labels.supply = greatest.toNat + 1 := by
  apply Nat.le_antisymm
  · rw [supply_le_iff_of_assemble hassemble]
    exact fun id hid => Nat.lt_succ_of_le (UInt32.le_iff_toNat_le.mp (hle id hid))
  · exact (supply_le_iff_of_assemble hassemble _).mp (Nat.le_refl _) greatest hgreatest

/-- A body that was just put together has a number for a new label unless the last
number is taken. -/
theorem fresh?_ne_none_iff_of_assemble (hassemble : assemble names code = .ok body) :
    body.labels.fresh? ≠ none ↔ ∀ id ∈ Code.definitions code, id.toNat + 1 < UInt32.size := by
  have hsome : body.labels.fresh? ≠ none ↔ body.labels.supply ≤ UInt32.size - 1 := by
    rw [Nat.le_sub_one_iff_lt (by decide)]
    simp [LabelTable.fresh?]
  rw [hsome, supply_le_iff_of_assemble hassemble]
  simp only [Nat.lt_sub_iff_add_lt]

end Body

namespace Method

variable {body : Body}

theorem assemble_of_toBody {method : Method} (hbody : method.toBody = .ok body) :
    Body.assemble (method.labels.map fun label => (label.id, label.name)) method.code =
      .ok body := by
  rw [toBody] at hbody
  cases hassemble : Body.assemble (method.labels.map fun label => (label.id, label.name))
      method.code with
  | error fault =>
      rw [hassemble] at hbody
      cases hbody
  | ok assembled =>
      rw [hassemble] at hbody
      cases hbody
      rfl

/-- A stored body can be put together again.  It has the same code and the same
names for its labels. -/
theorem exists_toBody_store (method : Method) (hsynced : body.Synced) :
    ∃ rebuilt, (method.store body).toBody = .ok rebuilt ∧ rebuilt.Synced ∧
      rebuilt.instructions = body.instructions ∧
      ∀ id, rebuilt.labels.name? id = body.labels.name? id := by
  obtain ⟨rebuilt, hassemble⟩ := Body.exists_assemble
    ((ownNames body.labels).map fun label => (label.id, label.name)) hsynced.wellFormed
  obtain ⟨hrebuilt, -, hinstructions⟩ := Body.synced_of_assemble hassemble
  have htoBody : (method.store body).toBody = .ok rebuilt := by
    rw [toBody, store, hassemble]
    rfl
  refine ⟨rebuilt, htoBody, hrebuilt, hinstructions, ?_⟩
  intro id
  obtain ⟨names, hrecords⟩ := hsynced.recorded
  have hname := hrecords.name?_eq id
  have hdefinitions : Line.definitions rebuilt.lines = Line.definitions body.lines := by
    rw [Line.definitions_eq, Line.definitions_eq]
    exact congrArg Code.definitions hinstructions
  rw [(Body.records_of_assemble hassemble).name?_eq id, givenName_ownNames, hdefinitions]
  by_cases hid : id ∈ Line.definitions body.lines <;> simp [hname, hid]

/-- What is stored of a body that was stored before is the same again. -/
theorem store_store {method : Method} {rebuilt : Body}
    (hinstructions : rebuilt.instructions = body.instructions)
    (hnames : ∀ id, rebuilt.labels.name? id = body.labels.name? id) :
    (method.store body).store rebuilt = method.store body := by
  rw [store, store, hinstructions, ownNames_eq_of_name?_eq hnames]

end Method

end Peephole
