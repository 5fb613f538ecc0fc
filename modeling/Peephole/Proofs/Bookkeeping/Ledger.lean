import Peephole.LabelTable
import Peephole.Proofs.Code

/-!
# What a label table records

In the middle of a rewrite the table of a body does not agree with its lines: a
jump may have been counted off and still stand there, or a label may be gone
from the table before it is gone from the lines.  A table is therefore compared
with the lines whose labels it holds and with a list of the jumps it counts,
and each operation of the table changes one of the two.
-/

namespace Peephole

@[simp]
theorem ok_bind {α β : Type} (value : α) (next : α → Except Fault β) :
    (Except.ok value >>= next) = next value := rfl

@[simp]
theorem pure_eq_ok {α : Type} (value : α) : (pure value : Except Fault α) = .ok value := rfl

theorem bind_eq_ok_iff {α β : Type} {first : Except Fault α} {next : α → Except Fault β}
    {result : β} :
    first >>= next = .ok result ↔ ∃ value, first = .ok value ∧ next value = .ok result := by
  cases first with
  | error fault => simp [bind, Except.bind]
  | ok value => simp

namespace Line

/-- The position at which some lines define a label. -/
def site? (id : LabelId) (lines : List Line) : Option Nat :=
  (lines.find? (·.instruction = .label id)).map position

@[simp]
theorem site?_nil (id : LabelId) : site? id [] = none := rfl

theorem site?_cons (id : LabelId) (line : Line) (lines : List Line) :
    site? id (line :: lines) =
      if line.instruction = .label id then some line.position else site? id lines := by
  by_cases hline : line.instruction = .label id <;> simp [site?, hline]

@[simp]
theorem site?_append (id : LabelId) (left right : List Line) :
    site? id (left ++ right) = (site? id left).or (site? id right) := by
  simp [site?, List.find?_append, Option.map_or]

theorem site?_eq_none_iff {id : LabelId} {lines : List Line} :
    site? id lines = none ↔ id ∉ definitions lines := by
  rw [definitions_eq, Code.mem_definitions]
  simp [site?, instructions]

theorem site?_of_definitions_eq_nil {lines : List Line} (hlines : definitions lines = [])
    (id : LabelId) : site? id lines = none := by
  rw [site?_eq_none_iff, hlines]
  exact List.not_mem_nil

/-- Dropping the definition of one label leaves the places of the others. -/
theorem site?_filter_ne (id other : LabelId) (lines : List Line) :
    site? other (lines.filter (·.instruction ≠ .label id)) =
      if id = other then none else site? other lines := by
  induction lines with
  | nil => simp
  | cons line rest ih =>
      by_cases hline : line.instruction = .label id
      · rw [List.filter_cons_of_neg (by simp [hline]), ih, site?_cons, hline]
        by_cases hother : id = other <;> simp [hother]
      · rw [List.filter_cons_of_pos (by simp [hline]), site?_cons, ih, site?_cons]
        by_cases hother : id = other
        · subst other
          simp [hline]
        · simp [hother]

theorem site?_eq_some_of_mem {lines : List Line} {line : Line} {id : LabelId}
    (hnodup : (definitions lines).Nodup) (hline : line ∈ lines)
    (hlabel : line.instruction = .label id) : site? id lines = some line.position := by
  induction lines with
  | nil => simp at hline
  | cons head rest ih =>
      rw [site?_cons]
      by_cases hhead : head.instruction = .label id
      · rcases List.mem_cons.mp hline with rfl | hrest
        · simp [hlabel]
        · have hmem : id ∈ definitions rest := by
            rw [definitions_eq, Code.mem_definitions]
            exact List.mem_map.mpr ⟨line, hrest, hlabel⟩
          simp [definitions, hhead, Instruction.label?] at hnodup hmem
          exact absurd hmem (by simpa using hnodup.1)
      · rw [if_neg hhead]
        refine ih (hnodup.sublist ?_) ?_
        · exact (List.sublist_cons_self head rest).filterMap _
        · rcases List.mem_cons.mp hline with rfl | hrest
          · exact absurd hlabel hhead
          · exact hrest

end Line

namespace LabelTable

theorem id_of_get?_eq_some {table : LabelTable} {id : LabelId} {entry : LabelEntry}
    (hentry : table.get? id = some entry) : entry.id = id := by
  simpa using List.find?_some hentry

theorem get?_eq_some_of_mem {table : LabelTable} {entry : LabelEntry}
    (hentry : entry ∈ table.entries) : table.get? entry.id = some entry := by
  have hascending := table.ascending
  rw [get?]
  generalize table.entries = entries at hentry hascending
  induction entries with
  | nil => simp at hentry
  | cons head rest ih =>
      obtain ⟨hhead, hrest⟩ := List.pairwise_cons.mp hascending
      rcases List.mem_cons.mp hentry with rfl | hmem
      · simp
      · have hlt := hhead entry hmem
        rw [List.find?_cons_of_neg, ih hmem hrest]
        simpa using UInt32.ne_of_lt hlt

theorem mem_ids_iff {table : LabelTable} {id : LabelId} :
    id ∈ table.entries.map LabelEntry.id ↔ ∃ entry, table.get? id = some entry := by
  rw [List.mem_map]
  constructor
  · rintro ⟨entry, hentry, rfl⟩
    exact ⟨entry, get?_eq_some_of_mem hentry⟩
  · rintro ⟨entry, hentry⟩
    exact ⟨entry, List.mem_of_find?_eq_some hentry, id_of_get?_eq_some hentry⟩

/-- Tables that know the same labels list them in the same order. -/
theorem ids_eq_of_isSome_eq {table other : LabelTable}
    (hget : ∀ id, (table.get? id).isSome = (other.get? id).isSome) :
    table.entries.map LabelEntry.id = other.entries.map LabelEntry.id := by
  have hascending : ∀ table : LabelTable, (table.entries.map LabelEntry.id).Pairwise (· < ·) :=
    fun table => List.pairwise_map.mpr table.ascending
  have hnodup : ∀ table : LabelTable, (table.entries.map LabelEntry.id).Nodup :=
    fun table => (hascending table).imp UInt32.ne_of_lt
  apply List.Perm.eq_of_pairwise _ (hascending table) (hascending other)
  · rw [List.perm_ext_iff_of_nodup (hnodup table) (hnodup other)]
    intro id
    rw [mem_ids_iff, mem_ids_iff, ← Option.isSome_iff_exists, ← Option.isSome_iff_exists, hget]
  · intro left right _ _ hlt hgt
    exact absurd hgt (UInt32.lt_asymm hlt)

/-- The entries of a table are what it has under the numbers of its labels. -/
theorem map_some_entries {α : Type} (table : LabelTable) (view : LabelEntry → α) :
    table.entries.map (fun entry => some (view entry)) =
      (table.entries.map LabelEntry.id).map fun id => (table.get? id).map view := by
  rw [List.map_map]
  apply List.map_congr_left
  intro entry hentry
  rw [Function.comp_apply, get?_eq_some_of_mem hentry, Option.map_some]

/-- Tables in which every label looks the same have entries that do. -/
theorem map_entries_eq {α : Type} {table other : LabelTable} {view : LabelEntry → α}
    (hget : ∀ id, (table.get? id).map view = (other.get? id).map view) :
    table.entries.map view = other.entries.map view := by
  have hids : table.entries.map LabelEntry.id = other.entries.map LabelEntry.id := by
    apply ids_eq_of_isSome_eq
    intro id
    simpa using congrArg Option.isSome (hget id)
  apply (List.map_inj_right fun _ _ => Option.some.inj).mp
  rw [List.map_map, List.map_map]
  calc table.entries.map (fun entry => some (view entry))
      _ = (table.entries.map LabelEntry.id).map fun id => (table.get? id).map view :=
          table.map_some_entries view
      _ = (other.entries.map LabelEntry.id).map fun id => (other.get? id).map view := by
          simp only [hids, hget]
      _ = other.entries.map (fun entry => some (view entry)) := (other.map_some_entries view).symm

/-- Tables with the same entries and the same bound are the same. -/
theorem eq_of_get?_eq {table other : LabelTable} (hget : ∀ id, table.get? id = other.get? id)
    (hsupply : table.supply = other.supply) : table = other := by
  have hentries : table.entries.map (fun entry => entry) = other.entries.map fun entry => entry := by
    apply map_entries_eq
    intro id
    rw [hget]
  rw [List.map_id', List.map_id'] at hentries
  exact LabelTable.ext hentries hsupply

/-- The entries of a table are the labels that some lines define, each with a
name, with its position and with the number of times it occurs among some
jumps. -/
def Records (table : LabelTable) (names : LabelId → String) (lines : List Line)
    (jumps : List LabelId) : Prop :=
  ∀ id, table.get? id =
    (Line.site? id lines).map fun position => ⟨id, names id, position, jumps.count id⟩

namespace Records

variable {table : LabelTable} {names : LabelId → String} {lines : List Line}
variable {jumps : List LabelId} {id : LabelId}

/-- Only the places of the labels and the numbers of the jumps matter. -/
theorem congr {lines' : List Line} {jumps' : List LabelId}
    (hrecords : table.Records names lines jumps)
    (hlines : ∀ id, Line.site? id lines' = Line.site? id lines)
    (hjumps : jumps'.Perm jumps) : table.Records names lines' jumps' := by
  intro id
  rw [hrecords id, hlines id, hjumps.count_eq id]

theorem get?_eq_none (hrecords : table.Records names lines jumps)
    (hid : id ∉ Line.definitions lines) : table.get? id = none := by
  rw [hrecords id, Line.site?_eq_none_iff.mpr hid]
  rfl

theorem exists_entry (hrecords : table.Records names lines jumps)
    (hid : id ∈ Line.definitions lines) :
    ∃ position, Line.site? id lines = some position ∧
      table.entry id = .ok ⟨id, names id, position, jumps.count id⟩ := by
  cases hsite : Line.site? id lines with
  | none => exact absurd hid (Line.site?_eq_none_iff.mp hsite)
  | some position => exact ⟨position, rfl, by simp [entry, hrecords id, hsite]⟩

/-- What a table has under a number, as far as it does not depend on the position. -/
theorem map_get?_eq {α : Type} {view : LabelEntry → α} {value : α}
    (hrecords : table.Records names lines jumps)
    (hview : ∀ position, view ⟨id, names id, position, jumps.count id⟩ = value) :
    (table.get? id).map view = if id ∈ Line.definitions lines then some value else none := by
  rw [hrecords id, Option.map_map]
  cases hsite : Line.site? id lines with
  | none =>
      rw [if_neg (Line.site?_eq_none_iff.mp hsite)]
      rfl
  | some position =>
      have hid : id ∈ Line.definitions lines := by
        refine Decidable.byContradiction fun hnot => ?_
        rw [Line.site?_eq_none_iff.mpr hnot] at hsite
        cases hsite
      rw [if_pos hid, ← hview position]
      rfl

theorem isDead (hrecords : table.Records names lines jumps)
    (hid : id ∈ Line.definitions lines) :
    table.isDead id = .ok (decide (id ∉ jumps)) := by
  obtain ⟨position, -, hentry⟩ := hrecords.exists_entry hid
  by_cases hjump : id ∈ jumps
  · have hcount := Nat.ne_of_gt (List.count_pos_iff.mpr hjump)
    simp [LabelTable.isDead, hentry, hjump, hcount]
  · simp [LabelTable.isDead, hentry, hjump, List.count_eq_zero]

theorem isUnique (hrecords : table.Records names lines jumps)
    (hid : id ∈ Line.definitions lines) :
    table.isUnique id = .ok (jumps.count id == 1) := by
  obtain ⟨position, -, hentry⟩ := hrecords.exists_entry hid
  simp [LabelTable.isUnique, hentry]

/-- Counting a jump off takes it from the list. -/
theorem release (hrecords : table.Records names lines jumps)
    (hid : id ∈ Line.definitions lines) (hjump : id ∈ jumps) :
    ∃ released, table.release id = .ok released ∧
      released.Records names lines (jumps.erase id) := by
  obtain ⟨position, hsite, hentry⟩ := hrecords.exists_entry hid
  obtain ⟨count, hcount⟩ := Nat.exists_eq_succ_of_ne_zero
    (Nat.ne_of_gt (List.count_pos_iff.mpr hjump))
  refine ⟨table.put ⟨id, names id, position, count⟩, ?_, fun other => ?_⟩
  · simp [LabelTable.release, hentry, hcount]
  · rw [get?_put]
    by_cases hother : id = other
    · subst other
      simp [hsite, hcount]
    · rw [if_neg hother, hrecords other, List.count_erase_of_ne (Ne.symm hother)]

/-- Counting one more jump adds it to the list. -/
theorem acquire (hrecords : table.Records names lines jumps)
    (hid : id ∈ Line.definitions lines) :
    ∃ acquired, table.acquire id = .ok acquired ∧
      acquired.Records names lines (id :: jumps) := by
  obtain ⟨position, hsite, hentry⟩ := hrecords.exists_entry hid
  refine ⟨table.put ⟨id, names id, position, jumps.count id + 1⟩, ?_, fun other => ?_⟩
  · simp [LabelTable.acquire, hentry]
  · rw [get?_put]
    by_cases hother : id = other
    · subst other
      simp [hsite]
    · rw [if_neg hother, hrecords other, List.count_cons_of_ne hother]

/-- The entry of a label without jumps can be taken out. -/
theorem remove (hrecords : table.Records names lines jumps)
    (hid : id ∈ Line.definitions lines) (hjump : id ∉ jumps) :
    ∃ removed, table.remove id = .ok removed ∧
      removed.Records names (lines.filter (·.instruction ≠ .label id)) jumps := by
  obtain ⟨position, -, hentry⟩ := hrecords.exists_entry hid
  refine ⟨table.erase id, ?_, fun other => ?_⟩
  · simp [LabelTable.remove, hentry, List.count_eq_zero.mpr hjump]
  · rw [get?_erase, Line.site?_filter_ne, hrecords other]
    by_cases hother : id = other <;> simp [hother]

/-- A label that the table does not hold can be put in without jumps. -/
theorem register (hrecords : table.Records names lines jumps) (name : String)
    {lines' : List Line} {position : Nat} (hid : id ∉ Line.definitions lines) (hjump : id ∉ jumps)
    (hsite : ∀ other, Line.site? other lines' =
      if id = other then some position else Line.site? other lines) :
    ∃ registered, table.register ⟨id, name, position, 0⟩ = .ok registered ∧
      registered.Records (fun other => if id = other then name else names other) lines'
        jumps := by
  refine ⟨table.put ⟨id, name, position, 0⟩, ?_, fun other => ?_⟩
  · simp [LabelTable.register, hrecords.get?_eq_none hid]
  · rw [get?_put, hsite other]
    by_cases hother : id = other
    · subst other
      simp [List.count_eq_zero.mpr hjump]
    · simp [hother, hrecords other]

end Records

end LabelTable

end Peephole
