import Peephole.Fault

/-!
# Label tables

A label table keeps, for every label of a body, its name, the position of its
definition and the number of jumps to it.  Entries are listed by increasing
label number.  The table also remembers a bound above every number it has ever
held, so that a new label never takes the number of one that was removed.
-/

namespace Peephole

structure LabelEntry where
  id : LabelId
  name : String
  position : Nat
  references : Nat
  deriving DecidableEq, Repr

@[ext]
structure LabelTable where
  entries : List LabelEntry
  /-- A bound above every label number the table has ever held. -/
  supply : Nat
  ascending : entries.Pairwise (fun left right => left.id < right.id)
  below_supply : ∀ entry ∈ entries, entry.id.toNat < supply

namespace LabelTable

def empty : LabelTable where
  entries := []
  supply := 0
  ascending := List.Pairwise.nil
  below_supply := by simp

/-- Puts an entry at its place in an ascending list, instead of the one that has
its number if there is one. -/
def place (entry : LabelEntry) : List LabelEntry → List LabelEntry
  | [] => [entry]
  | head :: rest =>
      if entry.id < head.id then entry :: head :: rest
      else if entry.id = head.id then entry :: rest
      else head :: place entry rest

theorem mem_place {entry other : LabelEntry} {entries : List LabelEntry}
    (hother : other ∈ place entry entries) : other = entry ∨ other ∈ entries := by
  induction entries with
  | nil => simpa [place] using hother
  | cons head rest ih =>
      simp only [place] at hother
      split at hother
      · simpa using hother
      · split at hother
        · rcases List.mem_cons.mp hother with h | h
          · exact .inl h
          · exact .inr (List.mem_cons_of_mem _ h)
        · rcases List.mem_cons.mp hother with h | h
          · exact .inr (by simp [h])
          · rcases ih h with h | h
            · exact .inl h
            · exact .inr (List.mem_cons_of_mem _ h)

theorem pairwise_place (entry : LabelEntry) {entries : List LabelEntry}
    (hentries : entries.Pairwise (fun left right => left.id < right.id)) :
    (place entry entries).Pairwise (fun left right => left.id < right.id) := by
  induction entries with
  | nil => simp [place]
  | cons head rest ih =>
      obtain ⟨hhead, hrest⟩ := List.pairwise_cons.mp hentries
      simp only [place]
      split
      · rename_i hlt
        refine List.pairwise_cons.mpr ⟨fun other hother => ?_, hentries⟩
        rcases List.mem_cons.mp hother with rfl | hother
        · exact hlt
        · exact UInt32.lt_trans hlt (hhead other hother)
      · rename_i hnot
        split
        · rename_i heq
          exact List.pairwise_cons.mpr ⟨fun other hother => heq ▸ hhead other hother, hrest⟩
        · rename_i hne
          refine List.pairwise_cons.mpr ⟨fun other hother => ?_, ih hrest⟩
          rcases mem_place hother with rfl | hother
          · exact UInt32.lt_of_le_of_ne (UInt32.not_lt.mp hnot) (Ne.symm hne)
          · exact hhead other hother

/-- Adds an entry, or replaces the one that has its number. -/
def put (table : LabelTable) (entry : LabelEntry) : LabelTable where
  entries := place entry table.entries
  supply := max table.supply (entry.id.toNat + 1)
  ascending := pairwise_place entry table.ascending
  below_supply := by
    intro other hother
    rcases mem_place hother with rfl | hother
    · omega
    · have := table.below_supply other hother
      omega

/-- Takes an entry out.  Its number stays used. -/
def erase (table : LabelTable) (id : LabelId) : LabelTable where
  entries := table.entries.filter (·.id != id)
  supply := table.supply
  ascending := table.ascending.filter _
  below_supply := fun entry hentry =>
    table.below_supply entry (List.mem_filter.mp hentry).1

def get? (table : LabelTable) (id : LabelId) : Option LabelEntry :=
  table.entries.find? (·.id == id)

theorem find?_place (entry : LabelEntry) (entries : List LabelEntry) (id : LabelId) :
    (place entry entries).find? (·.id == id) =
      if entry.id = id then some entry else entries.find? (·.id == id) := by
  induction entries with
  | nil => grind [place]
  | cons head rest ih =>
      simp only [place]
      split <;> grind

@[simp]
theorem get?_put (table : LabelTable) (entry : LabelEntry) (id : LabelId) :
    (table.put entry).get? id = if entry.id = id then some entry else table.get? id :=
  find?_place entry table.entries id

@[simp]
theorem get?_erase (table : LabelTable) (id other : LabelId) :
    (table.erase id).get? other = if id = other then none else table.get? other := by
  simp only [get?, erase, List.find?_filter]
  split
  · subst other
    simp
  · grind

def size (table : LabelTable) : Nat :=
  table.entries.length

def entry (table : LabelTable) (id : LabelId) : Except Fault LabelEntry :=
  match table.get? id with
  | some entry => .ok entry
  | none => .error (.unknownLabel id)

/-- The least number above all that were ever used, while there is one. -/
def fresh? (table : LabelTable) : Option LabelId :=
  if table.supply < UInt32.size then some (UInt32.ofNat table.supply) else none

/-- Adds an entry whose number must not be in the table. -/
def register (table : LabelTable) (entry : LabelEntry) : Except Fault LabelTable :=
  match table.get? entry.id with
  | some _ => .error (.duplicateLabel entry.id)
  | none => .ok (table.put entry)

/-- Counts one more jump to a label. -/
def acquire (table : LabelTable) (id : LabelId) : Except Fault LabelTable := do
  let entry ← table.entry id
  return table.put { entry with references := entry.references + 1 }

/-- Counts one jump to a label less. -/
def release (table : LabelTable) (id : LabelId) : Except Fault LabelTable := do
  let entry ← table.entry id
  match entry.references with
  | 0 => throw (.labelUnderflow id)
  | references + 1 => return table.put { entry with references := references }

/-- Whether no jump goes to a label. -/
def isDead (table : LabelTable) (id : LabelId) : Except Fault Bool := do
  return (← table.entry id).references == 0

/-- Whether exactly one jump goes to a label. -/
def isUnique (table : LabelTable) (id : LabelId) : Except Fault Bool := do
  return (← table.entry id).references == 1

/-- Takes out the entry of a label that no jump goes to. -/
def remove (table : LabelTable) (id : LabelId) : Except Fault LabelTable := do
  let entry ← table.entry id
  if entry.references = 0 then
    return table.erase id
  else
    throw (.labelDesync id (.liveReferences entry.references))

/-- Moves the definition of a label to another position.  A number that is not in
the table is passed over. -/
def move (table : LabelTable) (id : LabelId) (position : Nat) : LabelTable :=
  match table.get? id with
  | some entry => table.put { entry with position := position }
  | none => table

/-- Moves the definitions that stand on some lines to the positions of these. -/
def settle (table : LabelTable) (lines : List Line) : LabelTable :=
  lines.foldl
    (fun table line =>
      match line.instruction.label? with
      | some id => table.move id line.position
      | none => table)
    table

/-- Whether a line defines a label that the table knows there and that some jump
goes to. -/
def isDestination (table : LabelTable) (line : Line) : Bool :=
  match line.instruction.label? with
  | none => false
  | some id =>
      match table.get? id with
      | none => false
      | some entry => entry.position == line.position && entry.references != 0

end LabelTable

end Peephole
