import Peephole.Proofs.Bookkeeping.Runs
import Peephole.Proofs.Construction

/-!
# Bodies put together again

A body that is stored in a method and put together again is the same but for the
positions, which are counted from zero.  Nothing is lost with the names that are left
out, for they are the defaults, nor with the counts, for a table in step with its body
can be counted from the code.  A body that comes from a method has its positions counted
already, and is put together again as it was, so that storing it a second time changes
nothing, whatever names the method had to begin with.
-/

namespace Peephole

/-- An entry without the position, which is all that changes when a body is put together
again. -/
def LabelEntry.unplaced (entry : LabelEntry) : LabelId × String × Nat :=
  (entry.id, entry.name, entry.references)

/-- But for its position an entry is made up of the name and the jumps. -/
theorem LabelTable.Records.unplaced_eq {table : LabelTable} {names : LabelId → String}
    {lines : List Line} {jumps : List LabelId} (hrecords : table.Records names lines jumps)
    (id : LabelId) :
    (table.get? id).map LabelEntry.unplaced =
      (table.name? id).map fun name => (id, name, jumps.count id) := by
  rw [name?, hrecords id, Option.map_map, Option.map_map, Option.map_map]
  rfl

namespace Line

theorem positions_number (first : Nat) (code : List Instruction) :
    (number first code).map position = List.range' first code.length := by
  induction code generalizing first with
  | nil => rfl
  | cons instruction rest ih => rw [number, List.map_cons, ih, List.length_cons, List.range'_succ]

theorem getElem?_of_mem_number {code : List Instruction} {line : Line}
    (hline : line ∈ number 0 code) : code[line.position]? = some line.instruction := by
  rw [number_eq_mapIdx] at hline
  obtain ⟨index, hindex, rfl⟩ := List.mem_mapIdx.mp hline
  simp

end Line

namespace Body

variable {names other : List (LabelId × String)} {code : List Instruction} {body rebuilt : Body}

/-! ## Listings -/

theorem labelName_eq (body : Body) (id : LabelId) :
    body.labelName id = (body.labels.name? id).getD (defaultLabelName id) := by
  rw [labelName, LabelTable.name?]
  cases body.labels.get? id <;> rfl

theorem listing_eq (body : Body) :
    body.listing = String.join (body.instructions.map fun instruction =>
      (if instruction.isLabel then "" else "  ") ++ instruction.render body.labelName ++ "\n") := by
  rw [listing, instructions, Line.instructions, List.map_map]
  rfl

/-- A listing shows the instructions and the names of the labels, and nothing else. -/
theorem titledListing_eq (hinstructions : rebuilt.instructions = body.instructions)
    (hnames : ∀ id, rebuilt.labels.name? id = body.labels.name? id) (title : String) :
    rebuilt.titledListing title = body.titledListing title := by
  have hlabelName : rebuilt.labelName = body.labelName := by
    funext id
    rw [labelName_eq, labelName_eq, hnames]
  rw [titledListing, titledListing, listing_eq, listing_eq, hinstructions, hlabelName]

/-! ## The same body under other positions -/

/-- A body with all that another holds, at positions that are counted from zero. -/
structure Restores (rebuilt body : Body) : Prop where
  instructions : rebuilt.instructions = body.instructions
  positions : rebuilt.lines.map Line.position = List.range body.length
  labels : rebuilt.labels.entries.map LabelEntry.unplaced =
    body.labels.entries.map LabelEntry.unplaced
  sited : ∀ entry ∈ rebuilt.labels.entries,
    body.instructions[entry.position]? = some (.label entry.id)
  audit : rebuilt.audit = .ok ()
  listing : ∀ title, rebuilt.titledListing title = body.titledListing title

/-- What matters to a body that is put together is the code and the names of the labels. -/
theorem restores_of_assemble (hsynced : body.Synced)
    (hassemble : assemble names body.instructions = .ok rebuilt)
    (hnames : ∀ id, rebuilt.labels.name? id = body.labels.name? id) : rebuilt.Restores body := by
  obtain ⟨hrebuilt, hlines, hinstructions⟩ := synced_of_assemble hassemble
  constructor
  case instructions => exact hinstructions
  case positions =>
    rw [hlines, Line.positions_number, List.range_eq_range', instructions, Line.instructions,
      List.length_map]
    rfl
  case labels =>
    obtain ⟨_, hrecords⟩ := hsynced.recorded
    have htargets : Line.targets rebuilt.lines = Line.targets body.lines := by
      rw [Line.targets_eq, Line.targets_eq]
      exact congrArg Code.targets hinstructions
    apply LabelTable.map_entries_eq
    intro id
    rw [(records_of_assemble hassemble).unplaced_eq, hrecords.unplaced_eq, hnames, htargets]
  case sited =>
    intro entry hentry
    have hline := hrebuilt.accurate.placed entry hentry
    rw [hlines] at hline
    exact Line.getElem?_of_mem_number hline
  case audit => exact audit_eq_ok_iff.mpr hrebuilt
  case listing => exact titledListing_eq hinstructions hnames

/-- Code is put together to the same body under any names that its labels get the same
names from. -/
theorem assemble_eq_of_givenName_eq (hassemble : assemble names code = .ok body)
    (hnames : ∀ id ∈ Code.definitions code, givenName other id = givenName names id) :
    assemble other code = .ok body := by
  obtain ⟨hsynced, hlines, rfl⟩ := synced_of_assemble hassemble
  obtain ⟨rebuilt, hrebuilt⟩ := exists_assemble other hsynced.wellFormed
  obtain ⟨-, hrebuiltLines, -⟩ := synced_of_assemble hrebuilt
  have hsame : rebuilt.lines = body.lines := hrebuiltLines.trans hlines.symm
  have hget : ∀ id, rebuilt.labels.get? id = body.labels.get? id := by
    intro id
    rw [records_of_assemble hrebuilt id, records_of_assemble hassemble id, hsame]
    -- Names for labels that are not defined may differ, for these have no entry.
    by_cases hid : id ∈ Line.definitions body.lines
    · rw [hnames id (by rwa [Line.definitions_eq] at hid)]
    · rw [Line.site?_eq_none_iff.mpr hid]
      rfl
  -- The numbers that were used are those that the code defines.
  have hbound : ∀ bound, rebuilt.labels.supply ≤ bound ↔ body.labels.supply ≤ bound := by
    intro bound
    rw [supply_le_iff_of_assemble hrebuilt, supply_le_iff_of_assemble hassemble]
  have hlabels : rebuilt.labels = body.labels := by
    apply LabelTable.eq_of_get?_eq hget
    exact Nat.le_antisymm ((hbound _).mpr (Nat.le_refl _)) ((hbound _).mp (Nat.le_refl _))
  have hsupply : rebuilt.supply = body.supply :=
    (supply_of_assemble hrebuilt).trans (supply_of_assemble hassemble).symm
  rw [hrebuilt, Body.ext hsame hsupply hlabels]

end Body

namespace Method

variable {method : Method} {body : Body}

theorem exists_restores (method : Method) (hsynced : body.Synced) :
    ∃ rebuilt, (method.store body).toBody = .ok rebuilt ∧ rebuilt.Restores body := by
  obtain ⟨rebuilt, hrebuilt, -, -, hnames⟩ := exists_toBody_store method hsynced
  exact ⟨rebuilt, hrebuilt, Body.restores_of_assemble hsynced (assemble_of_toBody hrebuilt) hnames⟩

/-- A body that comes from a method is put together again as it was. -/
theorem toBody_store (hbody : method.toBody = .ok body) :
    (method.store body).toBody = .ok body := by
  have hassemble := assemble_of_toBody hbody
  obtain ⟨-, -, hinstructions⟩ := Body.synced_of_assemble hassemble
  have hnames : ∀ id ∈ Code.definitions method.code,
      Body.givenName ((ownNames body.labels).map fun label => (label.id, label.name)) id =
        Body.givenName (method.labels.map fun label => (label.id, label.name)) id := by
    intro id hid
    have hdefined : id ∈ Line.definitions body.lines := by
      rw [← hinstructions] at hid
      rwa [Line.definitions_eq]
    rw [givenName_ownNames, (Body.records_of_assemble hassemble).name?_eq, if_pos hdefined]
    rfl
  rw [toBody, store, hinstructions, Body.assemble_eq_of_givenName_eq hassemble hnames]
  rfl

/-- The method with its own body stored in it. -/
def refresh (method : Method) : Except Fault Method := do
  return method.store (← method.toBody)

/-- Storing a body and putting it together again loses nothing, whether it was just put
together or comes out of an optimizer.  Storing the body that a method has brings the
method into a form in which it stays. -/
theorem store_loses_nothing (method : Method) :
    (∀ body : Body, body.audit = .ok () →
        (∃ rebuilt, (method.store body).toBody = .ok rebuilt ∧ rebuilt.Restores body) ∧
          ∀ optimizer : Optimizer, ∃ rebuilt,
            (method.store (optimizer.optimize body).2).toBody = .ok rebuilt ∧
              rebuilt.Restores (optimizer.optimize body).2) ∧
      ∀ body, method.toBody = .ok body →
        (method.store body).toBody = .ok body ∧
          method.refresh = .ok (method.store body) ∧
            (method.store body).refresh = .ok (method.store body) := by
  constructor
  · intro body haudit
    have hsynced := Body.audit_eq_ok_iff.mp haudit
    refine ⟨method.exists_restores hsynced, fun optimizer => ?_⟩
    exact method.exists_restores (optimizer.sound_run hsynced).synced
  · intro body hbody
    have hstored := toBody_store hbody
    refine ⟨hstored, ?_, ?_⟩
    · rw [refresh, hbody]
      rfl
    · rw [refresh, hstored]
      rfl

/-- Two loops with more names than labels. -/
def overnamed : Method where
  name := "A.f"
  kind := .method
  code := [.label 3, .goto 0, .label 0, .goto 3]
  labels := [⟨3, "loop"⟩, ⟨9, "exit"⟩, ⟨0, "L0"⟩, ⟨3, "L0"⟩]

/-- A name for a label that is not defined goes, and so does a default; a name that is the
default of another label stays. -/
theorem store_loses_nothing_at_overnamed :
    ∃ body, overnamed.toBody = .ok body ∧ body.audit = .ok () ∧
      overnamed.store body = { overnamed with labels := [⟨3, "L0"⟩] } ∧
      (∃ rebuilt, (overnamed.store body).toBody = .ok rebuilt ∧ rebuilt.Restores body) ∧
      (overnamed.store body).toBody = .ok body ∧
      (overnamed.store body).refresh = .ok (overnamed.store body) := by
  obtain ⟨body, hbody, haudit, hstore⟩ : ∃ body, overnamed.toBody = .ok body ∧
      body.audit = .ok () ∧ overnamed.store body = { overnamed with labels := [⟨3, "L0"⟩] } :=
    ⟨_, rfl, rfl, rfl⟩
  obtain ⟨hbodies, hmethod⟩ := store_loses_nothing overnamed
  obtain ⟨hstored, -, hrefresh⟩ := hmethod body hbody
  exact ⟨body, hbody, haudit, hstore, (hbodies body haudit).1, hstored, hrefresh⟩

end Method

end Peephole
