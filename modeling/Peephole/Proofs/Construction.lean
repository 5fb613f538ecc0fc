import Peephole.Proofs.Audit
import Peephole.Proofs.Storage

/-!
# Putting bodies together

An instruction list can be put together exactly if it is well formed, and the names that
are given for its labels do not matter to that.  What comes out has the instructions at
the positions `0, 1, 2, …` and an accurate table, with the last name given for each label.
A list that is not well formed is refused for one reason only: for the first label that
is defined again, and if there is none, for the least that a jump misses.
-/

namespace Peephole

namespace Line

theorem number_eq_mapIdx (first : Nat) (code : List Instruction) :
    number first code = code.mapIdx fun index instruction => ⟨first + index, instruction⟩ := by
  induction code generalizing first with
  | nil => rfl
  | cons instruction rest ih =>
      rw [number, ih, List.mapIdx_cons]
      simp only [Nat.add_zero, Nat.add_assoc, Nat.add_comm 1]

/-- The labels before the first that repeats are new and all different. -/
theorem firstRepeated?_eq_some_iff {seen ids : List LabelId} {id : LabelId} :
    firstRepeated? seen ids = some id ↔
      ∃ before after, ids = before ++ id :: after ∧ (id ∈ seen ∨ id ∈ before) ∧
        firstRepeated? seen before = none := by
  induction ids generalizing seen with
  | nil => simp [firstRepeated?]
  | cons head rest ih =>
      rw [firstRepeated?]
      by_cases hhead : head ∈ seen
      · rw [if_pos hhead]
        constructor
        · intro heq
          cases heq
          exact ⟨[], rest, rfl, .inl hhead, rfl⟩
        · rintro ⟨before, after, hids, hid, hbefore⟩
          cases before with
          | nil =>
              cases hids
              rfl
          | cons first before =>
              cases hids
              rw [firstRepeated?, if_pos hhead] at hbefore
              cases hbefore
      · rw [if_neg hhead, ih]
        constructor
        · rintro ⟨before, after, rfl, hid, hbefore⟩
          refine ⟨head :: before, after, rfl, ?_, ?_⟩
          · simpa [or_assoc, or_left_comm] using hid
          · rwa [firstRepeated?, if_neg hhead]
        · rintro ⟨before, after, hids, hid, hbefore⟩
          cases before with
          | nil =>
              cases hids
              exact absurd hid (by simpa using hhead)
          | cons first before =>
              cases hids
              rw [firstRepeated?, if_neg hhead] at hbefore
              refine ⟨before, after, rfl, ?_, hbefore⟩
              simpa [or_assoc, or_left_comm] using hid

end Line

namespace Code

variable {code : List Instruction} {id : LabelId}

/-- A label is the first in program order whose definition repeats an earlier one. -/
def RepeatsFirst (code : List Instruction) (id : LabelId) : Prop :=
  ∃ before after, code = before ++ .label id :: after ∧ .label id ∈ before ∧
    (definitions before).Nodup

/-- A label is the least that a jump goes to and that is not defined. -/
structure MissesLeast (code : List Instruction) (id : LabelId) : Prop where
  target : id ∈ targets code
  undefined : id ∉ definitions code
  least : ∀ other ∈ targets code, other ∉ definitions code → id ≤ other

/-- The reason for which an instruction list is no body. -/
inductive Malformed (code : List Instruction) : Malformation → Prop
  | definedTwice {id : LabelId} (hid : RepeatsFirst code id) : Malformed code (.definedTwice id)
  | undefinedTarget {id : LabelId} (hnodup : (definitions code).Nodup)
      (hid : MissesLeast code id) : Malformed code (.undefinedTarget id)

theorem repeatsFirst_iff :
    RepeatsFirst code id ↔ Line.repeated? (Line.number 0 code) = some id := by
  rw [Line.repeated?, Line.definitions_number, Line.firstRepeated?_eq_some_iff]
  constructor
  · rintro ⟨before, after, rfl, hid, hnodup⟩
    refine ⟨definitions before, definitions after, ?_, .inr (mem_definitions.mpr hid), ?_⟩
    · rw [definitions_append, definitions_cons]
      rfl
    · exact Line.firstRepeated?_eq_none_iff.mpr ⟨hnodup, by simp⟩
  · rintro ⟨before, after, hdefinitions, hid, hbefore⟩
    obtain ⟨left, right, rfl, rfl, hright⟩ := List.filterMap_eq_append_iff.mp hdefinitions
    obtain ⟨middle, instruction, right, rfl, hmiddle, hlabel, -⟩ :=
      List.filterMap_eq_cons_iff.mp hright
    have hnone : definitions middle = [] := List.filterMap_eq_nil_iff.mpr hmiddle
    have hleft : definitions (left ++ middle) = definitions left := by
      rw [definitions_append, hnone, List.append_nil]
    refine ⟨left ++ middle, right, ?_, ?_, ?_⟩
    · rw [label?_eq_some_iff.mp hlabel, List.append_assoc]
    · rw [← mem_definitions, hleft]
      exact hid.resolve_left List.not_mem_nil
    · rw [hleft]
      exact (Line.firstRepeated?_eq_none_iff.mp hbefore).1

theorem missesLeast_iff :
    MissesLeast code id ↔ Line.undefined? (Line.number 0 code) = some id := by
  rw [Line.undefined?, Line.definitions_number, Line.targets_number, List.min?_eq_some_iff]
  simp only [List.mem_filter, decide_eq_true_eq]
  constructor
  · intro hid
    exact ⟨⟨hid.target, hid.undefined⟩, fun other hother => hid.least other hother.1 hother.2⟩
  · rintro ⟨⟨htarget, hundefined⟩, hleast⟩
    exact ⟨htarget, hundefined, fun other hother hnot => hleast other ⟨hother, hnot⟩⟩

end Code

/-- The number after the greatest is fresh unless that was the last one. -/
theorem LabelTable.fresh?_of_supply_eq {table : LabelTable} {greatest : LabelId}
    (hsupply : table.supply = greatest.toNat + 1) :
    table.fresh? = if greatest = 4294967295 then none else some (greatest + 1) := by
  rw [fresh?, hsupply]
  by_cases hlast : greatest = 4294967295
  · subst hlast
    rfl
  · have hne : greatest.toNat ≠ 4294967295 := fun heq => hlast (UInt32.toNat_inj.mp heq)
    have hroom : greatest.toNat + 1 < UInt32.size :=
      Nat.lt_of_le_of_ne greatest.toNat_lt (fun heq => hne (Nat.succ.inj heq))
    rw [if_pos hroom, if_neg hlast, UInt32.ofNat_add, UInt32.ofNat_toNat]
    rfl

/-- The name that a label gets: the last that is given for it, or else the default. -/
inductive IsNameOf (names : List (LabelId × String)) (id : LabelId) : String → Prop
  | given {before after : List (LabelId × String)} {name : String}
      (hnames : names = before ++ (id, name) :: after) (hlast : ∀ other, (id, other) ∉ after) :
      IsNameOf names id name
  | default (hnone : ∀ name, (id, name) ∉ names) : IsNameOf names id (defaultLabelName id)

namespace Body

variable {names : List (LabelId × String)} {code : List Instruction} {body : Body}
variable {fault : Fault}

theorem isNameOf_givenName (names : List (LabelId × String)) (id : LabelId) :
    IsNameOf names id (givenName names id) := by
  rw [givenName]
  cases hlookup : names.reverse.lookup id with
  | none =>
      refine .default fun name hname => ?_
      simpa using List.lookup_eq_none_iff.mp hlookup (id, name) (List.mem_reverse.mpr hname)
  | some name =>
      obtain ⟨later, earlier, hnames, hlater⟩ := List.lookup_eq_some_iff.mp hlookup
      have hsplit : names = earlier.reverse ++ (id, name) :: later.reverse := by
        rw [← names.reverse_reverse, hnames]
        simp
      refine .given hsplit fun other hother => ?_
      simpa using hlater (id, other) (List.mem_reverse.mp hother)

/-- A body that has just been put together from named code. -/
structure AssembledFrom (body : Body) (names : List (LabelId × String))
    (code : List Instruction) : Prop where
  lines : body.lines = code.mapIdx fun index instruction => ⟨index, instruction⟩
  audit : body.audit = .ok ()
  listed : ∀ id, id ∈ body.labels.entries.map LabelEntry.id ↔ .label id ∈ code
  named : ∀ entry ∈ body.labels.entries, IsNameOf names entry.id entry.name
  fresh_of_none : (∀ id, .label id ∉ code) → body.labels.fresh? = some 0
  fresh_of_greatest : ∀ greatest, .label greatest ∈ code →
    (∀ id, .label id ∈ code → id ≤ greatest) →
    body.labels.fresh? = if greatest = 4294967295 then none else some (greatest + 1)

theorem assembledFrom_of_assemble (hassemble : assemble names code = .ok body) :
    body.AssembledFrom names code := by
  obtain ⟨hsynced, hlines, hinstructions⟩ := synced_of_assemble hassemble
  constructor
  case lines =>
    rw [hlines, Line.number_eq_mapIdx]
    simp only [Nat.zero_add]
  case audit => exact audit_eq_ok_iff.mpr hsynced
  case listed =>
    rw [← hinstructions]
    exact hsynced.accurate.listed
  case named =>
    intro entry hentry
    rw [((records_of_assemble hassemble).of_mem hentry).2.1]
    exact isNameOf_givenName names entry.id
  case fresh_of_none =>
    intro hnone
    have hsupply : body.labels.supply ≤ 0 := by
      rw [supply_le_iff_of_assemble hassemble]
      exact fun id hid => absurd (Code.mem_definitions.mp hid) (hnone id)
    rw [LabelTable.fresh?, Nat.le_zero.mp hsupply]
    rfl
  case fresh_of_greatest =>
    intro greatest hgreatest hle
    have hsupply := labels_supply_of_assemble hassemble (Code.mem_definitions.mpr hgreatest)
      fun id hid => hle id (Code.mem_definitions.mp hid)
    exact LabelTable.fresh?_of_supply_eq hsupply

/-- Code is refused for the reason that it is malformed, and there is only one. -/
theorem assemble_eq_error_iff :
    assemble names code = .error fault ↔
      ∃ reason, fault = .malformedBody none reason ∧ Code.Malformed code reason := by
  constructor
  · intro hassemble
    rw [assemble] at hassemble
    split at hassemble
    · rename_i id hrepeated
      cases hassemble
      exact ⟨_, rfl, .definedTwice (Code.repeatsFirst_iff.mpr hrepeated)⟩
    · rename_i id hrepeated hundefined
      cases hassemble
      rw [Line.repeated?_eq_none_iff, Line.definitions_number] at hrepeated
      exact ⟨_, rfl, .undefinedTarget hrepeated (Code.missesLeast_iff.mpr hundefined)⟩
    · cases hassemble
  · rintro ⟨reason, rfl, hreason⟩
    cases hreason with
    | definedTwice hid =>
        rw [Code.repeatsFirst_iff] at hid
        simp only [assemble, hid]
    | undefinedTarget hnodup hid =>
        rw [← Line.definitions_number 0, ← Line.repeated?_eq_none_iff] at hnodup
        rw [Code.missesLeast_iff] at hid
        simp only [assemble, hnodup, hid]

theorem exists_assemble_iff :
    (∃ body, assemble names code = .ok body) ↔ Code.WellFormed code := by
  constructor
  · rintro ⟨body, hassemble⟩
    obtain ⟨hsynced, -, rfl⟩ := synced_of_assemble hassemble
    exact hsynced.wellFormed
  · exact exists_assemble names

/-- Exactly the well-formed instruction lists are put together, whether the labels are
looked at together or registered one by one, and the others are refused with the reason. -/
theorem assemble_exact (names : List (LabelId × String)) (code : List Instruction) :
    assembleStepwise names code = assemble names code ∧
      ((∃ body, assemble names code = .ok body) ↔ Code.WellFormed code) ∧
      (∀ body, assemble names code = .ok body → body.AssembledFrom names code) ∧
      ∀ fault, assemble names code = .error fault ↔
        ∃ reason, fault = .malformedBody none reason ∧ Code.Malformed code reason :=
  ⟨assembleStepwise_eq names code, exists_assemble_iff,
    fun _ hassemble => assembledFrom_of_assemble hassemble, fun _ => assemble_eq_error_iff⟩

-- The last name counts, and a name for a label that is not defined is passed over.
example :
    (assemble [(3, "loop"), (9, "exit"), (3, "top")] [.label 3, .goto 0, .label 0, .goto 3]).map
        (fun body => (body.labels.entries, body.labels.fresh?)) =
      .ok ([⟨0, "L0", 2, 1⟩, ⟨3, "top", 0, 1⟩], some 4) := rfl

-- A label that is defined again comes before a jump that misses.
example :
    assemble [] [.goto 9, .label 3, .goto 8, .label 3] =
      .error (.malformedBody none (.definedTwice 3)) := rfl

end Body

end Peephole
