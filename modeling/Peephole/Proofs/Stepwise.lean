import Peephole.Body.Stepwise
import Peephole.Proofs.Bookkeeping.Script
import Peephole.Proofs.Bookkeeping.Supply

/-!
# Labels taken one by one

Going through the labels one by one gives the same as looking at them all at once.  A
label takes what belongs to it and nothing else: the jumps to the labels that come after it
are all still there, and so are their names.  What is left over in the end are the jumps to
labels that did not come up.
-/

namespace Peephole

theorem filter_not_mem_nil {α : Type} (key : α → LabelId) (left : List α) :
    left.filter (key · ∉ []) = left :=
  List.filter_eq_self.mpr (by simp)

/-- Taking out what has one key and then what has some others. -/
theorem filter_bne_filter_not_mem {α : Type} (key : α → LabelId) (id : LabelId)
    (ids : List LabelId) (left : List α) :
    (left.filter (key · != id)).filter (key · ∉ ids) = left.filter (key · ∉ id :: ids) := by
  rw [List.filter_filter]
  refine List.filter_congr fun other _ => ?_
  by_cases hother : key other = id <;> simp [hother]

theorem Line.map_fst_sites (lines : List Line) :
    (sites lines).map Prod.fst = definitions lines := by
  rw [sites, definitions, List.map_filterMap]
  refine congrArg (List.filterMap · lines) (funext fun line => ?_)
  cases line.instruction.label? <;> rfl

namespace Body

/-! ## Audits -/

section

variable {body : Body} {labels : LabelTable} {jumps targets : List LabelId}
variable {order : List (LabelId × Nat)} {site : LabelId × Nat}

/-- What is wrong with the table entry of a label that is defined at a position. -/
def siteFault? (labels : LabelTable) (jumps : List LabelId) (site : LabelId × Nat) :
    Option Fault :=
  lineFault? labels (fun id => jumps.count id) ⟨site.2, .label site.1⟩

theorem settleSite_eq (labels : LabelTable) (jumps : List LabelId) (site : LabelId × Nat) :
    settleSite labels jumps site =
      match siteFault? labels jumps site with
      | some fault => .error fault
      | none => .ok (jumps.filter (· != site.1)) := by
  rw [settleSite, siteFault?, lineFault?]
  dsimp only [Instruction.label?_label]
  cases labels.get? site.1 with
  | none => rfl
  | some entry =>
      dsimp only
      split
      · rfl
      · split <;> rfl

/-- Only the number of the jumps to the label itself matters to its entry. -/
theorem siteFault?_congr (hcount : jumps.count site.1 = targets.count site.1) :
    siteFault? labels jumps site = siteFault? labels targets site := by
  simp only [siteFault?, lineFault?, Instruction.label?_label, hcount]

theorem foldlM_settleSite (hnodup : (order.map Prod.fst).Nodup)
    (hjumps : ∀ site ∈ order, jumps.count site.1 = targets.count site.1) :
    order.foldlM (settleSite labels) jumps =
      match order.findSome? (siteFault? labels targets) with
      | some fault => .error fault
      | none => .ok (jumps.filter (· ∉ order.map Prod.fst)) := by
  induction order generalizing jumps with
  | nil => exact congrArg Except.ok (filter_not_mem_nil (fun id => id) jumps).symm
  | cons site rest ih =>
      obtain ⟨hjump, hrest⟩ := List.forall_mem_cons.mp hjumps
      obtain ⟨hsite, hnodup⟩ := List.nodup_cons.mp hnodup
      rw [List.foldlM_cons, settleSite_eq, siteFault?_congr hjump, List.findSome?_cons]
      cases siteFault? labels targets site with
      | some fault => rfl
      | none =>
          have hleft : ∀ other ∈ rest,
              (jumps.filter (· != site.1)).count other.1 = targets.count other.1 := by
            intro other hother
            have hne : other.1 ≠ site.1 := fun heq => hsite (heq ▸ List.mem_map_of_mem hother)
            rw [List.count_filter (by simpa using hne), hrest other hother]
          dsimp only
          rw [ok_bind, ih hnodup hleft, filter_bne_filter_not_mem fun id => id, List.map_cons]

theorem findSome?_siteFault? (labels : LabelTable) (targets : List LabelId) (lines : List Line) :
    (Line.sites lines).findSome? (siteFault? labels targets) =
      lines.findSome? (lineFault? labels fun id => targets.count id) := by
  induction lines with
  | nil => rfl
  | cons line rest ih =>
      obtain ⟨position, instruction⟩ := line
      rw [List.findSome?_cons, ← ih, Line.sites, List.filterMap_cons]
      cases hlabel : instruction.label? with
      | none => simp only [Option.map_none, lineFault?, hlabel, Line.sites]
      | some id =>
          rw [Code.label?_eq_some_iff.mp hlabel, Option.map_some]
          exact List.findSome?_cons

/-- The labels of a body without repetitions may be gone through in any order.  The fault
that is found first depends on it, but not what is left over. -/
theorem auditAlong_of_perm (hnodup : (Line.definitions body.lines).Nodup)
    (hperm : order.Perm (Line.sites body.lines)) :
    body.auditAlong order =
      match order.findSome? (siteFault? body.labels (Line.targets body.lines)) with
      | some fault => .error fault
      | none =>
          match Line.undefined? body.lines with
          | some id => .error (.unknownLabel id)
          | none =>
              match body.labels.entries.find? (·.id ∉ Line.definitions body.lines) with
              | some entry => .error (.labelDesync entry.id .noDefinition)
              | none => .ok () := by
  have hids : (order.map Prod.fst).Perm (Line.definitions body.lines) := by
    rw [← Line.map_fst_sites]
    exact hperm.map Prod.fst
  have hleft : (Line.targets body.lines).filter (· ∉ order.map Prod.fst) =
      (Line.targets body.lines).filter (· ∉ Line.definitions body.lines) := by
    refine List.filter_congr fun id _ => ?_
    simp only [hids.mem_iff]
  rw [auditAlong, Line.repeated?_eq_none_iff.mpr hnodup,
    foldlM_settleSite (hids.nodup_iff.mpr hnodup) fun site _ => rfl, hleft]
  cases order.findSome? (siteFault? body.labels (Line.targets body.lines)) <;> rfl

/-- In program order the labels are gone through as by an audit. -/
theorem auditAlong_sites (body : Body) : body.auditAlong (Line.sites body.lines) = body.audit := by
  cases hrepeated : Line.repeated? body.lines with
  | some id => simp only [auditAlong, audit, bookkeepingFault?, linesFault?, hrepeated]
  | none =>
      have hnodup := Line.repeated?_eq_none_iff.mp hrepeated
      rw [auditAlong_of_perm hnodup (List.Perm.refl _), findSome?_siteFault?, audit,
        bookkeepingFault?, linesFault?, hrepeated]
      cases body.lines.findSome?
          (lineFault? body.labels fun id => (Line.targets body.lines).count id) with
      | some fault => rfl
      | none =>
          cases Line.undefined? body.lines with
          | some id => rfl
          | none =>
              dsimp only
              cases body.labels.entries.find? (·.id ∉ Line.definitions body.lines) <;> rfl

theorem auditAlong_eq_ok_iff_of_nodup (hnodup : (Line.definitions body.lines).Nodup)
    (hperm : order.Perm (Line.sites body.lines)) :
    body.auditAlong order = .ok () ↔
      (∀ site ∈ order, siteFault? body.labels (Line.targets body.lines) site = none) ∧
        Line.undefined? body.lines = none ∧
        body.labels.entries.find? (·.id ∉ Line.definitions body.lines) = none := by
  rw [auditAlong_of_perm hnodup hperm, ← List.findSome?_eq_none_iff]
  cases order.findSome? (siteFault? body.labels (Line.targets body.lines)) with
  | some fault => simp
  | none =>
      cases Line.undefined? body.lines with
      | some id => simp
      | none =>
          cases body.labels.entries.find? (·.id ∉ Line.definitions body.lines) <;> simp

/-- Whether anything is found does not depend on the order. -/
theorem auditAlong_eq_ok_iff (hperm : order.Perm (Line.sites body.lines)) :
    body.auditAlong order = .ok () ↔ body.audit = .ok () := by
  rw [← auditAlong_sites]
  cases hrepeated : Line.repeated? body.lines with
  | some id => simp only [auditAlong, hrepeated]
  | none =>
      have hnodup := Line.repeated?_eq_none_iff.mp hrepeated
      rw [auditAlong_eq_ok_iff_of_nodup hnodup hperm,
        auditAlong_eq_ok_iff_of_nodup hnodup (List.Perm.refl _)]
      simp only [hperm.mem_iff]

end

/-! ## Assembly -/

section

variable {names : List (LabelId × String)} {targets seen : List LabelId} {registry : Registry}
variable {site : LabelId × Nat} {sites : List (LabelId × Nat)}

theorem lookup_filter_bne {id other : LabelId} (hother : other ≠ id)
    (names : List (LabelId × String)) :
    (names.filter (·.1 != id)).lookup other = names.lookup other := by
  induction names with
  | nil => rfl
  | cons pair rest ih =>
      by_cases hpair : pair.1 = id
      · have hkey : (other == pair.1) = false := by
          rw [hpair]
          exact beq_eq_false_iff_ne.mpr hother
        rw [List.filter_cons_of_neg (by simp [hpair]), ih, List.lookup_cons, hkey]
      · rw [List.filter_cons_of_pos (by simp [hpair]), List.lookup_cons, List.lookup_cons, ih]

theorem givenName_filter_bne {id other : LabelId} (hother : other ≠ id)
    (names : List (LabelId × String)) :
    givenName (names.filter (·.1 != id)) other = givenName names other := by
  rw [givenName, givenName, ← List.filter_reverse, lookup_filter_bne hother]

/-- The entry that a label gets when it is registered. -/
def entryOf (names : List (LabelId × String)) (targets : List LabelId) (site : LabelId × Nat) :
    LabelEntry :=
  ⟨site.1, givenName names site.1, site.2, targets.count site.1⟩

/-- A registry that has the labels seen so far, and the names and jumps of all others. -/
structure Registry.Keeps (registry : Registry) (names : List (LabelId × String))
    (targets seen : List LabelId) : Prop where
  names : ∀ id, id ∉ seen → givenName registry.names id = givenName names id
  jumps : ∀ id, id ∉ seen → registry.jumps.count id = targets.count id
  knows : ∀ id, registry.labels.Knows id ↔ id ∈ seen

theorem Registry.Keeps.enter_of_mem (hkeeps : registry.Keeps names targets seen)
    (hsite : site.1 ∈ seen) :
    registry.enter site = .error (.malformedBody none (.definedTwice site.1)) := by
  obtain ⟨entry, hentry⟩ := Option.isSome_iff_exists.mp ((hkeeps.knows site.1).mpr hsite)
  rw [enter, LabelTable.register, hentry]

theorem Registry.Keeps.enter_of_not_mem (hkeeps : registry.Keeps names targets seen)
    (hsite : site.1 ∉ seen) :
    registry.enter site = .ok ⟨registry.names.filter (·.1 != site.1),
      registry.jumps.filter (· != site.1), registry.labels.put (entryOf names targets site)⟩ := by
  have hnone : registry.labels.get? site.1 = none := by
    rw [← Option.not_isSome_iff_eq_none]
    exact mt (hkeeps.knows site.1).mp hsite
  rw [enter, LabelTable.register, hnone, hkeeps.names site.1 hsite, hkeeps.jumps site.1 hsite]
  rfl

theorem Registry.Keeps.next (hkeeps : registry.Keeps names targets seen) :
    Registry.Keeps ⟨registry.names.filter (·.1 != site.1), registry.jumps.filter (· != site.1),
      registry.labels.put (entryOf names targets site)⟩ names targets (site.1 :: seen) where
  names := by
    intro id hid
    obtain ⟨hne, hseen⟩ := not_or.mp (mt List.mem_cons.mpr hid)
    rw [givenName_filter_bne hne, hkeeps.names id hseen]
  jumps := by
    intro id hid
    obtain ⟨hne, hseen⟩ := not_or.mp (mt List.mem_cons.mpr hid)
    rw [List.count_filter (by simpa using hne), hkeeps.jumps id hseen]
  knows := by
    intro id
    rw [LabelTable.knows_put_iff, hkeeps.knows id, List.mem_cons]
    exact or_congr_left eq_comm

/-- Labels are registered up to the first that was seen before. -/
theorem Registry.Keeps.foldlM_enter (hkeeps : registry.Keeps names targets seen) :
    sites.foldlM Registry.enter registry =
      match Line.firstRepeated? seen (sites.map Prod.fst) with
      | some id => .error (.malformedBody none (.definedTwice id))
      | none =>
          .ok ⟨registry.names.filter (·.1 ∉ sites.map Prod.fst),
            registry.jumps.filter (· ∉ sites.map Prod.fst),
            sites.foldl (fun table site => table.put (entryOf names targets site))
              registry.labels⟩ := by
  induction sites generalizing registry seen with
  | nil =>
      rw [List.map_nil, filter_not_mem_nil, filter_not_mem_nil fun id => id]
      rfl
  | cons site rest ih =>
      rw [List.foldlM_cons, List.map_cons, Line.firstRepeated?]
      by_cases hsite : site.1 ∈ seen
      · rw [hkeeps.enter_of_mem hsite, if_pos hsite]
        rfl
      · rw [hkeeps.enter_of_not_mem hsite, if_neg hsite, ok_bind, ih hkeeps.next,
          filter_bne_filter_not_mem, filter_bne_filter_not_mem fun id => id, List.foldl_cons]

theorem tabulate_eq_foldl_sites (names : List (LabelId × String)) (lines : List Line) :
    tabulate names lines = (Line.sites lines).foldl
      (fun table site => table.put (entryOf names (Line.targets lines) site)) .empty := by
  rw [tabulate, Line.sites, List.foldl_filterMap]
  refine congrArg (List.foldl · _ lines) (funext fun table => funext fun line => ?_)
  cases line.instruction.label? <;> rfl

/-- Registering the labels one by one gives the same body, or the same fault. -/
theorem assembleStepwise_eq (names : List (LabelId × String)) (code : List Instruction) :
    assembleStepwise names code = assemble names code := by
  have hkeeps : Registry.Keeps ⟨names, Line.targets (Line.number 0 code), .empty⟩ names
      (Line.targets (Line.number 0 code)) [] :=
    ⟨fun _ _ => rfl, fun _ _ => rfl, fun id => by
      simp [LabelTable.Knows, LabelTable.get?, LabelTable.empty]⟩
  rw [assembleStepwise, assemble, hkeeps.foldlM_enter, Line.map_fst_sites, ← Line.repeated?]
  cases Line.repeated? (Line.number 0 code) with
  | some id => rfl
  | none =>
      dsimp only
      rw [← Line.undefined?]
      cases Line.undefined? (Line.number 0 code) with
      | some id => rfl
      | none =>
          simp only [tabulate_eq_foldl_sites]

end

end Body

end Peephole
