import Mathlib.Data.List.Basic
import Mathlib.Data.List.Induction
import Peephole.LabelTable.Call
import Peephole.Proofs.Bookkeeping.Supply

/-!
# What a label table remembers

The entries of a table can be told from the calls that have succeeded on it.  A label is in
the table from the call that registers it to the one that removes it, and the number of its
jumps is the one it was registered with, corrected by the calls that counted a jump more or
less since then.  The numbers the table hands out are above all that were ever registered,
also those of labels that are gone.  Calls that fail do not count, because they leave the
table as it was.
-/

namespace Peephole

namespace LabelTable

variable {table after : LabelTable} {done later : List Call} {call : Call} {id : LabelId}
variable {entry first : LabelEntry}

/-! ## Calls in place -/

theorem lt_supply_of_get? (hentry : table.get? id = some entry) :
    entry.id.toNat < table.supply :=
  table.below_supply entry (List.mem_of_find?_eq_some hentry)

/-- An entry that is taken out and put back leaves the table as it was. -/
theorem put_erase (hentry : table.get? id = some entry) : (table.erase id).put entry = table := by
  apply eq_of_get?_eq
  · intro other
    rw [get?_put, get?_erase, id_of_get?_eq_some hentry]
    split
    · rename_i hother
      rw [← hother, hentry]
    · rfl
  · have hlt := lt_supply_of_get? hentry
    exact Nat.max_eq_left hlt

theorem Update.run_entry (id : LabelId) (table : LabelTable) :
    (Update.entry id).run table =
      match table.get? id with
      | some entry => .ok entry table
      | none => .error (.unknownLabel id) table := by
  rw [Update.entry, EStateM.run_bind, EStateM.run_get]
  dsimp only
  cases table.get? id <;> rfl

theorem Update.run_remove (id : LabelId) (table : LabelTable) :
    (Update.remove id).run table =
      match table.get? id with
      | none => .error (.unknownLabel id) table
      | some entry =>
          if entry.references = 0 then .ok entry (table.erase id)
          else .error (.labelDesync id (.liveReferences entry.references)) table := by
  rw [Update.remove, EStateM.run_bind, Update.run_entry]
  cases hentry : table.get? id with
  | none => rfl
  | some entry =>
      dsimp only
      rw [EStateM.run_bind, EStateM.run_modify]
      by_cases hreferences : entry.references = 0
      · simp only [hreferences, if_true, EStateM.run_pure]
      · simp only [hreferences, if_false, EStateM.run_bind, EStateM.run_modify, put_erase hentry]
        rfl

/-- A call in place makes the table that it makes of a copy.  If it fails, the table is the
one it was. -/
theorem Call.run_perform (call : Call) (table : LabelTable) :
    call.perform.run table =
      match call.apply table with
      | .ok changed => .ok () changed
      | .error fault => .error fault table := by
  cases call with
  | register entry =>
      rw [perform, apply, LabelTable.register, Update.register, EStateM.run_bind, EStateM.run_get]
      dsimp only
      cases table.get? entry.id <;> rfl
  | acquire id =>
      rw [perform, apply, Update.acquire, EStateM.run_bind, Update.run_entry, LabelTable.acquire,
        LabelTable.entry]
      cases table.get? id <;> rfl
  | release id =>
      rw [perform, apply, Update.release, EStateM.run_bind, Update.run_entry, LabelTable.release,
        LabelTable.entry]
      cases table.get? id with
      | none => rfl
      | some entry =>
          dsimp only
          rw [ok_bind]
          cases entry.references <;> rfl
  | remove id =>
      rw [perform, apply, EStateM.run_bind, Update.run_remove, LabelTable.remove, LabelTable.entry]
      cases table.get? id with
      | none => rfl
      | some entry =>
          dsimp only
          rw [ok_bind]
          by_cases hreferences : entry.references = 0
          · rw [if_pos hreferences, if_pos hreferences]
            rfl
          · rw [if_neg hreferences, if_neg hreferences]
            rfl

/-! ## Histories -/

/-- A label was registered with an entry, and neither removed nor registered again in the
calls after that. -/
structure Since (done : List Call) (first : LabelEntry) (later : List Call) : Prop where
  split : ∃ earlier, done = earlier ++ .register first :: later
  kept : Call.remove first.id ∉ later
  latest : ∀ other, Call.register other ∈ later → other.id ≠ first.id

/-- An entry is the one that its label was registered with, but for the jumps counted
since. -/
structure Balanced (entry first : LabelEntry) (later : List Call) : Prop where
  name : entry.name = first.name
  position : entry.position = first.position
  references : entry.references + later.count (.release first.id) =
    first.references + later.count (.acquire first.id)

theorem since_concat_iff :
    Since (done ++ [call]) first later ↔
      (call = .register first ∧ later = []) ∨
        ∃ before, later = before ++ [call] ∧ Since done first before ∧
          call ≠ .remove first.id ∧ ∀ other, call = .register other → other.id ≠ first.id := by
  constructor
  · rintro ⟨⟨earlier, hsplit⟩, hkept, hlatest⟩
    rcases List.eq_nil_or_concat' later with rfl | ⟨before, last, rfl⟩
    · have hlast := (List.append_inj' hsplit rfl).2
      exact .inl ⟨List.singleton_inj.mp hlast, rfl⟩
    · rw [← List.cons_append, ← List.append_assoc] at hsplit
      obtain ⟨hdone, hlast⟩ := List.append_inj' hsplit rfl
      obtain rfl := List.singleton_inj.mp hlast
      refine .inr ⟨before, rfl, ⟨⟨earlier, hdone⟩, ?_, ?_⟩, ?_, ?_⟩
      · exact fun hmem => hkept (List.mem_append_left _ hmem)
      · exact fun other hmem => hlatest other (List.mem_append_left _ hmem)
      · exact fun heq => hkept (by simp [heq])
      · exact fun other heq => hlatest other (by simp [heq])
  · rintro (⟨rfl, rfl⟩ | ⟨before, rfl, ⟨⟨earlier, hdone⟩, hkept, hlatest⟩, hremove, hregister⟩)
    · exact ⟨⟨done, rfl⟩, List.not_mem_nil, fun _ hmem => absurd hmem List.not_mem_nil⟩
    · refine ⟨⟨earlier, by simp [hdone]⟩, ?_, ?_⟩
      · rw [List.mem_append, List.mem_singleton]
        exact fun hmem => hmem.elim hkept fun heq => hremove heq.symm
      · intro other hmem
        rw [List.mem_append, List.mem_singleton] at hmem
        exact hmem.elim (hlatest other) fun heq => hregister other heq.symm

/-! ## Calls that succeed -/

/-- What a call that succeeds makes of a table. -/
inductive Makes (table : LabelTable) : Call → LabelTable → Prop
  | register {entry : LabelEntry} (hnone : table.get? entry.id = none) :
      Makes table (.register entry) (table.put entry)
  | acquire {id : LabelId} {entry : LabelEntry} (hentry : table.get? id = some entry) :
      Makes table (.acquire id) (table.put { entry with references := entry.references + 1 })
  | release {id : LabelId} {entry : LabelEntry} {references : Nat}
      (hentry : table.get? id = some entry) (hreferences : entry.references = references + 1) :
      Makes table (.release id) (table.put { entry with references := references })
  | remove {id : LabelId} {entry : LabelEntry} (hentry : table.get? id = some entry)
      (hreferences : entry.references = 0) :
      Makes table (.remove id) (table.erase id)

theorem Call.makes_of_apply (happly : call.apply table = .ok after) : table.Makes call after := by
  cases call with
  | register entry =>
      cases hentry : table.get? entry.id with
      | none =>
          rw [eq_put_of_register happly]
          exact .register hentry
      | some other =>
          rw [apply, LabelTable.register, hentry] at happly
          cases happly
  | acquire id =>
      obtain ⟨entry, hentry, hput⟩ := bind_eq_ok_iff.mp happly
      cases hput
      exact .acquire (entry_eq_ok_iff.mp hentry)
  | release id =>
      obtain ⟨entry, hentry, hput⟩ := bind_eq_ok_iff.mp happly
      cases hreferences : entry.references with
      | zero =>
          rw [hreferences] at hput
          cases hput
      | succ references =>
          rw [hreferences] at hput
          cases hput
          exact .release (entry_eq_ok_iff.mp hentry) hreferences
  | remove id =>
      obtain ⟨entry, hentry, herase⟩ := bind_eq_ok_iff.mp happly
      split at herase
      · rename_i hreferences
        cases herase
        exact .remove (entry_eq_ok_iff.mp hentry) hreferences
      · cases herase

/-- The calls that succeed on a table. -/
def Call.Admitted (table : LabelTable) : Call → Prop
  | .register entry => table.get? entry.id = none
  | .acquire id => ∃ entry, table.get? id = some entry
  | .release id => ∃ entry, table.get? id = some entry ∧ entry.references ≠ 0
  | .remove id => ∃ entry, table.get? id = some entry ∧ entry.references = 0

theorem Makes.admitted (hmakes : table.Makes call after) : call.Admitted table := by
  cases hmakes with
  | register hnone => exact hnone
  | acquire hentry => exact ⟨_, hentry⟩
  | release hentry hreferences => exact ⟨_, hentry, hreferences ▸ Nat.succ_ne_zero _⟩
  | remove hentry hreferences => exact ⟨_, hentry, hreferences⟩

theorem Call.Admitted.exists_apply (hadmitted : call.Admitted table) :
    ∃ after, call.apply table = .ok after := by
  cases call with
  | register entry =>
      have hnone : table.get? entry.id = none := hadmitted
      rw [apply, LabelTable.register, hnone]
      exact ⟨_, rfl⟩
  | acquire id =>
      obtain ⟨entry, hentry⟩ := hadmitted
      rw [apply, LabelTable.acquire, entry_eq_ok_iff.mpr hentry]
      exact ⟨_, rfl⟩
  | release id =>
      obtain ⟨entry, hentry, hreferences⟩ := hadmitted
      obtain ⟨references, hreferences⟩ := Nat.exists_eq_succ_of_ne_zero hreferences
      rw [apply, LabelTable.release, entry_eq_ok_iff.mpr hentry, ok_bind, hreferences]
      exact ⟨_, rfl⟩
  | remove id =>
      obtain ⟨entry, hentry, hreferences⟩ := hadmitted
      rw [apply, LabelTable.remove, entry_eq_ok_iff.mpr hentry, ok_bind, if_pos hreferences]
      exact ⟨_, rfl⟩

theorem Call.exists_run_perform_iff (call : Call) (table : LabelTable) :
    (∃ after, call.perform.run table = .ok () after) ↔ call.Admitted table := by
  rw [run_perform]
  constructor
  · rintro ⟨after, hperform⟩
    cases happly : call.apply table with
    | ok changed => exact (makes_of_apply happly).admitted
    | error fault =>
        rw [happly] at hperform
        cases hperform
  · intro hadmitted
    obtain ⟨after, happly⟩ := hadmitted.exists_apply
    exact ⟨after, by rw [happly]⟩

theorem Makes.get?_of_ne (hmakes : table.Makes call after) (hid : call.id ≠ id) :
    after.get? id = table.get? id := by
  cases hmakes with
  | register hnone =>
      rw [Call.id_register] at hid
      rw [get?_put, if_neg hid]
  | acquire hentry =>
      rw [Call.id_acquire, ← id_of_get?_eq_some hentry] at hid
      rw [get?_put, if_neg hid]
  | release hentry hreferences =>
      rw [Call.id_release, ← id_of_get?_eq_some hentry] at hid
      rw [get?_put, if_neg hid]
  | remove hentry hreferences =>
      rw [Call.id_remove] at hid
      rw [get?_erase, if_neg hid]

/-! ## The history behind a table -/

/-- The entries of a table are those that some calls have left, and its bound is the least
one above the numbers that they have registered. -/
structure Follows (table : LabelTable) (done : List Call) : Prop where
  present : ∀ id entry, table.get? id = some entry →
    ∃ first later, first.id = id ∧ Since done first later ∧ Balanced entry first later
  absent : ∀ id, table.get? id = none → ∀ first later, Since done first later → first.id ≠ id
  supply : ∀ bound, table.supply ≤ bound ↔
    ∀ entry, Call.register entry ∈ done → entry.id.toNat < bound

theorem follows_empty : empty.Follows [] where
  present := fun _ _ hentry => by cases hentry
  absent := by
    rintro id - first later ⟨⟨earlier, hsplit⟩, -, -⟩
    exact absurd hsplit.symm (by simp)
  supply := by simp [empty]

/-- Calls about other labels do not end what is since a label was registered. -/
theorem Since.concat (hsince : Since done first later) (hid : call.id ≠ first.id) :
    Since (done ++ [call]) first (later ++ [call]) := by
  refine since_concat_iff.mpr (.inr ⟨later, rfl, hsince, ?_, ?_⟩)
  · rintro rfl
    exact hid rfl
  · rintro other rfl
    exact hid

theorem Balanced.concat (hbalanced : Balanced entry first later) (hid : call.id ≠ first.id) :
    Balanced entry first (later ++ [call]) := by
  have hcount : ∀ other : Call, other.id = first.id → [call].count other = 0 := by
    intro other hother
    rw [List.count_eq_zero, List.mem_singleton]
    rintro rfl
    exact hid hother
  refine ⟨hbalanced.name, hbalanced.position, ?_⟩
  rw [List.count_append, List.count_append, hcount _ rfl, hcount _ rfl]
  exact hbalanced.references

/-- One jump more that is counted by a call. -/
theorem Balanced.acquire (hbalanced : Balanced entry first later) :
    Balanced { entry with references := entry.references + 1 } first
      (later ++ [.acquire first.id]) := by
  refine ⟨hbalanced.name, hbalanced.position, ?_⟩
  have hreferences := hbalanced.references
  simp only [List.count_append, List.count_singleton, beq_self_eq_true, if_true,
    reduceCtorEq, beq_iff_eq, if_false]
  omega

theorem Balanced.release {references : Nat} (hbalanced : Balanced entry first later)
    (hreferences : entry.references = references + 1) :
    Balanced { entry with references := references } first (later ++ [.release first.id]) := by
  refine ⟨hbalanced.name, hbalanced.position, ?_⟩
  have hcount := hbalanced.references
  simp only [List.count_append, List.count_singleton, beq_self_eq_true, if_true,
    reduceCtorEq, beq_iff_eq, if_false]
  omega

theorem Follows.present_step (hfollows : table.Follows done) (hmakes : table.Makes call after)
    (hentry : after.get? id = some entry) :
    ∃ first later, first.id = id ∧ Since (done ++ [call]) first later ∧
      Balanced entry first later := by
  by_cases hid : call.id = id
  · subst hid
    cases hmakes with
    | register hnone =>
        rw [Call.id_register, get?_put, if_pos rfl] at hentry
        obtain rfl := Option.some.inj hentry
        exact ⟨_, [], rfl, since_concat_iff.mpr (.inl ⟨rfl, rfl⟩), rfl, rfl, rfl⟩
    | acquire hold =>
        obtain ⟨first, later, rfl, hsince, hbalanced⟩ := hfollows.present _ _ hold
        rw [Call.id_acquire, get?_put, if_pos (id_of_get?_eq_some hold)] at hentry
        obtain rfl := Option.some.inj hentry
        exact ⟨first, _, rfl, since_concat_iff.mpr (.inr ⟨later, rfl, hsince, nofun, nofun⟩),
          hbalanced.acquire⟩
    | release hold hreferences =>
        obtain ⟨first, later, rfl, hsince, hbalanced⟩ := hfollows.present _ _ hold
        rw [Call.id_release, get?_put, if_pos (id_of_get?_eq_some hold)] at hentry
        obtain rfl := Option.some.inj hentry
        exact ⟨first, _, rfl, since_concat_iff.mpr (.inr ⟨later, rfl, hsince, nofun, nofun⟩),
          hbalanced.release hreferences⟩
    | remove hold hreferences =>
        rw [Call.id_remove, get?_erase, if_pos rfl] at hentry
        cases hentry
  · rw [hmakes.get?_of_ne hid] at hentry
    obtain ⟨first, later, rfl, hsince, hbalanced⟩ := hfollows.present id entry hentry
    exact ⟨first, later ++ [call], rfl, hsince.concat hid, hbalanced.concat hid⟩

theorem Follows.absent_step (hfollows : table.Follows done) (hmakes : table.Makes call after)
    (hnone : after.get? first.id = none) : ¬ Since (done ++ [call]) first later := by
  intro hsince
  rcases since_concat_iff.mp hsince with ⟨rfl, rfl⟩ | ⟨before, rfl, hbefore, hremove, hregister⟩
  · cases hmakes
    rw [get?_put, if_pos rfl] at hnone
    cases hnone
  · by_cases hid : call.id = first.id
    · cases hmakes with
      | register hold => exact hregister _ rfl hid
      | acquire hold =>
          rw [get?_put, if_pos ((id_of_get?_eq_some hold).trans hid)] at hnone
          cases hnone
      | release hold hreferences =>
          rw [get?_put, if_pos ((id_of_get?_eq_some hold).trans hid)] at hnone
          cases hnone
      | remove hold hreferences => exact hremove (congrArg Call.remove hid)
    · rw [hmakes.get?_of_ne hid] at hnone
      exact hfollows.absent first.id hnone first before hbefore rfl

theorem Makes.supply_le_iff (hmakes : table.Makes call after) (bound : Nat) :
    after.supply ≤ bound ↔
      table.supply ≤ bound ∧ ∀ entry, call = .register entry → entry.id.toNat < bound := by
  cases hmakes with
  | register hnone =>
      rw [supply_put, Nat.max_le, Nat.add_one_le_iff]
      simp
  | acquire hentry =>
      rw [supply_put, Nat.max_eq_left (lt_supply_of_get? hentry)]
      simp
  | release hentry hreferences =>
      rw [supply_put, Nat.max_eq_left (lt_supply_of_get? hentry)]
      simp
  | remove hentry hreferences => simp [erase]

/-- A call that succeeds adds itself to the history. -/
theorem Follows.step (hfollows : table.Follows done) (hmakes : table.Makes call after) :
    after.Follows (done ++ [call]) where
  present := fun _ _ => hfollows.present_step hmakes
  absent := by
    rintro id hnone first later hsince rfl
    exact hfollows.absent_step hmakes hnone hsince
  supply := by
    intro bound
    rw [hmakes.supply_le_iff, hfollows.supply]
    simp only [List.mem_append, List.mem_singleton, or_imp, forall_and, eq_comm]

/-- The table of a session follows from the calls that have succeeded. -/
theorem Session.follows_run (calls : List Call) :
    (Session.run calls).table.Follows (Session.run calls).done := by
  have hmake : ∀ (session : Session) (call : Call), session.table.Follows session.done →
      (session.make call).table.Follows (session.make call).done := by
    intro session call hfollows
    rw [make, Call.run_perform]
    cases happly : call.apply session.table with
    | ok changed => exact hfollows.step (Call.makes_of_apply happly)
    | error fault => exact hfollows
  have hrun : ∀ session : Session, session.table.Follows session.done →
      (calls.foldl make session).table.Follows (calls.foldl make session).done := by
    induction calls with
    | nil => exact fun session hfollows => hfollows
    | cons call rest ih => exact fun session hfollows => ih _ (hmake session call hfollows)
  exact hrun _ follows_empty

/-- Whether a call succeeds on the table of a session. -/
def Session.accepts (session : Session) (call : Call) : Bool :=
  match call.perform.run session.table with
  | .ok _ _ => true
  | .error _ _ => false

theorem Session.run_concat (calls : List Call) (call : Call) :
    Session.run (calls ++ [call]) = (Session.run calls).make call :=
  List.foldl_concat ..

theorem Session.done_make (session : Session) (call : Call) :
    (session.make call).done = session.done ++ if session.accepts call then [call] else [] := by
  rw [make, accepts]
  cases call.perform.run session.table <;> simp

/-- A session remembers the calls that succeeded when they were made, in order. -/
theorem Session.done_run (calls : List Call) :
    (Session.run calls).done =
      (calls.zipIdx.filter fun (call, index) =>
        (Session.run (calls.take index)).accepts call).map Prod.fst := by
  induction calls using List.reverseRecOn with
  | nil => rfl
  | append_singleton calls call ih =>
      -- The calls before the last were made on the same tables.
      have hearlier : calls.zipIdx.filter (fun (call, index) =>
          (Session.run (calls.take index)).accepts call) =
            calls.zipIdx.filter fun (earlier, index) =>
              (Session.run ((calls ++ [call]).take index)).accepts earlier := by
        apply List.filter_congr
        rintro ⟨earlier, index⟩ hmem
        have hindex : index ≤ calls.length := by
          have hbounds := List.snd_lt_of_mem_zipIdx hmem
          omega
        simp only [List.take_append_of_le_length hindex]
      rw [run_concat, done_make, ih, hearlier, List.zipIdx_append, List.filter_append,
        List.map_append]
      congr 1
      simp only [List.zipIdx_singleton, List.filter_singleton, Nat.zero_add, List.take_left]
      cases (run calls).accepts call <;> rfl

/-! ## What follows from the history -/

/-- What the calls that have succeeded on a table say about it. -/
structure Accounts (table : LabelTable) (done : List Call) : Prop where
  ascending : (table.entries.map LabelEntry.id).Pairwise (· < ·)
  listed : ∀ id, id ∈ table.entries.map LabelEntry.id ↔
    ∃ first later, first.id = id ∧ Since done first later
  counted : ∀ entry ∈ table.entries,
    ∃ first later, first.id = entry.id ∧ Since done first later ∧ Balanced entry first later
  admitted : ∀ call : Call, (∃ after, call.perform.run table = .ok () after) ↔
    call.Admitted table
  above : ∀ fresh, table.fresh? = some fresh →
    ∀ entry, Call.register entry ∈ done → entry.id < fresh
  least : ∀ fresh, table.fresh? = some fresh →
    ∀ id < fresh, ∃ entry, Call.register entry ∈ done ∧ id ≤ entry.id
  exhausted : table.fresh? = none ↔ ∃ entry, Call.register entry ∈ done ∧ entry.id = 4294967295
  available : ∀ entry, table.fresh? = some entry.id →
    ∃ after, (Update.register entry).run table = .ok () after

theorem Follows.lt_fresh {fresh : LabelId} (hfollows : table.Follows done)
    (hfresh : table.fresh? = some fresh) (hentry : Call.register entry ∈ done) :
    entry.id < fresh := by
  have hlt := (hfollows.supply table.supply).mp (Nat.le_refl _) entry hentry
  rwa [← toNat_of_fresh? hfresh, ← UInt32.lt_iff_toNat_lt] at hlt

theorem Follows.exists_le_of_lt_fresh {fresh : LabelId} (hfollows : table.Follows done)
    (hfresh : table.fresh? = some fresh) (hid : id < fresh) :
    ∃ entry, Call.register entry ∈ done ∧ id ≤ entry.id := by
  have hlt := UInt32.lt_iff_toNat_lt.mp hid
  rw [toNat_of_fresh? hfresh, ← Nat.not_le, hfollows.supply] at hlt
  simpa only [not_forall, Nat.not_lt, exists_prop, ← UInt32.le_iff_toNat_le] using hlt

theorem Follows.fresh?_eq_none_iff (hfollows : table.Follows done) :
    table.fresh? = none ↔ ∃ entry, Call.register entry ∈ done ∧ entry.id = 4294967295 := by
  have hnone : table.fresh? = none ↔ ¬ table.supply ≤ UInt32.size - 1 := by
    rw [fresh?, Nat.le_sub_one_iff_lt (by decide)]
    simp
  rw [hnone, hfollows.supply]
  simp only [not_forall, Nat.not_lt, exists_prop]
  refine exists_congr fun entry => and_congr_right fun _ => ?_
  have hlt := entry.id.toNat_lt_size
  rw [← UInt32.toNat_inj]
  change UInt32.size - 1 ≤ _ ↔ _ = UInt32.size - 1
  omega

theorem Follows.accounts (hfollows : table.Follows done) : table.Accounts done where
  ascending := List.pairwise_map.mpr table.ascending
  listed := by
    intro id
    rw [mem_ids_iff]
    constructor
    · rintro ⟨entry, hentry⟩
      obtain ⟨first, later, hfirst, hsince, -⟩ := hfollows.present id entry hentry
      exact ⟨first, later, hfirst, hsince⟩
    · rintro ⟨first, later, rfl, hsince⟩
      apply Option.ne_none_iff_exists'.mp
      intro hnone
      exact hfollows.absent first.id hnone first later hsince rfl
  counted := fun entry hentry => hfollows.present entry.id entry (get?_eq_some_of_mem hentry)
  admitted := fun call => call.exists_run_perform_iff table
  above := fun _ hfresh _ hentry => hfollows.lt_fresh hfresh hentry
  least := fun _ hfresh _ hid => hfollows.exists_le_of_lt_fresh hfresh hid
  exhausted := hfollows.fresh?_eq_none_iff
  available := by
    intro entry hfresh
    apply (Call.exists_run_perform_iff (.register entry) table).mpr
    exact get?_eq_none_of_supply_le (Nat.le_of_eq (toNat_of_fresh? hfresh).symm)

/-- Whatever calls are made on an empty table, a session remembers those that succeed, and
they account for the entries of the table and for the number it hands out next.  A call in
place does what it does to a copy, and leaves the table as it was if it fails. -/
theorem Session.accounts_run (calls : List Call) :
    (Session.run calls).table.Accounts (Session.run calls).done ∧
      (Session.run calls).done =
        (calls.zipIdx.filter fun (call, index) =>
          (Session.run (calls.take index)).accepts call).map Prod.fst ∧
      ∀ call : Call,
        (∀ fault after, call.perform.run (Session.run calls).table = .error fault after ↔
          call.apply (Session.run calls).table = .error fault ∧
            after = (Session.run calls).table) ∧
        ∀ after, call.perform.run (Session.run calls).table = .ok () after ↔
          call.apply (Session.run calls).table = .ok after := by
  refine ⟨(follows_run calls).accounts, done_run calls, fun call => ?_⟩
  rw [Call.run_perform]
  cases call.apply (Session.run calls).table with
  | ok changed => simp
  | error fault => simp [eq_comm]

-- The third call, the fifth and the last fail, and the number of the label that is gone is
-- not handed out again.
example :
    let session := Session.run [.register ⟨7, "exit", 4, 1⟩, .release 7, .release 7, .remove 7,
      .acquire 9, .register ⟨3, "loop", 0, 0⟩, .acquire 3, .remove 3]
    session.table.entries = [⟨3, "loop", 0, 1⟩] ∧ session.table.fresh? = some 8 ∧
      session.done.length = 5 := by
  decide +kernel

end LabelTable

end Peephole
