import Peephole.LabelTable

/-!
# Calls on a label table

A table that is kept in place is changed by calls, and a call that fails leaves behind
whatever it has changed up to that point.  So a call looks before it writes, or puts back
what it has taken out.  A session makes calls one after the other, goes on after a
failure, and remembers the calls that succeeded.
-/

namespace Peephole

namespace LabelTable

inductive Call where
  | register (entry : LabelEntry)
  | acquire (id : LabelId)
  | release (id : LabelId)
  | remove (id : LabelId)
  deriving DecidableEq, Repr

/-- A change of a table in place. -/
abbrev Update := EStateM Fault LabelTable

namespace Update

def entry (id : LabelId) : Update LabelEntry := do
  match (← get).get? id with
  | some entry => return entry
  | none => throw (.unknownLabel id)

def register (entry : LabelEntry) : Update Unit := do
  match (← get).get? entry.id with
  | some _ => throw (.duplicateLabel entry.id)
  | none => modify (·.put entry)

def acquire (id : LabelId) : Update Unit := do
  let entry ← Update.entry id
  modify (·.put { entry with references := entry.references + 1 })

def release (id : LabelId) : Update Unit := do
  let entry ← Update.entry id
  match entry.references with
  | 0 => throw (.labelUnderflow id)
  | references + 1 => modify (·.put { entry with references := references })

/-- Takes the entry of a label out and gives it, or puts it back if some jump goes to the
label. -/
def remove (id : LabelId) : Update LabelEntry := do
  let entry ← Update.entry id
  modify (·.erase id)
  if entry.references = 0 then
    return entry
  else
    modify (·.put entry)
    throw (.labelDesync id (.liveReferences entry.references))

end Update

namespace Call

/-- The label that a call is about. -/
def id : Call → LabelId
  | .register entry => entry.id
  | .acquire id => id
  | .release id => id
  | .remove id => id

@[simp]
theorem id_register (entry : LabelEntry) : (register entry).id = entry.id := rfl

@[simp]
theorem id_acquire (label : LabelId) : (acquire label).id = label := rfl

@[simp]
theorem id_release (label : LabelId) : (release label).id = label := rfl

@[simp]
theorem id_remove (label : LabelId) : (remove label).id = label := rfl

def perform : Call → Update Unit
  | .register entry => Update.register entry
  | .acquire id => Update.acquire id
  | .release id => Update.release id
  | .remove id => do let _ ← Update.remove id

/-- The table that a call makes of another one. -/
def apply (table : LabelTable) : Call → Except Fault LabelTable
  | .register entry => table.register entry
  | .acquire id => table.acquire id
  | .release id => table.release id
  | .remove id => table.remove id

end Call

/-- A table together with the calls that have succeeded on it, in order. -/
structure Session where
  table : LabelTable
  done : List Call

namespace Session

def make (session : Session) (call : Call) : Session :=
  match call.perform.run session.table with
  | .ok _ table => ⟨table, session.done ++ [call]⟩
  | .error _ table => ⟨table, session.done⟩

/-- Makes calls on an empty table. -/
def run (calls : List Call) : Session :=
  calls.foldl make ⟨.empty, []⟩

end Session

end LabelTable

end Peephole
