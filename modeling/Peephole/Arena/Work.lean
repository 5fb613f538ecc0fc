import Peephole.Arena.Window
import Peephole.LabelTable.Call

/-!
# Work in place

Rules change an arena and its label table in place, step by step.  A step that fails ends
the work and leaves behind what was done before it; so does a rule that changes something
and then declines.  Counts of jumps are words of 32 bits.
-/

namespace Peephole

/-- What becomes of a count that outgrows its word. -/
inductive Overflow where
  /-- The program is stopped for good. -/
  | stop
  | wrap
  deriving DecidableEq, Repr

/-- A count as its word holds it. -/
def Overflow.word (overflow : Overflow) (count : Nat) : Option Nat :=
  if count < UInt32.size then
    some count
  else
    match overflow with
    | .stop => none
    | .wrap => some (count % UInt32.size)

/-- A process that goes on in a state.  Without a result, even a fault, the program was
stopped for good or does not come to an end. -/
abbrev Process (σ : Type) := ExceptT Fault (StateT σ Option)

namespace Process

variable {α β σ : Type}

/-- What a process gives in a state, and the state that it leaves behind. -/
def on (process : Process σ α) (state : σ) : Option (Except Fault α × σ) :=
  (ExceptT.run process).run state

/-- What follows a process.  A fault goes past it. -/
@[simp]
def andThen (next : α → Process σ β) : Except Fault α × σ → Option (Except Fault β × σ)
  | (.ok result, state) => (next result).on state
  | (.error fault, state) => some (.error fault, state)

@[simp]
theorem on_bind (process : Process σ α) (next : α → Process σ β) (state : σ) :
    on (process >>= next) state = (process.on state).bind (andThen next) := by
  refine congrArg ((process.on state).bind ·) ?_
  funext result
  rcases result with ⟨_ | _, _⟩ <;> rfl

theorem on_bind_eq_ok_iff {process : Process σ α} {next : α → Process σ β} {state final : σ}
    {result : β} :
    on (process >>= next) state = some (.ok result, final) ↔
      ∃ middle state', process.on state = some (.ok middle, state') ∧
        (next middle).on state' = some (.ok result, final) := by
  rw [on_bind, Option.bind_eq_some_iff]
  constructor
  · rintro ⟨⟨_ | middle, state'⟩, hprocess, hnext⟩
    · simp [andThen] at hnext
    · exact ⟨middle, state', hprocess, hnext⟩
  · rintro ⟨middle, state', hprocess, hnext⟩
    exact ⟨_, hprocess, hnext⟩

@[simp]
theorem on_pure (result : α) (state : σ) :
    on (pure result : Process σ α) state = some (.ok result, state) := rfl

@[simp]
theorem on_throw (fault : Fault) (state : σ) :
    on (throw fault : Process σ α) state = some (.error fault, state) := rfl

@[simp]
theorem on_get (state : σ) : on (get : Process σ σ) state = some (.ok state, state) := rfl

@[simp]
theorem on_get_bind (next : σ → Process σ β) (state : σ) :
    on (get >>= next) state = (next state).on state := rfl

@[simp]
theorem on_modify (change : σ → σ) (state : σ) :
    on (modify change : Process σ PUnit) state = some (.ok ⟨⟩, change state) := rfl

end Process

/-- Work on an arena in place. -/
abbrev Work := Process Arena

namespace Work

/-- Makes a change of the nodes. -/
def change {α : Type} (change : Arena.Change α) : Work α := fun arena =>
  match change.run arena with
  | .ok result changed => some (.ok result, changed)
  | .error fault left => some (.error fault, left)

/-- Makes a change of the label table. -/
def update {α : Type} (update : LabelTable.Update α) : Work α := fun arena =>
  match update.run arena.labels with
  | .ok result labels => some (.ok result, { arena with labels := labels })
  | .error fault labels => some (.error fault, { arena with labels := labels })

/-- Looks something up, which may fail. -/
def look {α : Type} (question : Arena → Except Fault α) : Work α := fun arena =>
  some (question arena, arena)

/-- Looks something up, which may not come to an end. -/
def await {α : Type} (question : Arena → Option α) : Work α := fun arena =>
  (question arena).map fun result => (.ok result, arena)

/-- Work that does not come to an end. -/
def endless {α : Type} : Work α := fun _ => none

theorem on_change {α : Type} (change : Arena.Change α) (arena : Arena) :
    Process.on (Work.change change) arena =
      match change.run arena with
      | .ok result changed => some (.ok result, changed)
      | .error fault left => some (.error fault, left) := rfl

theorem on_update {α : Type} (update : LabelTable.Update α) (arena : Arena) :
    Process.on (Work.update update) arena =
      match update.run arena.labels with
      | .ok result labels => some (.ok result, { arena with labels := labels })
      | .error fault labels => some (.error fault, { arena with labels := labels }) := rfl

@[simp]
theorem on_look {α : Type} (question : Arena → Except Fault α) (arena : Arena) :
    Process.on (look question) arena = some (question arena, arena) := rfl

theorem on_look_bind {α β : Type} (question : Arena → Except Fault α) (next : α → Work β)
    (arena : Arena) :
    Process.on (look question >>= next) arena = Process.andThen next (question arena, arena) := by
  rw [Process.on_bind, on_look, Option.bind_some]

@[simp]
theorem on_await {α : Type} (question : Arena → Option α) (arena : Arena) :
    Process.on (await question) arena =
      (question arena).map fun result => (.ok result, arena) := rfl

def register (entry : LabelEntry) : Work Unit :=
  update (LabelTable.Call.register entry).perform

/-- Counts one more jump to a label. -/
def acquire (overflow : Overflow) (id : LabelId) : Work Unit := do
  let entry ← update (LabelTable.Update.entry id)
  let references ← await fun _ => overflow.word (entry.references + 1)
  update (modify (·.put { entry with references := references }))

def release (id : LabelId) : Work Unit :=
  update (LabelTable.Call.release id).perform

def remove (id : LabelId) : Work Unit :=
  update (LabelTable.Call.remove id).perform

def insertAfter (position : Nat) (instruction : Instruction) : Work Nat :=
  change (Arena.insertAfter position instruction)

def erase (position : Nat) : Work Unit :=
  change (Arena.erase position)

/-- Replaces some nodes, and says that a rewrite was made. -/
def rewrite (position width : Nat) (code : List Instruction) : Work Bool := do
  let _ ← change (Arena.replace position width code)
  return true

end Work

end Peephole
