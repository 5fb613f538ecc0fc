import Peephole.Proofs.Arena.Plans
import Peephole.Proofs.Bookkeeping.Supply
import Peephole.Proofs.LabelHistory

/-!
# Scripts in place

Edits made in place keep the links of an arena in order, whatever they do to the label
table and wherever they fail.  So do rules in place, and a rule that declines has changed
nothing at all.
-/

namespace Peephole

namespace Process

variable {α β σ : Type} {Good : σ → Prop}

/-- Whatever a process leaves behind has a certain property if it was there before, be it
after a fault. -/
def Keeps (Good : σ → Prop) (process : Process σ α) : Prop :=
  ∀ ⦃state : σ⦄, Good state →
    ∀ ⦃result : Except Fault α⦄ ⦃left : σ⦄, process.on state = some (result, left) → Good left

theorem keeps_pure (result : α) : Keeps Good (pure result : Process σ α) := by
  intro state hstate _ left hleft
  cases hleft
  exact hstate

theorem keeps_throw (fault : Fault) : Keeps Good (throw fault : Process σ α) := by
  intro state hstate _ left hleft
  cases hleft
  exact hstate

theorem keeps_get : Keeps Good (get : Process σ σ) := by
  intro state hstate _ left hleft
  cases hleft
  exact hstate

theorem Keeps.bind {process : Process σ α} {next : α → Process σ β} (hprocess : Keeps Good process)
    (hnext : ∀ result, Keeps Good (next result)) : Keeps Good (process >>= next) := by
  intro state hstate result left hleft
  rw [on_bind] at hleft
  cases hon : process.on state with
  | none =>
      rw [hon] at hleft
      cases hleft
  | some outcome =>
      obtain ⟨middle, state'⟩ := outcome
      have hstate' := hprocess hstate hon
      rw [hon, Option.bind_some] at hleft
      cases middle with
      | error fault =>
          cases hleft
          exact hstate'
      | ok middle => exact hnext middle hstate' hleft

end Process

/-! ## Links in order -/

namespace Arena

variable {arena : Arena} {lines : List Line}

/-- The links of an arena are in order: they lead through its live nodes and back. -/
def Intact (arena : Arena) : Prop :=
  ∃ lines, arena.Holds lines

/-- Lines in an arena do not depend on the label table. -/
theorem Holds.withLabels (hholds : arena.Holds lines) (labels : LabelTable) :
    ({ arena with labels := labels } : Arena).Holds lines :=
  ⟨hholds.head, hholds.linked, hholds.live, hholds.length, hholds.distinct⟩

theorem Represents.intact {body : Body} (hrepresents : arena.Represents body) : arena.Intact :=
  ⟨body.lines, hrepresents.holds⟩

/-- An arena in order represents some body. -/
theorem Intact.exists_body (hintact : arena.Intact) : ∃ body, arena.Represents body := by
  obtain ⟨lines, hholds⟩ := hintact
  have hbelow : ∀ line ∈ lines, line.position < arena.nodes.size := fun line hline =>
    (hholds.linked.live (List.mem_map_of_mem hline)).lt_size
  exact ⟨⟨lines, arena.nodes.size, arena.labels, hholds.distinct, hbelow⟩, hholds, rfl, rfl⟩

end Arena

namespace Work

open Process

theorem keeps_update {α : Type} (change : LabelTable.Update α) :
    Keeps Arena.Intact (update change) := by
  intro arena hintact result left hleft
  obtain ⟨lines, hholds⟩ := hintact
  rw [on_update] at hleft
  split at hleft <;> cases hleft <;> exact ⟨lines, hholds.withLabels _⟩

theorem keeps_await {α : Type} (question : Arena → Option α) :
    Keeps Arena.Intact (await question) := by
  intro arena hintact result left hleft
  obtain ⟨_, -, hleft⟩ := Option.map_eq_some_iff.mp hleft
  cases hleft
  exact hintact

/-- What work gives on an arena and what becomes of the body: the same fault with the arena
as it was, or a value with an arena of the body. -/
inductive Renders {α : Type} (arena : Arena) (value : α) :
    Option (Except Fault α × Arena) → Except Fault Body → Prop
  | fault (fault : Fault) : Renders arena value (some (.error fault, arena)) (.error fault)
  | done {changed : Arena} {body : Body} (hrepresents : changed.Represents body) :
      Renders arena value (some (.ok value, changed)) (.ok body)

theorem Renders.intact {α : Type} {arena left : Arena} {value : α} {result : Except Fault α}
    {outcome : Except Fault Body} (hintact : arena.Intact)
    (hrenders : Renders arena value (some (result, left)) outcome) : left.Intact := by
  cases hrenders with
  | fault fault => exact hintact
  | done hrepresents => exact hrepresents.intact

variable {arena : Arena} {body : Body}

theorem renders_rewrite (hrepresents : arena.Represents body) (position width : Nat)
    (code : List Instruction) :
    Renders arena true ((rewrite position width code).on arena)
      ((body.splice position width code).map Prod.snd) := by
  have hagrees := hrepresents.agrees_replace position width code
  rw [rewrite, on_bind, on_change]
  generalize (Arena.replace position width code).run arena = inArena at hagrees ⊢
  generalize body.splice position width code = inBody at hagrees ⊢
  cases hagrees with
  | fault fault => exact .fault fault
  | answer first hchanged => exact .done hchanged

theorem renders_insertAfter (hrepresents : arena.Represents body) (position : Nat)
    (instruction : Instruction) :
    Renders arena body.supply ((insertAfter position instruction).on arena)
      ((body.insertAfter position instruction).map Prod.snd) := by
  have hholds := hrepresents.holds
  rw [Body.insertAfter]
  split
  · rename_i hahead
    rw [insertAfter, on_change, Arena.run_insertAfter_of_stale (hholds.node?_of_stale hahead)]
    exact .fault _
  · rename_i line rest hahead
    rw [insertAfter, on_change, Arena.run_insertAfter_of_node (hholds.node?_of_ahead hahead),
      hrepresents.size]
    exact .done (hrepresents.insert_of_ahead hahead instruction)

theorem keeps_change (splicing : Splicing) :
    Keeps Arena.Intact (change (Arena.change splicing)) := by
  intro arena hintact result left hleft
  obtain ⟨body, hrepresents⟩ := hintact.exists_body
  have hagrees := hrepresents.agrees_change splicing
  rw [on_change] at hleft
  generalize (Arena.change splicing).run arena = inArena at hagrees hleft
  generalize body.change splicing = inBody at hagrees
  cases hagrees with
  | fault fault =>
      cases hleft
      exact hintact
  | answer first hchanged =>
      cases hleft
      exact hchanged.intact

theorem keeps_rewrite (position width : Nat) (code : List Instruction) :
    Keeps Arena.Intact (rewrite position width code) :=
  (keeps_change (.replace position width code)).bind fun _ => keeps_pure true

theorem keeps_insertAfter (position : Nat) (instruction : Instruction) :
    Keeps Arena.Intact (insertAfter position instruction) := by
  intro arena hintact result left hleft
  obtain ⟨body, hrepresents⟩ := hintact.exists_body
  have hrenders := renders_insertAfter hrepresents position instruction
  rw [hleft] at hrenders
  exact hrenders.intact hintact

end Work

open Process in
theorem Edit.keeps_inPlace (overflow : Overflow) (edit : Edit) :
    Keeps Arena.Intact (edit.inPlace overflow) := by
  cases edit with
  | split position id =>
      exact (Work.keeps_insertAfter position (.label id)).bind fun _ => Work.keeps_update _
  | acquire id =>
      exact (Work.keeps_update _).bind fun _ =>
        (Work.keeps_await _).bind fun _ => Work.keeps_update _
  | release id => exact Work.keeps_update _
  | remove id => exact Work.keeps_update _
  | splice position width code =>
      exact (Work.keeps_rewrite position width code).bind fun _ => keeps_pure _

open Process in
theorem Script.keeps_inPlace (overflow : Overflow) (script : Script) :
    Keeps Arena.Intact (Script.inPlace overflow script) := by
  induction script with
  | nil => exact keeps_pure ()
  | cons edit rest ih => exact (edit.keeps_inPlace overflow).bind fun _ => ih

open Process in
theorem Plan.keeps_inPlace (overflow : Overflow) (plan : Plan) :
    Keeps Arena.Intact (Plan.inPlace overflow plan) := by
  match plan with
  | .error fault => exact keeps_throw fault
  | .ok none => exact keeps_pure false
  | .ok (some script) =>
    exact (Script.keeps_inPlace overflow script).bind fun _ => keeps_pure true

namespace Rule

variable {overflow : Overflow} {arena left : Arena} {position : Nat}

/-- Links that are in order stay in order, whatever a rule does. -/
theorem keeps_apply (overflow : Overflow) (rule : Rule) (position : Nat) :
    Process.Keeps Arena.Intact (rule.apply overflow position) := by
  intro arena hintact result left hleft
  obtain ⟨body, hrepresents⟩ := hintact.exists_body
  rw [rule.on_apply hrepresents] at hleft
  exact Plan.keeps_inPlace overflow _ hintact hleft

/-- A rule that declines has changed nothing. -/
theorem eq_of_apply_declined (hintact : arena.Intact) {rule : Rule}
    (happly : (rule.apply overflow position).on arena = some (.ok false, left)) :
    left = arena := by
  obtain ⟨body, hrepresents⟩ := hintact.exists_body
  rw [rule.on_apply hrepresents] at happly
  match hplan : rule.plan body (body.ahead position) with
  | .error fault =>
    rw [hplan] at happly
    cases happly
  | .ok none =>
    rw [hplan] at happly
    cases happly
    rfl
  | .ok (some script) =>
    rw [hplan] at happly
    obtain ⟨_, _, -, hlast⟩ := Process.on_bind_eq_ok_iff.mp happly
    cases hlast

/-- At a stale position there is nothing to do. -/
theorem apply_of_stale (hintact : arena.Intact) (rule : Rule)
    (hstale : arena.node? position = none) :
    (rule.apply overflow position).on arena = some (.ok false, arena) := by
  obtain ⟨body, hrepresents⟩ := hintact.exists_body
  have hahead : body.ahead position = [] := by
    cases hahead : body.ahead position with
    | nil => rfl
    | cons line rest =>
        rw [hrepresents.holds.node?_of_ahead hahead] at hstale
        cases hstale
  rw [rule.on_apply hrepresents, hahead]
  cases rule <;> rfl

end Rule

end Peephole
