import Peephole.Arena.Audit
import Peephole.Arena.Rule
import Peephole.Optimizer

/-!
# The optimizer in place

The optimizer goes through an arena from its head and tries its rules at every node.  The
first rule that says it made a rewrite sends it back to the head.  What it does is counted
on the way, and lost when a fault ends the work.  Looking for a match goes through the nodes
without changing them, and tries every rule on a copy of its own.
-/

namespace Peephole

/-- What was counted while code was optimized.  The rewrites of each rule stand under its
name, by ascending names. -/
@[ext]
structure Stats where
  passes : Nat := 0
  rewrites : Nat := 0
  hits : List (String × Nat) := []
  before : Nat := 0
  after : Nat := 0
  deriving DecidableEq, Repr

namespace Stats

/-- Counts one more under a name. -/
def bump (name : String) : List (String × Nat) → List (String × Nat)
  | [] => [(name, 1)]
  | (other, count) :: rest =>
      if name < other then (name, 1) :: (other, count) :: rest
      else if name = other then (other, count + 1) :: rest
      else (other, count) :: bump name rest

/-- Counts one more pass. -/
def pass (stats : Stats) : Stats :=
  { stats with passes := stats.passes + 1 }

/-- Counts a rewrite of a rule. -/
def record (stats : Stats) (rule : Rule) : Stats :=
  { stats with
    rewrites := stats.rewrites + 1
    hits := bump rule.name stats.hits }

end Stats

/-- What an optimizer has at hand while it works: the arena, what was counted so far, and a
log of the rewrites, each with its position and rule. -/
structure Progress where
  arena : Arena
  stats : Stats
  log : List (Nat × Rule)

namespace Progress

def pass (progress : Progress) : Progress :=
  { progress with stats := progress.stats.pass }

/-- Counts a rewrite and adds it to the log. -/
def record (progress : Progress) (position : Nat) (rule : Rule) : Progress :=
  { progress with
    stats := progress.stats.record rule
    log := progress.log ++ [(position, rule)] }

end Progress

namespace InPlace

/-- Tries rules at a position, up to the first that makes a rewrite. -/
def tryRules (overflow : Overflow) (position : Nat) : List Rule → Work (Option Rule)
  | [] => return none
  | rule :: rest => do
      if ← rule.apply overflow position then
        return some rule
      else
        tryRules overflow position rest

/-- Tries rules at every node from a cursor on, up to the first rewrite. -/
def scan (overflow : Overflow) (rules : List Rule) :
    Nat → Option Nat → Work (Option (Nat × Rule))
  | _, none => return none
  | 0, some _ => Work.endless
  | reach + 1, some position => do
      match ← tryRules overflow position rules with
      | some rule => return some (position, rule)
      | none => scan overflow rules reach ((← get).next? position)

/-- Tries rules at every node of an arena, up to the first rewrite. -/
def pass (overflow : Overflow) (rules : List Rule) : Work (Option (Nat × Rule)) := do
  let arena ← get
  scan overflow rules arena.reach arena.first?

/-- The work of an optimizer. -/
abbrev Drive := Process Progress

/-- Works on the arena. -/
def onArena {α : Type} (work : Work α) : Drive α := fun progress =>
  (work.on progress.arena).map fun (result, arena) => (result, { progress with arena := arena })

@[simp]
theorem on_onArena {α : Type} (work : Work α) (progress : Progress) :
    Process.on (onArena work) progress =
      (work.on progress.arena).map fun (result, arena) =>
        (result, { progress with arena := arena }) := rfl

/-- Goes on unless one rewrite too many was made. -/
def checkLimit (limit : Nat) : Drive Bool := do
  if limit < (← get).stats.rewrites then
    throw (.rewriteLimitExceeded limit)
  else
    return true

/-- What is checked after a rewrite. -/
def inspect (overflow : Overflow) (optimizer : Optimizer) (limit : Nat) : Drive Bool := do
  if optimizer.settings.auditEachStep then
    onArena (Work.audit overflow)
  checkLimit limit

/-- Goes through the arena once, and says whether to do so again, after a rewrite. -/
def turn (overflow : Overflow) (optimizer : Optimizer) (limit : Nat) : Drive Bool := do
  modify Progress.pass
  match ← onArena (pass overflow optimizer.rules) with
  | none => return false
  | some (position, rule) =>
      modify (·.record position rule)
      inspect overflow optimizer limit

section

variable {overflow : Overflow} {optimizer : Optimizer} {limit : Nat} {progress next : Progress}

theorem on_checkLimit (limit : Nat) (progress : Progress) :
    (checkLimit limit).on progress =
      if limit < progress.stats.rewrites then
        some (.error (.rewriteLimitExceeded limit), progress)
      else some (.ok true, progress) := by
  rw [checkLimit, Process.on_bind, Process.on_get, Option.bind_some, Process.andThen]
  split <;> rfl

theorem on_inspect (overflow : Overflow) (optimizer : Optimizer) (limit : Nat)
    (progress : Progress) :
    (inspect overflow optimizer limit).on progress =
      match if optimizer.settings.auditEachStep then progress.arena.audit overflow
        else some (.ok ()) with
      | none => none
      | some (.error fault) => some (.error fault, progress)
      | some (.ok ()) => (checkLimit limit).on progress := by
  rw [inspect]
  split
  · rw [Process.on_bind, on_onArena, Work.on_audit]
    rcases progress.arena.audit overflow with _ | fault | _ <;> rfl
  · rfl

/-- The checks after a rewrite change nothing.  The loop goes on after them, unless there
was a fault. -/
theorem inspect_cases {result : Except Fault Bool}
    (hinspect : (inspect overflow optimizer limit).on progress = some (result, next)) :
    next = progress ∧
      (result = .ok true ∧ progress.stats.rewrites ≤ limit ∨ ∃ fault, result = .error fault) := by
  rw [on_inspect] at hinspect
  split at hinspect
  · cases hinspect
  · cases hinspect
    exact ⟨rfl, .inr ⟨_, rfl⟩⟩
  · rw [on_checkLimit] at hinspect
    split at hinspect
    · cases hinspect
      exact ⟨rfl, .inr ⟨_, rfl⟩⟩
    · cases hinspect
      exact ⟨rfl, .inl ⟨rfl, by omega⟩⟩

theorem on_turn (overflow : Overflow) (optimizer : Optimizer) (limit : Nat) (progress : Progress) :
    (turn overflow optimizer limit).on progress =
      match (pass overflow optimizer.rules).on progress.arena with
      | none => none
      | some (.error fault, left) => some (.error fault, { progress.pass with arena := left })
      | some (.ok none, left) => some (.ok false, { progress.pass with arena := left })
      | some (.ok (some (position, rule)), next) =>
          (inspect overflow optimizer limit).on
            (Progress.record { progress.pass with arena := next } position rule) := by
  have harena : progress.pass.arena = progress.arena := rfl
  rw [turn, Process.on_bind, Process.on_modify, Option.bind_some, Process.andThen, Process.on_bind,
    on_onArena, harena]
  rcases (pass overflow optimizer.rules).on progress.arena with _ | ⟨fault | _ | _, left⟩ <;> rfl

/-- A turn after which the loop goes on has made a rewrite, and not one too many. -/
theorem rewrites_of_turn
    (hturn : (turn overflow optimizer limit).on progress = some (.ok true, next)) :
    progress.stats.rewrites < next.stats.rewrites ∧ next.stats.rewrites ≤ limit := by
  rw [on_turn] at hturn
  split at hturn
  · cases hturn
  · cases hturn
  · cases hturn
  · obtain ⟨rfl, ⟨-, hlimit⟩ | ⟨fault, hfault⟩⟩ := inspect_cases hturn
    · exact ⟨Nat.lt_succ_self _, hlimit⟩
    · cases hfault

end

/-- Goes through the arena again and again, until nothing is rewritten any more. -/
def rewriteAll (overflow : Overflow) (optimizer : Optimizer) (limit : Nat) (progress : Progress) :
    Option (Except Fault Unit × Progress) :=
  match _ : (turn overflow optimizer limit).on progress with
  | none => none
  | some (.error fault, left) => some (.error fault, left)
  | some (.ok false, rested) => some (.ok (), rested)
  | some (.ok true, next) => rewriteAll overflow optimizer limit next
termination_by limit - progress.stats.rewrites
decreasing_by
  obtain ⟨hmore, hlimit⟩ := rewrites_of_turn ‹_›
  omega

/-- Rewrites an arena until it comes to rest.  Gives what was counted, or the fault that
ended it, and what the optimizer had at hand in the end. -/
def drive (overflow : Overflow) (optimizer : Optimizer) (arena : Arena) :
    Option (Except Fault Stats × Progress) :=
  let limit := optimizer.settings.limit arena.length arena.labels.size
  let start : Progress := ⟨arena, { before := arena.length }, []⟩
  (rewriteAll overflow optimizer limit start).map fun (result, progress) =>
    (result.map fun _ => { progress.stats with after := progress.arena.length }, progress)

def optimize (overflow : Overflow) (optimizer : Optimizer) : Work Stats := fun arena =>
  (drive overflow optimizer arena).map fun (result, progress) => (result, progress.arena)

/-- Tries rules at a position, each on a copy of the arena, up to the first that would make
a rewrite. -/
def tryCopies (overflow : Overflow) (arena : Arena) (position : Nat) :
    List Rule → ExceptT Fault Option (Option Rule)
  | [] => return none
  | rule :: rest => do
      if ← ExceptT.mk (((rule.apply overflow position).on arena).map Prod.fst) then
        return some rule
      else
        tryCopies overflow arena position rest

/-- Looks from a cursor on for a position and a rule that would make a rewrite.  A link that
leads out of the arena stops the program. -/
def findFrom (overflow : Overflow) (rules : List Rule) (arena : Arena) :
    Nat → Option Nat → ExceptT Fault Option (Option (Nat × Rule))
  | _, none => return none
  | 0, some _ => ExceptT.lift none
  | reach + 1, some position => do
      let _ ← ExceptT.lift arena.nodes[position]?
      match ← tryCopies overflow arena position rules with
      | some rule => return some (position, rule)
      | none => findFrom overflow rules arena reach (arena.next? position)

/-- The first position and rule that would rewrite an arena. -/
def findMatch (overflow : Overflow) (optimizer : Optimizer) (arena : Arena) :
    Option (Except Fault (Option (Nat × Rule))) :=
  (findFrom overflow optimizer.rules arena arena.reach arena.first?).run

end InPlace

end Peephole
