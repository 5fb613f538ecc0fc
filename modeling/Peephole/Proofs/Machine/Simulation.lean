import Peephole.Proofs.Code
import Peephole.Proofs.Machine.Path

/-!
# Simulation

Some code refines other code when it does the same on every operand stack and all
variables: it ends with the same ones left, divides by zero or goes on forever
if the other code does, and executes no more instructions on the way, labels not
counted.  Nothing is asked of it where the other code traps otherwise.

Refinement is shown by relating states.  From related states both machines stop
alike, or go on to related states; where one of them stands still, a rank falls,
so that neither can wait for the other forever.
-/

namespace Peephole.Machine

open Code

/-- What some code does is done by other code as well, with no more work. -/
structure Refines (source target : List Instruction) : Prop where
  halts : ∀ {stack locals : List Int32} {trace : List Instruction} {last : State},
    Halts source ⟨0, stack, locals⟩ trace last →
      ∃ trace' last', Halts target ⟨0, stack, locals⟩ trace' last' ∧
        last'.stack = last.stack ∧ last'.locals = last.locals ∧ size trace' ≤ size trace
  divides : ∀ {stack locals : List Int32} {trace : List Instruction},
    Traps source ⟨0, stack, locals⟩ trace .divisionByZero →
      ∃ trace', Traps target ⟨0, stack, locals⟩ trace' .divisionByZero ∧
        size trace' ≤ size trace
  endless : ∀ {stack locals : List Int32},
    Endless source ⟨0, stack, locals⟩ → Endless target ⟨0, stack, locals⟩

namespace Refines

theorem refl (code : List Instruction) : Refines code code where
  halts := fun hhalts => ⟨_, _, hhalts, rfl, rfl, Nat.le_refl _⟩
  divides := fun htraps => ⟨_, htraps, Nat.le_refl _⟩
  endless := id

theorem trans {first second third : List Instruction} (hfirst : Refines first second)
    (hsecond : Refines second third) : Refines first third where
  halts := by
    intro stack locals trace last hhalts
    obtain ⟨trace', last', hhalts', hstack, hlocals, hwork⟩ := hfirst.halts hhalts
    obtain ⟨trace'', last'', hhalts'', hstack', hlocals', hwork'⟩ := hsecond.halts hhalts'
    exact ⟨trace'', last'', hhalts'', hstack'.trans hstack, hlocals'.trans hlocals,
      Nat.le_trans hwork' hwork⟩
  divides := by
    intro stack locals trace htraps
    obtain ⟨trace', htraps', hwork⟩ := hfirst.divides htraps
    obtain ⟨trace'', htraps'', hwork'⟩ := hsecond.divides htraps'
    exact ⟨trace'', htraps'', Nat.le_trans hwork' hwork⟩
  endless := fun hendless => hsecond.endless (hfirst.endless hendless)

end Refines

/-- How two machines go on from related states. -/
inductive Handover (source target : List Instruction) (related : Nat → State → State → Prop)
    (rank : Nat) (state state' : State) : Prop
  | finish (hsource : source[state.next]? = none) (htarget : target[state'.next]? = none)
      (hstack : state'.stack = state.stack) (hlocals : state'.locals = state.locals)
  | fail {trace : List Instruction} {trap : Trap} (hsource : Traps source state trace trap)
      (htrap : trap ≠ .divisionByZero)
  | divide {trace trace' : List Instruction} (hsource : Traps source state trace .divisionByZero)
      (htarget : Traps target state' trace' .divisionByZero) (hwork : size trace' ≤ size trace)
  | advance {trace trace' : List Instruction} {next next' : State} {rank' : Nat}
      (hsource : Path source state trace next) (htarget : Path target state' trace' next')
      (hwork : size trace' ≤ size trace) (hrelated : related rank' next next')
      (hprogress : trace ≠ [] ∧ trace' ≠ [] ∨ rank' < rank)

/-- From all related states both machines go on together. -/
def Simulates (source target : List Instruction) (related : Nat → State → State → Prop) : Prop :=
  ∀ rank state state', related rank state state' →
    Handover source target related rank state state'

namespace Simulates

variable {source target : List Instruction} {related : Nat → State → State → Prop}

/-- Less is left to do, or as much at a lower rank. -/
theorem lex_of_progress {trace : List Instruction} {all rest rank rank' : Nat}
    (hall : all = trace.length + rest) (hprogress : trace ≠ [] ∨ rank' < rank) :
    Prod.Lex (· < ·) (· < ·) (rest, rank') (all, rank) := by
  rw [Prod.lex_def]
  rcases hprogress with hne | hrank
  · have hpos := List.length_pos_iff.mpr hne
    omega
  · omega

theorem halts (hsimulates : Simulates source target related) {rank : Nat}
    {state state' last : State} {trace : List Instruction}
    (hrelated : related rank state state') (hhalts : Halts source state trace last) :
    ∃ trace' last', Halts target state' trace' last' ∧
      last'.stack = last.stack ∧ last'.locals = last.locals ∧ size trace' ≤ size trace := by
  cases hsimulates rank state state' hrelated with
  | finish hsource htarget hstack hlocals =>
      cases hhalts.path with
      | nil => exact ⟨[], state', ⟨.nil _, htarget⟩, hstack, hlocals, Nat.le_refl _⟩
      | cons hfetch _ _ => simp [hsource] at hfetch
  | fail hsource _ => exact (hhalts.not_traps hsource).elim
  | divide hsource _ _ => exact (hhalts.not_traps hsource).elim
  | advance hsource htarget hwork hrelated' hprogress =>
      obtain ⟨rest, htrace, hrest⟩ := hsource.halts_rest hhalts
      have hlength := htrace ▸ List.length_append
      have hless := lex_of_progress hlength (hprogress.imp_left And.left)
      obtain ⟨trace', last', hhalts', hstack, hlocals, hwork'⟩ :=
        halts hsimulates hrelated' hrest
      refine ⟨_, last', htarget.halts hhalts', hstack, hlocals, ?_⟩
      rw [htrace, size_append, size_append]
      omega
termination_by (trace.length, rank)
decreasing_by exact hless

theorem divides (hsimulates : Simulates source target related) {rank : Nat}
    {state state' : State} {trace : List Instruction}
    (hrelated : related rank state state')
    (htraps : Traps source state trace .divisionByZero) :
    ∃ trace', Traps target state' trace' .divisionByZero ∧ size trace' ≤ size trace := by
  cases hsimulates rank state state' hrelated with
  | finish hsource _ _ _ => exact ((Halts.mk (.nil _) hsource).not_traps htraps).elim
  | fail hsource htrap => exact absurd (hsource.unique htraps) htrap
  | divide hsource htarget hwork =>
      obtain ⟨last, instruction, hpath, hfetch, hexecute⟩ := hsource
      obtain ⟨rest, rfl, -⟩ := hpath.traps_rest htraps
      refine ⟨_, htarget, ?_⟩
      rw [size_append]
      omega
  | advance hsource htarget hwork hrelated' hprogress =>
      obtain ⟨rest, htrace, hrest⟩ := hsource.traps_rest htraps
      have hlength := htrace ▸ List.length_append
      have hless := lex_of_progress hlength (hprogress.imp_left And.left)
      obtain ⟨trace', htraps', hwork'⟩ := divides hsimulates hrelated' hrest
      refine ⟨_, htarget.traps htraps', ?_⟩
      rw [htrace, size_append, size_append]
      omega
termination_by (trace.length, rank)
decreasing_by exact hless

/-- The second machine follows the first one for as long as wanted. -/
theorem follows (hsimulates : Simulates source target related) {rank : Nat}
    {state state' : State} (hrelated : related rank state state')
    (hendless : Endless source state) (count : Nat) :
    ∃ trace last, Path target state' trace last ∧ count ≤ trace.length := by
  cases hsimulates rank state state' hrelated with
  | finish hsource _ _ _ => exact (hendless.not_halts ⟨.nil _, hsource⟩).elim
  | fail hsource _ => exact (hendless.not_traps hsource).elim
  | divide hsource _ _ => exact (hendless.not_traps hsource).elim
  | advance hsource htarget hwork hrelated' hprogress =>
      rename_i trace trace' next next' rank'
      by_cases hcount : count ≤ trace'.length
      · exact ⟨trace', next', htarget, hcount⟩
      · have hless := lex_of_progress (Nat.add_sub_cancel' (Nat.le_of_not_le hcount)).symm
          (hprogress.imp_left And.right)
        obtain ⟨rest, last, hpath, hlength⟩ :=
          follows hsimulates hrelated' (hendless.rest hsource) (count - trace'.length)
        refine ⟨trace' ++ rest, last, htarget.append hpath, ?_⟩
        rw [List.length_append]
        omega
termination_by (count, rank)
decreasing_by exact hless

theorem refines (hsimulates : Simulates source target related)
    (hstart : ∀ stack locals, ∃ rank, related rank ⟨0, stack, locals⟩ ⟨0, stack, locals⟩) :
    Refines source target where
  halts := by
    intro stack locals trace last hhalts
    obtain ⟨rank, hrelated⟩ := hstart stack locals
    exact hsimulates.halts hrelated hhalts
  divides := by
    intro stack locals trace htraps
    obtain ⟨rank, hrelated⟩ := hstart stack locals
    exact hsimulates.divides hrelated htraps
  endless := by
    intro stack locals hendless
    obtain ⟨rank, hrelated⟩ := hstart stack locals
    exact hsimulates.follows hrelated hendless

end Simulates

end Peephole.Machine
