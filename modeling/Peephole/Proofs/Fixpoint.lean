import Peephole.Optimizer
import Peephole.Proofs.Bookkeeping.Script

/-!
# Bodies at rest

A body is at rest under an optimizer when none of its rules rewrites it anywhere.
An optimizer that ends without a fault leaves a body at rest, and does nothing to
a body that is at rest.  No bookkeeping has to be in order for that: a rule which
declines a body does so on the strength of what it reads, and leaves it as it is.
-/

namespace Peephole

theorem Script.run_ne_declined (body : Body) (script : Script) :
    Script.run body script ≠ .declined := by
  induction script generalizing body with
  | nil => simp [Script.run]
  | cons edit rest ih =>
      rw [Script.run]
      cases edit.perform body with
      | ok edited => exact ih edited
      | error fault => simp

namespace Rule

variable {body : Body} {lines : List Line}

/-- A rule declines exactly where it proposes nothing. -/
theorem attempt_eq_declined_iff (rule : Rule) :
    rule.attempt body lines = .declined ↔ rule.plan body lines = .ok none := by
  rw [attempt]
  cases rule.plan body lines with
  | error fault => simp
  | ok proposal =>
      cases proposal with
      | none => simp
      | some script => simp [Script.run_ne_declined]

/-- There is nothing to rewrite at a stale position. -/
theorem attempt_nil (rule : Rule) (body : Body) : rule.attempt body [] = .declined := by
  rw [attempt_eq_declined_iff]
  cases rule <;> rfl

end Rule

namespace Search

variable {body : Body} {lines : List Line}

theorem tryRules_eq_settled_iff (position : Nat) (rules : List Rule) :
    tryRules body position lines rules = .settled ↔
      ∀ rule ∈ rules, rule.attempt body lines = .declined := by
  induction rules with
  | nil => simp [tryRules]
  | cons rule rest ih =>
      rw [tryRules, List.forall_mem_cons, ← ih]
      cases rule.attempt body lines <;> simp

theorem scan_eq_settled_iff (rules : List Rule) :
    scan rules body lines = .settled ↔
      ∀ before rest, lines = before ++ rest →
        ∀ rule ∈ rules, rule.attempt body rest = .declined := by
  induction lines with
  | nil =>
      refine ⟨fun _ before rest hsplit rule _ => ?_, fun _ => rfl⟩
      obtain ⟨-, rfl⟩ := List.append_eq_nil_iff.mp hsplit.symm
      exact rule.attempt_nil body
  | cons line lines ih =>
      have hscan : scan rules body (line :: lines) = .settled ↔
          tryRules body line.position (line :: lines) rules = .settled ∧
            scan rules body lines = .settled := by
        rw [scan]
        cases tryRules body line.position (line :: lines) rules <;> simp
      rw [hscan, tryRules_eq_settled_iff, ih]
      constructor
      · rintro ⟨hfirst, hlater⟩ before rest hsplit
        rcases List.cons_eq_append_iff.mp hsplit with ⟨rfl, rfl⟩ | ⟨before, rfl, rfl⟩
        · exact hfirst
        · exact hlater before rest rfl
      · intro hall
        exact ⟨hall [] _ rfl, fun before rest hsplit =>
          hall (line :: before) rest (congrArg (line :: ·) hsplit)⟩

end Search

namespace Optimizer

variable {optimizer : Optimizer} {body : Body}

/-- A search finds nothing exactly if no rule rewrites the body at any position, be
it in use, stale or never used. -/
theorem search_eq_settled_iff :
    optimizer.search body = .settled ↔
      ∀ rule ∈ optimizer.rules, ∀ position, rule.applyAt body position = .declined := by
  rw [search, Search.scan_eq_settled_iff]
  constructor
  · intro hsettled rule hrule position
    exact hsettled _ _ (Line.before_append_ahead body.lines position).symm rule hrule
  · intro hdeclined before rest hsplit rule hrule
    cases rest with
    | nil => exact rule.attempt_nil body
    | cons line rest =>
        have happly := hdeclined rule hrule line.position
        rwa [Rule.applyAt, Body.ahead_eq_of_split hsplit] at happly

/-- A run that nothing stopped ended with a search that found nothing. -/
theorem settled_of_runWithin {limit budget : Nat}
    (hfault : (optimizer.runWithin limit budget body).fault? = none) :
    optimizer.search (optimizer.runWithin limit budget body).body = .settled := by
  induction budget generalizing body with
  | zero =>
      rw [runWithin] at hfault ⊢
      cases hsearch : optimizer.search body with
      | settled => simp only [hsearch]
      | failed fault left => simp [hsearch] at hfault
      | found position rule rewritten =>
          cases hinspect : optimizer.inspect rewritten <;> simp [hsearch, hinspect] at hfault
  | succ budget ih =>
      rw [runWithin] at hfault ⊢
      cases hsearch : optimizer.search body with
      | settled => simp only [hsearch]
      | failed fault left => simp [hsearch] at hfault
      | found position rule rewritten =>
          cases hinspect : optimizer.inspect rewritten with
          | error fault => simp [hsearch, hinspect] at hfault
          | ok _ =>
              simp only [hsearch, hinspect] at hfault ⊢
              exact ih hfault

theorem settled_of_optimize {report : Report} {optimized : Body}
    (hoptimize : optimizer.optimize body = (.ok report, optimized)) :
    optimizer.search optimized = .settled := by
  obtain ⟨houtcome, rfl⟩ := Prod.mk.inj hoptimize
  refine settled_of_runWithin ?_
  rw [Run.outcome, run] at houtcome
  split at houtcome
  · assumption
  · simp at houtcome

theorem steps_ne_nil_of_found {limit budget position : Nat} {rule : Rule} {rewritten : Body}
    (hfound : optimizer.search body = .found position rule rewritten) :
    (optimizer.runWithin limit budget body).steps ≠ [] := by
  rw [runWithin.eq_def]
  simp only [hfound]
  cases optimizer.inspect rewritten with
  | error fault => exact List.cons_ne_nil _ _
  | ok _ => cases budget <;> exact List.cons_ne_nil _ _

/-- A body in which nothing was rewritten was at rest already. -/
theorem settled_of_rewrites_eq_zero {report : Report} {optimized : Body}
    (hoptimize : optimizer.optimize body = (.ok report, optimized))
    (hrewrites : report.rewrites = 0) : optimizer.search body = .settled := by
  obtain ⟨houtcome, -⟩ := Prod.mk.inj hoptimize
  rw [Run.outcome] at houtcome
  split at houtcome
  · rename_i hfault
    cases houtcome
    have hsteps : (optimizer.run body).steps = [] := List.length_eq_zero_iff.mp hrewrites
    cases hsearch : optimizer.search body with
    | settled => rfl
    | failed fault left => simp [run, runWithin.eq_def, hsearch] at hfault
    | found position rule rewritten => exact absurd hsteps (steps_ne_nil_of_found hsearch)
  · cases houtcome

/-- The report on a body that was at rest already. -/
theorem optimize_of_settled (hsettled : optimizer.search body = .settled) :
    optimizer.optimize body = (.ok ⟨1, 0, fun _ => 0, body.length, body.length⟩, body) := by
  have hrun : optimizer.run body = ⟨[], body, none⟩ := by
    rw [run, runWithin]
    simp only [hsettled]
  rw [optimize, hrun]
  rfl

end Optimizer

end Peephole
