import Peephole.Optimizer
import Peephole.Proofs.Bookkeeping.Admitted
import Peephole.Proofs.Rewriting.Weight

/-!
# Runs of the optimizer

What holds of one application of a rule holds of every sequence of them, and of
the sequence that the optimizer chooses: a body that is in step with its table
stays so, nothing fails, and the audit between two rewrites makes no difference.
The only thing that can stop a run early is the limit on the number of rewrites.
-/

namespace Peephole

namespace Search

variable {body : Body} {before lines : List Line} {rules : List Rule} {Kept : Body → Prop}

theorem tryRules_cases
    (hattempt : ∀ rule ∈ rules, rule.attempt body lines = .declined ∨
      ∃ rewritten, rule.attempt body lines = .rewritten rewritten ∧ Kept rewritten)
    (position : Nat) :
    tryRules body position lines rules = .settled ∨
      ∃ rule rewritten, tryRules body position lines rules = .found position rule rewritten ∧
        Kept rewritten := by
  induction rules with
  | nil => exact .inl rfl
  | cons rule rules ih =>
      obtain ⟨hfirst, hothers⟩ := List.forall_mem_cons.mp hattempt
      rcases hfirst with hdeclined | ⟨rewritten, hrewritten, hkept⟩
      · rw [tryRules, hdeclined]
        exact ih hothers
      · rw [tryRules, hrewritten]
        exact .inr ⟨rule, rewritten, rfl, hkept⟩

theorem scan_cases (hlines : body.lines = before ++ lines)
    (happly : ∀ rule ∈ rules, ∀ position, rule.applyAt body position = .declined ∨
      ∃ rewritten, rule.applyAt body position = .rewritten rewritten ∧ Kept rewritten) :
    scan rules body lines = .settled ∨
      ∃ position rule rewritten, scan rules body lines = .found position rule rewritten ∧
        Kept rewritten := by
  induction lines generalizing before with
  | nil => exact .inl rfl
  | cons line rest ih =>
      have hattempt := fun rule hrule => happly rule hrule line.position
      simp only [Rule.applyAt, Body.ahead_eq_of_split hlines] at hattempt
      rcases tryRules_cases hattempt line.position with
        hsettled | ⟨rule, rewritten, hfound, hkept⟩
      · rw [scan, hsettled]
        exact ih (hlines.trans (List.append_cons before line rest))
      · rw [scan, hfound]
        exact .inr ⟨line.position, rule, rewritten, rfl, hkept⟩

end Search

namespace Optimizer

variable {optimizer : Optimizer} {body : Body} {Kept : Body → Prop}

/-- If every rule declines or rewrites in a certain way, a search ends with no rewrite or
with one that was made in this way. -/
theorem search_cases_of_applyAt
    (happly : ∀ rule ∈ optimizer.rules, ∀ position, rule.applyAt body position = .declined ∨
      ∃ rewritten, rule.applyAt body position = .rewritten rewritten ∧ Kept rewritten) :
    optimizer.search body = .settled ∨
      ∃ position rule rewritten, optimizer.search body = .found position rule rewritten ∧
        Kept rewritten :=
  Search.scan_cases (List.nil_append _).symm happly

/-- What every application of a rule keeps, a run keeps. -/
theorem kept_of_runWithin
    (happly : ∀ body, Kept body → ∀ rule ∈ optimizer.rules, ∀ position,
      rule.applyAt body position = .declined ∨
        ∃ rewritten, rule.applyAt body position = .rewritten rewritten ∧ Kept rewritten)
    (limit budget : Nat) (hkept : Kept body) :
    Kept (optimizer.runWithin limit budget body).body := by
  induction budget generalizing body with
  | zero =>
      rw [runWithin]
      rcases search_cases_of_applyAt (happly body hkept) with
        hsettled | ⟨position, rule, rewritten, hfound, hrewritten⟩
      · simp only [hsettled]
        exact hkept
      · simp only [hfound]
        cases optimizer.inspect rewritten <;> exact hrewritten
  | succ budget ih =>
      rw [runWithin]
      rcases search_cases_of_applyAt (happly body hkept) with
        hsettled | ⟨position, rule, rewritten, hfound, hrewritten⟩
      · simp only [hsettled]
        exact hkept
      · simp only [hfound]
        cases optimizer.inspect rewritten with
        | error fault => exact hrewritten
        | ok _ => exact ih hrewritten

/-- A search ends with no rewrite or with one that keeps the body in step. -/
theorem search_cases (optimizer : Optimizer) (hsynced : body.Synced) :
    optimizer.search body = .settled ∨
      ∃ position rule rewritten, optimizer.search body = .found position rule rewritten ∧
        rewritten.Synced ∧ Rewrites body.instructions rewritten.instructions :=
  search_cases_of_applyAt fun rule _ => rule.applyAt_cases hsynced

theorem inspect_eq_ok (optimizer : Optimizer) (hsynced : body.Synced) :
    optimizer.inspect body = .ok () := by
  rw [inspect, Body.audit_eq_ok_iff.mpr hsynced, ite_self]

/-- The result of a run: each step is a rewrite, and the run stops by itself within
the budget or by the first step beyond it. -/
structure Sound (limit budget : Nat) (body : Body) (run : Run) : Prop where
  synced : run.body.Synced
  rewrites : RewritesIn run.steps.length body.instructions run.body.instructions
  stops : run.fault? = none ∧ run.steps.length ≤ budget ∨
    run.fault? = some (.rewriteLimitExceeded limit) ∧ run.steps.length = budget + 1

theorem sound_runWithin (optimizer : Optimizer) (limit budget : Nat) (hsynced : body.Synced) :
    Sound limit budget body (optimizer.runWithin limit budget body) := by
  induction budget generalizing body with
  | zero =>
      rw [runWithin]
      rcases optimizer.search_cases hsynced with
        hsettled | ⟨position, rule, rewritten, hfound, hrewritten, hrewrites⟩
      · simp only [hsettled]
        exact ⟨hsynced, .refl _, .inl ⟨rfl, Nat.le_refl 0⟩⟩
      · simp only [hfound, optimizer.inspect_eq_ok hrewritten]
        exact ⟨hrewritten, .step hsynced.wellFormed hrewrites (.refl _), .inr ⟨rfl, rfl⟩⟩
  | succ budget ih =>
      rw [runWithin]
      rcases optimizer.search_cases hsynced with
        hsettled | ⟨position, rule, rewritten, hfound, hrewritten, hrewrites⟩
      · simp only [hsettled]
        exact ⟨hsynced, .refl _, .inl ⟨rfl, Nat.zero_le _⟩⟩
      · simp only [hfound, optimizer.inspect_eq_ok hrewritten]
        obtain ⟨hlast, hrest, hstops⟩ := ih hrewritten
        refine ⟨hlast, .step hsynced.wellFormed hrewrites hrest, hstops.imp ?_ ?_⟩
        · exact fun ⟨hfault, hsteps⟩ => ⟨hfault, Nat.succ_le_succ hsteps⟩
        · exact fun ⟨hfault, hsteps⟩ => ⟨hfault, congrArg Nat.succ hsteps⟩

theorem sound_run (optimizer : Optimizer) (hsynced : body.Synced) :
    Sound (optimizer.settings.rewriteLimit body) (optimizer.settings.rewriteLimit body) body
      (optimizer.run body) :=
  optimizer.sound_runWithin _ _ hsynced

/-- A run only depends on the rules: an audit of a body in step finds nothing. -/
theorem runWithin_eq_of_rules_eq {other : Optimizer} (hrules : optimizer.rules = other.rules)
    (limit budget : Nat) (hsynced : body.Synced) :
    optimizer.runWithin limit budget body = other.runWithin limit budget body := by
  have hsearch : ∀ body, optimizer.search body = other.search body := by
    intro body
    rw [search, search, hrules]
  induction budget generalizing body with
  | zero =>
      rw [runWithin, runWithin, hsearch]
      rcases other.search_cases hsynced with
        hsettled | ⟨position, rule, rewritten, hfound, hrewritten, -⟩
      · simp only [hsettled]
      · simp only [hfound, inspect_eq_ok _ hrewritten]
  | succ budget ih =>
      rw [runWithin, runWithin, hsearch]
      rcases other.search_cases hsynced with
        hsettled | ⟨position, rule, rewritten, hfound, hrewritten, -⟩
      · simp only [hsettled]
      · simp only [hfound, inspect_eq_ok _ hrewritten, ih hrewritten]

theorem fault_of_optimize {fault : Fault} (hsynced : body.Synced)
    (hfault : (optimizer.optimize body).1 = .error fault) :
    fault = .rewriteLimitExceeded (optimizer.settings.rewriteLimit body) := by
  rw [optimize, Run.outcome] at hfault
  rcases (optimizer.sound_run hsynced).stops with ⟨hnone, -⟩ | ⟨hsome, -⟩
  · simp [hnone] at hfault
  · simpa [hsome, eq_comm] using hfault

end Optimizer

/-! ## Sequences of applications -/

/-- Applies rules at positions one after the other, up to the first that fails. -/
def Rule.applyEach (body : Body) : List (Rule × Nat) → Except Fault Body
  | [] => .ok body
  | (rule, position) :: rest =>
      match rule.applyAt body position with
      | .declined => applyEach body rest
      | .rewritten rewritten => applyEach rewritten rest
      | .failed fault _ => .error fault

theorem Rule.applyEach_eq_ok {body : Body} (hsynced : body.Synced)
    (applications : List (Rule × Nat)) :
    ∃ final count, applyEach body applications = .ok final ∧ final.Synced ∧
      RewritesIn count body.instructions final.instructions := by
  induction applications generalizing body with
  | nil => exact ⟨body, 0, rfl, hsynced, .refl _⟩
  | cons application rest ih =>
      obtain ⟨rule, position⟩ := application
      rcases rule.applyAt_cases hsynced position with
        hdeclined | ⟨rewritten, hrewritten, hkept, hrewrites⟩
      · rw [applyEach, hdeclined]
        exact ih hsynced
      · obtain ⟨final, count, hfinal, hlast, hrest⟩ := ih hkept
        rw [applyEach, hrewritten]
        exact ⟨final, count + 1, hfinal, hlast, .step hsynced.wellFormed hrewrites hrest⟩

/-- Fewer jumps go to a label than there are lines, as the label itself stands on one. -/
theorem Body.Synced.references_lt {body : Body} (hsynced : body.Synced) {id : LabelId}
    {entry : LabelEntry} (hentry : body.labels.get? id = some entry) :
    entry.references < body.length := by
  obtain ⟨names, hrecords⟩ := hsynced.recorded
  rw [hrecords id] at hentry
  obtain ⟨position, hsite, rfl⟩ := Option.map_eq_some_iff.mp hentry
  obtain ⟨line, hline, hlabel, -⟩ := Line.exists_of_site?_eq_some hsite
  have hnone : line.instruction.target? = none := by rw [hlabel]; rfl
  calc (Line.targets body.lines).count id
      ≤ (Line.targets body.lines).length := List.count_le_length
    _ < body.lines.length := List.length_filterMap_lt_length_iff_exists.mpr ⟨line, hline, hnone⟩

end Peephole
