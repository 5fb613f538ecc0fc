import Peephole.Proofs.Arena.Runs

/-!
# Bookkeeping in place

An arena that was put together from an instruction list has its links in order and agrees
with its label table.  Rules applied in place keep it so, wherever they are applied, and
none of them ever fails.  An optimizer can therefore only be stopped by its limit, and it
leaves the same arena behind with and without audits.
-/

namespace Peephole

namespace Arena

variable {arena : Arena} {body : Body} {overflow : Overflow}

/-- The bookkeeping of an arena is in order: its links lead through the live nodes and back,
an audit finds nothing, the label table has used no number beyond its bound, and every count
of jumps fits in its word. -/
structure Synced (overflow : Overflow) (arena : Arena) : Prop where
  links : arena.Intact
  audit : arena.audit overflow = some (.ok ())
  ids : ∀ entry ∈ arena.labels.entries, entry.id.toNat < arena.labels.supply
  words : ∀ entry ∈ arena.labels.entries, entry.references < UInt32.size

theorem InStep.bookkeeping (hinStep : arena.InStep body) (overflow : Overflow) :
    arena.Synced overflow := by
  refine ⟨hinStep.represents.intact, hinStep.audit overflow, arena.labels.below_supply, ?_⟩
  intro entry hentry
  rw [hinStep.represents.labels] at hentry
  have hreferences := hinStep.synced.references_lt (LabelTable.get?_eq_some_of_mem hentry)
  exact Nat.lt_trans hreferences hinStep.length

theorem inStep_of_assemble {names : List (LabelId × String)} {code : List Instruction}
    (hassemble : Arena.assemble names code = .ok arena) (hlength : code.length < UInt32.size) :
    ∃ body, arena.InStep body := by
  obtain ⟨body, hbody, hrepresents⟩ := exists_body_of_assemble hassemble
  obtain ⟨hsynced, -, rfl⟩ := Body.synced_of_assemble hbody
  refine ⟨body, hrepresents, hsynced, ?_⟩
  rwa [Body.instructions, Line.instructions, List.length_map] at hlength

end Arena

namespace InPlace

variable {overflow : Overflow} {optimizer other : Optimizer} {limit : Nat}
variable {progress next : Progress} {body : Body}

theorem inStep_of_turn (hinStep : progress.arena.InStep body)
    (hturn : (turn overflow optimizer limit).on progress = some (.ok true, next)) :
    ∃ rewritten, next.arena.InStep rewritten := by
  rcases turn_of_inStep hinStep overflow optimizer limit with
    ⟨hrest, -⟩ | ⟨step, found, hstep, -, hfound, -⟩
  · rw [hrest] at hturn
    cases hturn
  · rw [hstep, on_checkLimit] at hturn
    split at hturn
    · cases hturn
    · cases hturn
      exact ⟨step.body, hfound⟩

/-- Where audits find nothing they make no difference to a turn. -/
theorem on_turn_eq_of_rules_eq (hrules : optimizer.rules = other.rules)
    (hinStep : progress.arena.InStep body) :
    (turn overflow optimizer limit).on progress = (turn overflow other limit).on progress := by
  rw [on_turn, on_turn, hrules]
  rcases hinStep.pass overflow other with
    ⟨hpass, -⟩ | ⟨position, rule, changed, rewritten, hpass, -, hchanged⟩
  · rw [hpass]
  · rw [hpass]
    exact (on_inspect_of_audit (hchanged.audit overflow)).trans
      (on_inspect_of_audit (hchanged.audit overflow)).symm

theorem rewriteAll_eq_of_rules_eq (hrules : optimizer.rules = other.rules)
    (hinStep : progress.arena.InStep body) :
    rewriteAll overflow optimizer limit progress = rewriteAll overflow other limit progress := by
  fun_induction rewriteAll overflow optimizer limit progress generalizing body with
  | case1 progress hturn =>
      rw [on_turn_eq_of_rules_eq hrules hinStep] at hturn
      rw [rewriteAll]
      split <;> simp_all
  | case2 progress fault left hturn =>
      rw [on_turn_eq_of_rules_eq hrules hinStep] at hturn
      exact (rewriteAll_of_fault hturn).symm
  | case3 progress rested hturn =>
      rw [on_turn_eq_of_rules_eq hrules hinStep] at hturn
      exact (rewriteAll_of_rest hturn).symm
  | case4 progress next hturn ih =>
      obtain ⟨rewritten, hnext⟩ := inStep_of_turn hinStep hturn
      rw [on_turn_eq_of_rules_eq hrules hinStep] at hturn
      rw [rewriteAll_of_rewrite hturn, ih hnext]

theorem on_optimize_eq_of_rules_eq {arena : Arena} (hrules : optimizer.rules = other.rules)
    (hlimit : optimizer.settings.limit = other.settings.limit) (hinStep : arena.InStep body) :
    (optimize overflow optimizer).on arena = (optimize overflow other).on arena := by
  have hstart : (Progress.mk arena { before := arena.length } []).arena.InStep body := hinStep
  rw [on_optimize, on_optimize, drive, drive, hlimit, rewriteAll_eq_of_rules_eq hrules hstart]

end InPlace

/-- Whatever rules are applied to an arena that was put together from an instruction list,
and wherever, none of them fails and the bookkeeping stays in order.  An optimizer can
therefore only be stopped by its limit, and leaves the same behind with and without
audits. -/
theorem bookkeeping_kept {names : List (LabelId × String)} {code : List Instruction}
    {arena : Arena} (hassemble : Arena.assemble names code = .ok arena)
    (hlength : code.length < UInt32.size) (overflow : Overflow) :
    (∀ applications : List (Nat × Rule), ∃ final,
      (InPlace.applyEach overflow applications).on arena = some (.ok (), final) ∧
        final.Synced overflow) ∧
      (∀ optimizer : Optimizer, ∃ result final,
        (InPlace.optimize overflow optimizer).on arena = some (result, final) ∧
          final.Synced overflow ∧
          ∀ fault, result = .error fault →
            fault = .rewriteLimitExceeded
              (optimizer.settings.limit arena.length arena.labels.size)) ∧
      ∀ (settings : Settings) (rules : List Rule),
        (InPlace.optimize overflow ⟨{ settings with auditEachStep := true }, rules⟩).on arena =
          (InPlace.optimize overflow ⟨{ settings with auditEachStep := false }, rules⟩).on
            arena := by
  obtain ⟨body, hinStep⟩ := Arena.inStep_of_assemble hassemble hlength
  refine ⟨fun applications => ?_, fun optimizer => ?_, fun settings rules => ?_⟩
  · obtain ⟨final, last, hfinal, -, hlast⟩ := hinStep.applyEach overflow applications
    exact ⟨final, hfinal, hlast.bookkeeping overflow⟩
  · obtain ⟨result, progress, hdrive, ⟨left, hleft⟩, hfault⟩ :=
      InPlace.exists_drive hinStep overflow optimizer
    exact ⟨result, progress.arena, InPlace.on_optimize_eq_some_iff.mpr ⟨progress, hdrive, rfl⟩,
      hleft.bookkeeping overflow, hfault⟩
  · exact InPlace.on_optimize_eq_of_rules_eq rfl rfl hinStep

/-- A test whose outcome is put on the stack and tested again. -/
def testedTwice : List Instruction :=
  [.label 3, .branch (.test .isZero) 1, .const 0, .goto 2, .label 1, .const 1, .label 2,
    .branch (.test .nonZero) 3]

/-- The two tests become one; the rules at stale positions after that are declined. -/
theorem bookkeeping_kept_at_testedTwice :
    ∃ arena final, Arena.assemble [] testedTwice = .ok arena ∧
      testedTwice.length < UInt32.size ∧
      (InPlace.applyEach .stop
          [(1, .collapseComparisonTail), (4, .removeDeadLabel), (99, .removeNop)]).on arena =
        some (.ok (), final) ∧
      final.lines? = some [⟨0, .label 3⟩, ⟨8, .branch (.test .isZero) 3⟩] ∧
      final.Synced .stop := by
  have hbody : Body.assemble [] testedTwice = .ok _ := rfl
  obtain ⟨arena, hassemble, hrepresents⟩ := Arena.exists_assemble hbody
  have hinStep : arena.InStep _ := ⟨hrepresents, (Body.synced_of_assemble hbody).1, by decide⟩
  let applications : List (Nat × Rule) :=
    [(1, .collapseComparisonTail), (4, .removeDeadLabel), (99, .removeNop)]
  obtain ⟨final, last, hfinal, hlast, hleft⟩ := hinStep.applyEach .stop applications
  obtain ⟨other, hother, hsynced⟩ :=
    (bookkeeping_kept hassemble (by decide) .stop).1 applications
  cases hother.symm.trans hfinal
  have hlines := congrArg (Except.map Body.lines) hlast
  refine ⟨arena, final, hassemble, by decide, hfinal, ?_, hsynced⟩
  rw [hleft.represents.lines?]
  exact congrArg some (Except.ok.inj hlines).symm

end Peephole
