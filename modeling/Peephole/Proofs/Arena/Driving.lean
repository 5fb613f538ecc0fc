import Mathlib.Algebra.GroupWithZero.Nat
import Peephole.Proofs.Arena.Scanning

/-!
# The loop of the optimizer

The optimizer goes through an arena in place until a pass makes no rewrite.  Its log is a
trail of rewrites, each in the arena that the one before has left, and the statistics count
what is in the log.  When it ends without a fault a last pass has found nothing.
-/

namespace Peephole

/-! ## Counting -/

namespace Stats

variable {hits : List (String × Nat)} {names : List String} {name other : String} {count : Nat}

/-- How often each of some names occurs, by ascending names. -/
structure Counts (hits : List (String × Nat)) (names : List String) : Prop where
  ascending : hits.Pairwise fun left right => left.1 < right.1
  mem_iff : ∀ name count, (name, count) ∈ hits ↔ names.count name = count ∧ 0 < count

theorem mem_bump_iff_of_ne (hother : other ≠ name) :
    (other, count) ∈ bump name hits ↔ (other, count) ∈ hits := by
  induction hits with
  | nil => simp [bump, hother]
  | cons hit rest ih =>
      obtain ⟨head, number⟩ := hit
      rw [bump]
      split
      · simp [hother]
      · split
        · subst head
          simp [hother]
        · simp [ih]

theorem lt_of_mem_bump {hit : String × Nat} (hname : other < name)
    (hhits : ∀ hit ∈ hits, other < hit.1) (hhit : hit ∈ bump name hits) : other < hit.1 := by
  by_cases heq : hit.1 = name
  · rwa [heq]
  · exact hhits hit ((mem_bump_iff_of_ne heq).mp hhit)

theorem ascending_bump (hascending : hits.Pairwise fun left right => left.1 < right.1)
    (name : String) : (bump name hits).Pairwise fun left right => left.1 < right.1 := by
  induction hits with
  | nil => simp [bump]
  | cons hit rest ih =>
      obtain ⟨head, number⟩ := hit
      obtain ⟨hhead, hrest⟩ := List.pairwise_cons.mp hascending
      rw [bump]
      split
      · rename_i hless
        refine List.pairwise_cons.mpr ⟨fun hit hhit => ?_, hascending⟩
        rcases List.mem_cons.mp hhit with rfl | hhit
        · exact hless
        · exact String.lt_trans hless (hhead hit hhit)
      · rename_i hnot
        split
        · exact List.pairwise_cons.mpr ⟨hhead, hrest⟩
        · rename_i hne
          have hless : head < name := by
            by_contra hmore
            exact hne (String.le_antisymm (String.not_lt.mp hmore) (String.not_lt.mp hnot))
          exact List.pairwise_cons.mpr ⟨fun hit => lt_of_mem_bump hless hhead, ih hrest⟩

theorem mem_bump_self_iff (hascending : hits.Pairwise fun left right => left.1 < right.1) :
    (name, count) ∈ bump name hits ↔
      (∃ old, (name, old) ∈ hits ∧ count = old + 1) ∨
        (∀ old, (name, old) ∉ hits) ∧ count = 1 := by
  induction hits with
  | nil => simp [bump]
  | cons hit rest ih =>
      obtain ⟨head, number⟩ := hit
      obtain ⟨hhead, hrest⟩ := List.pairwise_cons.mp hascending
      rw [bump]
      split
      · rename_i hless
        have habsent : ∀ old, (name, old) ∉ (head, number) :: rest := by
          intro old hmem
          rcases List.mem_cons.mp hmem with heq | hmem
          · cases heq
            exact String.lt_irrefl _ hless
          · exact String.lt_irrefl _ (String.lt_trans hless (hhead _ hmem))
        grind
      · split
        · subst head
          have habsent : ∀ old, (name, old) ∉ rest := fun old hmem =>
            String.lt_irrefl name (hhead (name, old) hmem)
          grind
        · grind

theorem Counts.bump (hcounts : Counts hits names) (name : String) :
    Counts (bump name hits) (names ++ [name]) := by
  constructor
  · exact ascending_bump hcounts.ascending name
  · intro other count
    by_cases hother : other = name
    · subst other
      rw [mem_bump_self_iff hcounts.ascending]
      simp only [hcounts.mem_iff, List.count_append, List.count_singleton_self]
      grind
    · rw [mem_bump_iff_of_ne hother, hcounts.mem_iff, List.count_append,
        List.count_singleton, if_neg (by simpa using Ne.symm hother), Nat.add_zero]

/-- What was counted after some more rewrites, each in a pass of its own. -/
def along (stats : Stats) (log : List (Nat × Rule)) : Stats :=
  log.foldl (fun stats entry => stats.pass.record entry.2) stats

theorem along_cons (stats : Stats) (entry : Nat × Rule) (log : List (Nat × Rule)) :
    stats.along (entry :: log) = (stats.pass.record entry.2).along log := rfl

theorem rewrites_along (stats : Stats) (log : List (Nat × Rule)) :
    (stats.along log).rewrites = stats.rewrites + log.length := by
  induction log generalizing stats with
  | nil => rfl
  | cons entry rest ih => exact (ih _).trans (Nat.succ_add_eq_add_succ _ _)

theorem passes_along (stats : Stats) (log : List (Nat × Rule)) :
    (stats.along log).passes = stats.passes + log.length := by
  induction log generalizing stats with
  | nil => rfl
  | cons entry rest ih => exact (ih _).trans (Nat.succ_add_eq_add_succ _ _)

theorem before_along (stats : Stats) (log : List (Nat × Rule)) :
    (stats.along log).before = stats.before := by
  induction log generalizing stats with
  | nil => rfl
  | cons entry rest ih => exact ih _

theorem Counts.along {stats : Stats} (hcounts : Counts stats.hits names)
    (log : List (Nat × Rule)) :
    Counts (stats.along log).hits (names ++ (log.map Prod.snd).map Rule.name) := by
  induction log generalizing stats names with
  | nil => simpa [Stats.along] using hcounts
  | cons entry rest ih =>
      rw [along_cons, List.map_cons, List.map_cons, List.append_cons]
      exact ih (hcounts.bump entry.2.name)

theorem counts_along (before : Nat) (log : List (Nat × Rule)) :
    Counts (along { before := before } log).hits ((log.map Prod.snd).map Rule.name) := by
  have hempty : Counts ({ before := before } : Stats).hits [] := ⟨.nil, by simp⟩
  exact hempty.along log

end Stats

/-! ## Trails -/

namespace InPlace

variable {overflow : Overflow} {optimizer : Optimizer} {limit : Nat} {progress final : Progress}
variable {rules : List Rule} {arena last : Arena} {log : List (Nat × Rule)}

/-- A sequence of rewrites in place, each made by a pass through the arena that the one
before has left. -/
inductive Trail (overflow : Overflow) (rules : List Rule) :
    Arena → List (Nat × Rule) → Arena → Prop
  | nil (arena : Arena) : Trail overflow rules arena [] arena
  | cons {arena next last : Arena} {position : Nat} {rule : Rule} {log : List (Nat × Rule)}
      (hpass : (pass overflow rules).on arena = some (.ok (some (position, rule)), next))
      (hrest : Trail overflow rules next log last) :
      Trail overflow rules arena ((position, rule) :: log) last

theorem Trail.intact (htrail : Trail overflow rules arena log last) (hintact : arena.Intact) :
    last.Intact := by
  induction htrail with
  | nil arena => exact hintact
  | cons hpass hrest ih => exact ih (keeps_pass overflow rules hintact hpass)

/-! ## Turns -/

/-- What one turn of the loop can do. -/
inductive Turn (overflow : Overflow) (rules : List Rule) (progress : Progress) :
    Except Fault Bool → Progress → Prop
  | fault (fault : Fault) {left : Arena} (hleft : left.Intact) :
      Turn overflow rules progress (.error fault) { progress.pass with arena := left }
  | rest (hrest : (pass overflow rules).on progress.arena = some (.ok none, progress.arena)) :
      Turn overflow rules progress (.ok false) progress.pass
  | rewrite {result : Except Fault Bool} {position : Nat} {rule : Rule} {next : Arena}
      (hpass : (pass overflow rules).on progress.arena = some (.ok (some (position, rule)), next))
      (hresult : result ≠ .ok false) :
      Turn overflow rules progress result
        (Progress.record { progress.pass with arena := next } position rule)

theorem turn_cases {result : Except Fault Bool} (hintact : progress.arena.Intact)
    (hturn : (turn overflow optimizer limit).on progress = some (result, final)) :
    Turn overflow optimizer.rules progress result final := by
  rw [on_turn] at hturn
  split at hturn
  · cases hturn
  · rename_i fault left hpass
    cases hturn
    exact .fault fault (keeps_pass overflow optimizer.rules hintact hpass)
  · rename_i left hpass
    cases hturn
    obtain rfl := (declines_of_pass hintact hpass).1
    exact .rest hpass
  · rename_i position rule next hpass
    obtain ⟨rfl, hresult⟩ := inspect_cases hturn
    refine .rewrite hpass ?_
    rcases hresult with ⟨rfl, -⟩ | ⟨fault, rfl⟩ <;> simp

theorem Turn.intact {result : Except Fault Bool}
    (hturn : Turn overflow rules progress result final) (hintact : progress.arena.Intact) :
    final.arena.Intact := by
  cases hturn with
  | fault fault hleft => exact hleft
  | rest hrest => exact hintact
  | rewrite hpass hresult => exact keeps_pass overflow rules hintact hpass

/-! ## Runs -/

theorem rewriteAll_of_fault {fault : Fault}
    (hturn : (turn overflow optimizer limit).on progress = some (.error fault, final)) :
    rewriteAll overflow optimizer limit progress = some (.error fault, final) := by
  rw [rewriteAll]
  split <;> simp_all

theorem rewriteAll_of_rest
    (hturn : (turn overflow optimizer limit).on progress = some (.ok false, final)) :
    rewriteAll overflow optimizer limit progress = some (.ok (), final) := by
  rw [rewriteAll]
  split <;> simp_all

theorem rewriteAll_of_rewrite
    (hturn : (turn overflow optimizer limit).on progress = some (.ok true, final)) :
    rewriteAll overflow optimizer limit progress = rewriteAll overflow optimizer limit final := by
  rw [rewriteAll]
  split <;> simp_all

theorem intact_of_rewriteAll {result : Except Fault Unit} (hintact : progress.arena.Intact)
    (hrun : rewriteAll overflow optimizer limit progress = some (result, final)) :
    final.arena.Intact := by
  fun_induction rewriteAll overflow optimizer limit progress with
  | case1 progress hturn => cases hrun
  | case2 progress fault left hturn =>
      cases hrun
      exact (turn_cases hintact hturn).intact hintact
  | case3 progress rested hturn =>
      cases hrun
      exact (turn_cases hintact hturn).intact hintact
  | case4 progress next hturn ih => exact ih ((turn_cases hintact hturn).intact hintact) hrun

/-- The log of the loop is a trail of rewrites.  If it comes to rest, nothing is at
hand in the end but the arena that the trail leads to and the counts of the rewrites. -/
theorem trail_of_rewriteAll {result : Except Fault Unit} (hintact : progress.arena.Intact)
    (hrun : rewriteAll overflow optimizer limit progress = some (result, final)) :
    ∃ log last, final.log = progress.log ++ log ∧
      Trail overflow optimizer.rules progress.arena log last ∧
      (result = .ok () →
        final = ⟨last, (progress.stats.along log).pass, progress.log ++ log⟩ ∧
          (pass overflow optimizer.rules).on last = some (.ok none, last)) := by
  -- The first case has no result, and the last goes on; in the others the turn was the last.
  fun_induction rewriteAll overflow optimizer limit progress with
  | case1 progress hturn => cases hrun
  | case2 progress fault left hturn =>
      cases hrun
      cases turn_cases hintact hturn with
      | fault fault hleft => exact ⟨[], _, (List.append_nil _).symm, .nil _, by simp⟩
      | rewrite hpass hresult => exact ⟨_, _, rfl, .cons hpass (.nil _), by simp⟩
  | case3 progress rested hturn =>
      cases hrun
      cases turn_cases hintact hturn with
      | rest hrest =>
          have hlog : progress.log = progress.log ++ [] := (List.append_nil _).symm
          refine ⟨[], progress.arena, hlog, .nil _, fun _ => ⟨?_, hrest⟩⟩
          rw [← hlog]
          rfl
      | rewrite hpass hresult => exact absurd rfl hresult
  | case4 progress next hturn ih =>
      cases turn_cases hintact hturn with
      | @rewrite _ position rule next hpass hresult =>
          have hnext := keeps_pass overflow optimizer.rules hintact hpass
          obtain ⟨log, last, hlog, htrail, hrest⟩ := ih hnext hrun
          refine ⟨(position, rule) :: log, last, ?_, .cons hpass htrail, fun hresult => ?_⟩
          · rw [hlog, List.append_cons]
            rfl
          · obtain ⟨rfl, hlast⟩ := hrest hresult
            rw [List.append_cons]
            exact ⟨rfl, hlast⟩

theorem on_optimize (overflow : Overflow) (optimizer : Optimizer) (arena : Arena) :
    (optimize overflow optimizer).on arena =
      (drive overflow optimizer arena).map fun (result, progress) => (result, progress.arena) := rfl

theorem on_optimize_eq_some_iff {result : Except Fault Stats} :
    (optimize overflow optimizer).on arena = some (result, last) ↔
      ∃ progress, drive overflow optimizer arena = some (result, progress) ∧
        progress.arena = last := by
  rw [on_optimize, Option.map_eq_some_iff]
  constructor
  · rintro ⟨⟨_, progress⟩, hdrive, heq⟩
    cases heq
    exact ⟨progress, hdrive, rfl⟩
  · rintro ⟨progress, hdrive, rfl⟩
    exact ⟨_, hdrive, rfl⟩

theorem drive_eq_some_iff {result : Except Fault Stats} :
    drive overflow optimizer arena = some (result, progress) ↔
      ∃ ended, rewriteAll overflow optimizer
          (optimizer.settings.limit arena.length arena.labels.size)
          ⟨arena, { before := arena.length }, []⟩ = some (ended, progress) ∧
        ended.map (fun _ => { progress.stats with after := progress.arena.length }) = result := by
  rw [drive, Option.map_eq_some_iff]
  constructor
  · rintro ⟨⟨ended, progress⟩, hrun, heq⟩
    cases heq
    exact ⟨ended, hrun, rfl⟩
  · rintro ⟨ended, hrun, rfl⟩
    exact ⟨(ended, progress), hrun, rfl⟩

/-- The log of an optimizer is a trail of rewrites.  If it comes to rest, the trail leads to
the arena that is left, in which a pass finds nothing, and the rewrites were counted. -/
theorem trail_of_drive {result : Except Fault Stats} (hintact : arena.Intact)
    (hdrive : drive overflow optimizer arena = some (result, progress)) :
    ∃ last, Trail overflow optimizer.rules arena progress.log last ∧
      ∀ stats, result = .ok stats →
        last = progress.arena ∧
          (pass overflow optimizer.rules).on progress.arena = some (.ok none, progress.arena) ∧
          stats = { (Stats.along { before := arena.length } progress.log).pass with
            after := progress.arena.length } := by
  obtain ⟨ended, hrun, rfl⟩ := drive_eq_some_iff.mp hdrive
  obtain ⟨log, last, hlog, htrail, hrest⟩ := trail_of_rewriteAll hintact hrun
  refine ⟨last, hlog ▸ htrail, fun stats hstats => ?_⟩
  cases ended with
  | error fault => cases hstats
  | ok ended =>
      obtain ⟨rfl, hpass⟩ := hrest rfl
      exact ⟨rfl, hpass, (Except.ok.inj hstats).symm⟩

theorem keeps_optimize (overflow : Overflow) (optimizer : Optimizer) :
    Process.Keeps Arena.Intact (optimize overflow optimizer) := by
  intro arena hintact result left hleft
  obtain ⟨progress, hdrive, rfl⟩ := on_optimize_eq_some_iff.mp hleft
  obtain ⟨ended, hrun, -⟩ := drive_eq_some_iff.mp hdrive
  exact intact_of_rewriteAll hintact hrun

/-- In an arena at rest an optimizer makes a single pass. -/
theorem drive_of_rest (hpass : (pass overflow optimizer.rules).on arena = some (.ok none, arena)) :
    drive overflow optimizer arena =
      some (.ok ⟨1, 0, [], arena.length, arena.length⟩,
        Progress.pass ⟨arena, { before := arena.length }, []⟩) := by
  refine drive_eq_some_iff.mpr ⟨.ok (), rewriteAll_of_rest ?_, rfl⟩
  rw [on_turn, hpass]
  rfl

end InPlace

end Peephole
