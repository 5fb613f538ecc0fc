import Peephole.Proofs.Bookkeeping.Runs
import Peephole.Proofs.Fixpoint
import Peephole.Proofs.Termination

/-!
# The order of the rewrites

After each rewrite the optimizer starts over at the first line.  Which rewrite
comes next can be told without the search: it is made at the first line at which
any rule rewrites the body, by the first rule that does so there.  A run of the
optimizer is a sequence of such rewrites, each of the body that the one before
has left, and its report counts them.
-/

namespace Peephole

/-! ## What a search finds -/

/-- An item of a list with nothing but certain others in front of it. -/
def FirstAmong {α : Type} (skipped : α → Prop) (item : α) (items : List α) : Prop :=
  ∃ earlier later, items = earlier ++ item :: later ∧ ∀ other ∈ earlier, skipped other

theorem firstAmong_cons_iff {α : Type} {skipped : α → Prop} {item head : α} {rest : List α} :
    FirstAmong skipped item (head :: rest) ↔
      head = item ∨ skipped head ∧ FirstAmong skipped item rest := by
  constructor
  · rintro ⟨earlier, later, hsplit, hearlier⟩
    rcases List.cons_eq_append_iff.mp hsplit with ⟨-, hitem⟩ | ⟨others, rfl, rfl⟩
    · exact .inl (List.cons.inj hitem).1.symm
    · obtain ⟨hhead, hothers⟩ := List.forall_mem_cons.mp hearlier
      exact .inr ⟨hhead, others, later, rfl, hothers⟩
  · rintro (rfl | ⟨hhead, earlier, later, rfl, hearlier⟩)
    · exact ⟨[], rest, rfl, by simp⟩
    · exact ⟨head :: earlier, later, rfl, List.forall_mem_cons.mpr ⟨hhead, hearlier⟩⟩

namespace Optimizer

/-- A rewrite at the first line at which a rule of the optimizer rewrites a body, made
by the first of the rules that do so there. -/
structure Leftmost (optimizer : Optimizer) (body : Body) (step : Step) : Prop where
  line : FirstAmong
    (fun position => ∀ rule ∈ optimizer.rules, rule.applyAt body position = .declined)
    step.position (body.lines.map Line.position)
  rule : FirstAmong (fun rule => rule.applyAt body step.position = .declined)
    step.rule optimizer.rules
  rewritten : step.rule.applyAt body step.position = .rewritten step.body

end Optimizer

namespace Search

variable {body rewritten : Body} {front lines : List Line} {rules : List Rule}
variable {position place : Nat} {rule : Rule}

theorem tryRules_eq_found_iff :
    tryRules body position lines rules = .found place rule rewritten ↔
      position = place ∧ rule.attempt body lines = .rewritten rewritten ∧
        FirstAmong (fun other => other.attempt body lines = .declined) rule rules := by
  induction rules with
  | nil => simp [tryRules, FirstAmong]
  | cons first others ih =>
      rw [tryRules, firstAmong_cons_iff]
      cases hfirst : first.attempt body lines <;> grind

theorem scan_eq_found_iff (hlines : body.lines = front ++ lines) :
    scan rules body lines = .found place rule rewritten ↔
      rule.applyAt body place = .rewritten rewritten ∧
        FirstAmong (fun other => other.applyAt body place = .declined) rule rules ∧
        FirstAmong (fun position => ∀ rule ∈ rules, rule.applyAt body position = .declined)
          place (lines.map Line.position) := by
  induction lines generalizing front with
  | nil => simp [scan, FirstAmong]
  | cons line rest ih =>
      have hattempt : ∀ rule : Rule,
          rule.attempt body (line :: rest) = rule.applyAt body line.position := by
        intro rule
        rw [Rule.applyAt, Body.ahead_eq_of_split hlines]
      have hrest := ih (hlines.trans (List.append_cons front line rest))
      rw [scan, List.map_cons, firstAmong_cons_iff]
      constructor
      · intro hscan
        cases htry : tryRules body line.position (line :: rest) rules with
        | settled =>
            simp only [htry] at hscan
            obtain ⟨hrewritten, hrule, hline⟩ := hrest.mp hscan
            simp only [tryRules_eq_settled_iff, hattempt] at htry
            exact ⟨hrewritten, hrule, .inr ⟨htry, hline⟩⟩
        | found position other result =>
            simp only [htry] at hscan
            cases hscan
            simp only [tryRules_eq_found_iff, hattempt] at htry
            obtain ⟨rfl, hrewritten, hrule⟩ := htry
            exact ⟨hrewritten, hrule, .inl rfl⟩
        | failed fault left =>
            simp only [htry] at hscan
            cases hscan
      · rintro ⟨hrewritten, hrule, rfl | ⟨hdeclined, hline⟩⟩
        · have htry : tryRules body line.position (line :: rest) rules =
              .found line.position rule rewritten := by
            simp only [tryRules_eq_found_iff, hattempt, true_and]
            exact ⟨hrewritten, hrule⟩
          simp only [htry]
        · have htry : tryRules body line.position (line :: rest) rules = .settled := by
            simpa only [tryRules_eq_settled_iff, hattempt] using hdeclined
          simp only [htry]
          exact hrest.mpr ⟨hrewritten, hrule, hline⟩

end Search

namespace Optimizer

variable {optimizer : Optimizer} {body last : Body} {step : Step} {steps : List Step}

theorem search_eq_found_iff :
    optimizer.search body = .found step.position step.rule step.body ↔
      optimizer.Leftmost body step := by
  rw [search, Search.scan_eq_found_iff (List.nil_append _).symm]
  constructor
  · rintro ⟨hrewritten, hrule, hline⟩
    exact ⟨hline, hrule, hrewritten⟩
  · rintro ⟨hline, hrule, hrewritten⟩
    exact ⟨hrewritten, hrule, hline⟩

/-- There is one leftmost rewrite at most. -/
theorem Leftmost.unique {other : Step} (hstep : optimizer.Leftmost body step)
    (hother : optimizer.Leftmost body other) : step = other := by
  have hfound := search_eq_found_iff.mpr hstep
  rw [search_eq_found_iff.mpr hother] at hfound
  obtain ⟨position, rule, rewritten⟩ := step
  cases hfound
  rfl

theorem Leftmost.synced (hstep : optimizer.Leftmost body step) (hsynced : body.Synced) :
    step.body.Synced :=
  (Rule.rewrites_of_applyAt hsynced hstep.rewritten).1

/-! ## Sequences of rewrites -/

/-- A sequence of rewrites from one body to another, each the leftmost in the body that
the one before has left. -/
inductive Trail (optimizer : Optimizer) : Body → List Step → Body → Prop
  | nil (body : Body) : Trail optimizer body [] body
  | cons {body last : Body} {step : Step} {steps : List Step}
      (hstep : optimizer.Leftmost body step) (hrest : Trail optimizer step.body steps last) :
      Trail optimizer body (step :: steps) last

namespace Trail

theorem synced (htrail : optimizer.Trail body steps last) (hsynced : body.Synced) :
    last.Synced := by
  induction htrail with
  | nil body => exact hsynced
  | cons hstep hrest ih => exact ih (hstep.synced hsynced)

theorem split {left right : List Step} (htrail : optimizer.Trail body (left ++ right) last) :
    ∃ middle, optimizer.Trail body left middle ∧ optimizer.Trail middle right last := by
  induction left generalizing body with
  | nil => exact ⟨body, .nil body, htrail⟩
  | cons step left ih =>
      cases htrail with
      | cons hstep hrest =>
          obtain ⟨middle, hleft, hright⟩ := ih hrest
          exact ⟨middle, .cons hstep hleft, hright⟩

/-- There is one sequence of rewrites that leads from a body to one at rest. -/
theorem unique {steps' : List Step} {last' : Body} (htrail : optimizer.Trail body steps last)
    (hsettled : optimizer.search last = .settled) (htrail' : optimizer.Trail body steps' last')
    (hsettled' : optimizer.search last' = .settled) : steps = steps' ∧ last = last' := by
  induction htrail generalizing steps' with
  | nil body =>
      cases htrail' with
      | nil => exact ⟨rfl, rfl⟩
      | cons hstep' hrest' =>
          rw [search_eq_found_iff.mpr hstep'] at hsettled
          cases hsettled
  | cons hstep hrest ih =>
      cases htrail' with
      | nil =>
          rw [search_eq_found_iff.mpr hstep] at hsettled'
          cases hsettled'
      | cons hstep' hrest' =>
          cases hstep.unique hstep'
          obtain ⟨rfl, rfl⟩ := ih hsettled hrest'
          exact ⟨rfl, rfl⟩

end Trail

/-! ## Runs -/

/-- A run on a body that is at rest makes no rewrite. -/
theorem runWithin_of_settled (hsettled : optimizer.search body = .settled) (limit budget : Nat) :
    optimizer.runWithin limit budget body = ⟨[], body, none⟩ := by
  rw [runWithin.eq_def]
  simp only [hsettled]

/-- The rewrite that goes beyond the budget is made. -/
theorem runWithin_zero_of_leftmost (hsynced : body.Synced)
    (hstep : optimizer.Leftmost body step) (limit : Nat) :
    optimizer.runWithin limit 0 body =
      ⟨[step], step.body, some (.rewriteLimitExceeded limit)⟩ := by
  rw [runWithin]
  simp only [search_eq_found_iff.mpr hstep, optimizer.inspect_eq_ok (hstep.synced hsynced)]

/-- A run makes the leftmost rewrite and goes on from there. -/
theorem runWithin_succ_of_leftmost (hsynced : body.Synced)
    (hstep : optimizer.Leftmost body step) (limit budget : Nat) :
    optimizer.runWithin limit (budget + 1) body =
      ⟨step :: (optimizer.runWithin limit budget step.body).steps,
        (optimizer.runWithin limit budget step.body).body,
        (optimizer.runWithin limit budget step.body).fault?⟩ := by
  rw [runWithin]
  simp only [search_eq_found_iff.mpr hstep, optimizer.inspect_eq_ok (hstep.synced hsynced)]

/-- A body in step is at rest, or there is a leftmost rewrite in it. -/
theorem settled_or_leftmost (optimizer : Optimizer) (hsynced : body.Synced) :
    optimizer.search body = .settled ∨ ∃ step, optimizer.Leftmost body step := by
  rcases optimizer.search_cases hsynced with hsettled | ⟨position, rule, rewritten, hfound, -⟩
  · exact .inl hsettled
  · exact .inr ⟨⟨position, rule, rewritten⟩, search_eq_found_iff.mp hfound⟩

theorem trail_runWithin (optimizer : Optimizer) (limit budget : Nat) (hsynced : body.Synced) :
    optimizer.Trail body (optimizer.runWithin limit budget body).steps
      (optimizer.runWithin limit budget body).body := by
  induction budget generalizing body with
  | zero =>
      rcases optimizer.settled_or_leftmost hsynced with hsettled | ⟨step, hstep⟩
      · rw [runWithin_of_settled hsettled]
        exact .nil body
      · rw [runWithin_zero_of_leftmost hsynced hstep]
        exact .cons hstep (.nil step.body)
  | succ budget ih =>
      rcases optimizer.settled_or_leftmost hsynced with hsettled | ⟨step, hstep⟩
      · rw [runWithin_of_settled hsettled]
        exact .nil body
      · rw [runWithin_succ_of_leftmost hsynced hstep]
        exact .cons hstep (ih (hstep.synced hsynced))

theorem runWithin_of_trail (hsynced : body.Synced) (htrail : optimizer.Trail body steps last)
    (hsettled : optimizer.search last = .settled) {budget : Nat}
    (hlength : steps.length ≤ budget) (limit : Nat) :
    optimizer.runWithin limit budget body = ⟨steps, last, none⟩ := by
  induction htrail generalizing budget with
  | nil body => exact runWithin_of_settled hsettled limit budget
  | cons hstep hrest ih =>
      cases budget with
      | zero => exact absurd hlength (Nat.not_succ_le_zero _)
      | succ budget =>
          rw [runWithin_succ_of_leftmost hsynced hstep,
            ih (hstep.synced hsynced) hsettled (Nat.le_of_succ_le_succ hlength)]

theorem runWithin_of_trail_beyond (hsynced : body.Synced)
    (htrail : optimizer.Trail body steps last) {budget : Nat}
    (hlength : steps.length = budget + 1) (limit : Nat) :
    optimizer.runWithin limit budget body =
      ⟨steps, last, some (.rewriteLimitExceeded limit)⟩ := by
  induction htrail generalizing budget with
  | nil body => cases hlength
  | cons hstep hrest ih =>
      cases budget with
      | zero =>
          cases hrest with
          | nil => exact runWithin_zero_of_leftmost hsynced hstep limit
          | cons _ _ => cases hlength
      | succ budget =>
          rw [runWithin_succ_of_leftmost hsynced hstep,
            ih (hstep.synced hsynced) (Nat.succ.inj hlength)]

end Optimizer

/-- The body as it stands after the first rewrites of a run that started from another. -/
def Run.bodyAfter (run : Run) (start : Body) (count : Nat) : Body :=
  (run.steps.take count).foldl (fun _ step => step.body) start

namespace Optimizer.Trail

variable {optimizer : Optimizer} {body last : Body} {step : Step} {steps : List Step}

theorem foldl_body (htrail : optimizer.Trail body steps last) :
    steps.foldl (fun _ step => step.body) body = last := by
  induction htrail with
  | nil body => rfl
  | cons hstep hrest ih => exact ih

end Optimizer.Trail

/-! ## Reports -/

namespace Report

variable {report : Report} {rule : Rule} {count : Nat}

/-- The list of hits has the rules that made rewrites, each with their number. -/
theorem mem_hitList_iff :
    (rule, count) ∈ report.hitList ↔ report.hits rule = count ∧ count ≠ 0 := by
  simp [hitList, List.mem_mergeSort, Rule.mem_all]

theorem nodup_hitList (report : Report) : (report.hitList.map Prod.fst).Nodup := by
  have hall : (Rule.all.mergeSort fun left right => left.name ≤ right.name).Nodup :=
    (List.mergeSort_perm Rule.all _).nodup_iff.mpr (by decide)
  refine hall.sublist ?_
  rw [hitList, List.filter_map, List.map_map]
  simp [Function.comp_def]

end Report

namespace Run

theorem hits_report (run : Run) (before : Nat) (rule : Rule) :
    (run.report before).hits rule = (run.steps.map Step.rule).count rule := by
  rw [List.count, List.countP_map]
  rfl

end Run

namespace Optimizer

variable {body : Body}

theorem trail_run (optimizer : Optimizer) (hsynced : body.Synced) :
    optimizer.Trail body (optimizer.run body).steps (optimizer.run body).body :=
  optimizer.trail_runWithin _ _ hsynced

end Optimizer

/-- A product whose factor turns out to be zero. -/
def vanishingFactor : List Instruction :=
  [.load .int 1, .const 3, .const 3, .binary .sub, .binary .mul, .nop]

end Peephole
