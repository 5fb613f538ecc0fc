import Peephole.Arena.Optimizer
import Peephole.Proofs.Arena.Rules
import Peephole.Proofs.Strategy

/-!
# Scans in place

An optimizer tries its rules in place, one after the other and from node to node.  A rule
that declines leaves the arena as it was, if its links are in order; so every rule is tried
on the arena that the scan started with.  For this reason a scan in place ends with the
same position and rule as a search that tries every rule on a copy of its own, and the
rewrite it makes is the leftmost one, by the first of the rules that make one there.
-/

namespace Peephole

/-- A rule is tried in place without success, and without a trace. -/
def Rule.Declines (overflow : Overflow) (arena : Arena) (position : Nat) (rule : Rule) : Prop :=
  (rule.apply overflow position).on arena = some (.ok false, arena)

namespace InPlace

variable {overflow : Overflow} {arena next : Arena} {position reach : Nat} {rule : Rule}
variable {rules : List Rule} {cursor : Option Nat} {lines : List Line}

/-- A rewrite of an arena before which there is no other: no rule applies at an earlier
line, and no earlier rule at the same line. -/
structure Leftmost (overflow : Overflow) (rules : List Rule) (arena : Arena) (position : Nat)
    (rule : Rule) (next : Arena) : Prop where
  firstLine : ∃ lines, arena.lines? = some lines ∧
    FirstAmong (fun place => ∀ rule ∈ rules, rule.Declines overflow arena place)
      position (lines.map Line.position)
  firstRule : FirstAmong (fun other => other.Declines overflow arena position) rule rules
  rewrites : (rule.apply overflow position).on arena = some (.ok true, next)

/-! ## One node -/

section

variable (hintact : arena.Intact)

include hintact

/-- Each rule is tried on the arena as it is. -/
theorem on_tryRules_cons (rule : Rule) (rest : List Rule) :
    (tryRules overflow position (rule :: rest)).on arena =
      match (rule.apply overflow position).on arena with
      | none => none
      | some (.error fault, left) => some (.error fault, left)
      | some (.ok true, left) => some (.ok (some rule), left)
      | some (.ok false, _) => (tryRules overflow position rest).on arena := by
  rw [tryRules, Process.on_bind]
  match happly : (rule.apply overflow position).on arena with
  | none => rfl
  | some (.error fault, left) => rfl
  | some (.ok true, left) => rfl
  | some (.ok false, left) =>
    rw [Rule.eq_of_apply_declined hintact happly]
    rfl

theorem run_tryCopies (rules : List Rule) :
    (tryCopies overflow arena position rules).run =
      ((tryRules overflow position rules).on arena).map Prod.fst := by
  induction rules with
  | nil => rfl
  | cons rule rest ih =>
      rw [on_tryRules_cons hintact, tryCopies, ExceptT.run_bind, ExceptT.run_mk]
      match (rule.apply overflow position).on arena with
      | none => rfl
      | some (.error fault, left) => rfl
      | some (.ok true, left) => rfl
      | some (.ok false, left) => exact ih

theorem declines_of_tryRules
    (htry : (tryRules overflow position rules).on arena = some (.ok none, next)) :
    next = arena ∧ ∀ rule ∈ rules, rule.Declines overflow arena position := by
  induction rules with
  | nil =>
      cases htry
      exact ⟨rfl, by simp⟩
  | cons rule rest ih =>
      rw [on_tryRules_cons hintact] at htry
      match happly : (rule.apply overflow position).on arena with
      | none => simp [happly] at htry
      | some (.error fault, left) => simp [happly] at htry
      | some (.ok true, left) => simp [happly] at htry
      | some (.ok false, left) =>
        rw [happly] at htry
        obtain ⟨hnext, hrest⟩ := ih htry
        obtain rfl := Rule.eq_of_apply_declined hintact happly
        exact ⟨hnext, List.forall_mem_cons.mpr ⟨happly, hrest⟩⟩

theorem on_scan_cons (position : Nat) :
    (scan overflow rules (reach + 1) (some position)).on arena =
      match (tryRules overflow position rules).on arena with
      | none => none
      | some (.error fault, left) => some (.error fault, left)
      | some (.ok (some rule), left) => some (.ok (some (position, rule)), left)
      | some (.ok none, _) => (scan overflow rules reach (arena.next? position)).on arena := by
  rw [scan, Process.on_bind]
  match htry : (tryRules overflow position rules).on arena with
  | none => rfl
  | some (.error fault, left) => rfl
  | some (.ok (some rule), left) => rfl
  | some (.ok none, left) =>
    rw [(declines_of_tryRules hintact htry).1]
    rfl

/-- A search on copies ends as a scan in place does. -/
theorem run_findFrom (hfollows : arena.Follows cursor lines) (reach : Nat) :
    (findFrom overflow rules arena reach cursor).run =
      ((scan overflow rules reach cursor).on arena).map Prod.fst := by
  induction hfollows generalizing reach with
  | nil => cases reach <;> rfl
  | @cons position node rest hnode hrest ih =>
      cases reach with
      | zero => rfl
      | succ reach =>
          have hplace : arena.nodes[position]? = some node :=
            (Option.filter_eq_some_iff.mp hnode).1
          have hlift : (ExceptT.lift (some node) : ExceptT Fault Option Node) = pure node := rfl
          rw [on_scan_cons hintact, findFrom, hplace, Arena.next?_of_node hnode, hlift, pure_bind,
            ExceptT.run_bind, run_tryCopies hintact]
          match (tryRules overflow position rules).on arena with
          | none => rfl
          | some (.error fault, left) => rfl
          | some (.ok (some rule), left) => rfl
          | some (.ok none, left) => exact ih reach

theorem declines_of_scan (hfollows : arena.Follows cursor lines)
    (hscan : (scan overflow rules reach cursor).on arena = some (.ok none, next)) :
    next = arena ∧ ∀ line ∈ lines, ∀ rule ∈ rules, rule.Declines overflow arena line.position := by
  induction hfollows generalizing reach with
  | nil =>
      cases reach <;> cases hscan <;> exact ⟨rfl, by simp⟩
  | @cons position node rest hnode hrest ih =>
      cases reach with
      | zero => cases hscan
      | succ reach =>
          rw [on_scan_cons hintact, Arena.next?_of_node hnode] at hscan
          match htry : (tryRules overflow position rules).on arena with
          | none => simp [htry] at hscan
          | some (.error fault, left) => simp [htry] at hscan
          | some (.ok (some rule), left) => simp [htry] at hscan
          | some (.ok none, left) =>
            rw [htry] at hscan
            obtain ⟨hnext, hlater⟩ := ih hscan
            have hhere := (declines_of_tryRules hintact htry).2
            exact ⟨hnext, List.forall_mem_cons.mpr ⟨hhere, hlater⟩⟩

omit hintact in
theorem on_pass (overflow : Overflow) (rules : List Rule) (arena : Arena) :
    (pass overflow rules).on arena = (scan overflow rules arena.reach arena.first?).on arena := by
  rw [pass, Process.on_bind]
  rfl

/-- Trying every rule on a copy of its own finds what a pass in place rewrites. -/
theorem findMatch_eq (optimizer : Optimizer) :
    findMatch overflow optimizer arena =
      ((pass overflow optimizer.rules).on arena).map Prod.fst := by
  obtain ⟨body, hrepresents⟩ := hintact.exists_body
  rw [findMatch, run_findFrom hintact hrepresents.follows, on_pass]

/-- A pass that makes no rewrite leaves the arena as it was, and no rule applies anywhere, at
a line or at a stale position. -/
theorem declines_of_pass (hpass : (pass overflow rules).on arena = some (.ok none, next)) :
    next = arena ∧ ∀ rule ∈ rules, ∀ position, rule.Declines overflow arena position := by
  obtain ⟨body, hrepresents⟩ := hintact.exists_body
  rw [on_pass] at hpass
  obtain ⟨hnext, hlines⟩ := declines_of_scan hintact hrepresents.follows hpass
  refine ⟨hnext, fun rule hrule position => ?_⟩
  cases hahead : body.ahead position with
  | nil => exact rule.apply_of_stale hintact (hrepresents.holds.node?_of_stale hahead)
  | cons line rest =>
      have hline : line ∈ body.lines := by
        rw [Body.lines_of_ahead hahead]
        exact List.mem_append_right _ List.mem_cons_self
      have hdeclines := hlines line hline rule hrule
      rwa [Line.position_of_ahead_eq_cons hahead] at hdeclines

end

open Process

theorem keeps_tryRules (overflow : Overflow) (position : Nat) (rules : List Rule) :
    Keeps Arena.Intact (tryRules overflow position rules) := by
  induction rules with
  | nil => exact keeps_pure none
  | cons rule rest ih =>
      apply (rule.keeps_apply overflow position).bind
      intro rewritten
      split
      · exact keeps_pure (some rule)
      · exact ih

theorem keeps_scan (overflow : Overflow) (rules : List Rule) (reach : Nat) (cursor : Option Nat) :
    Keeps Arena.Intact (scan overflow rules reach cursor) := by
  induction reach generalizing cursor with
  | zero =>
      cases cursor with
      | none => exact keeps_pure none
      | some position =>
          intro arena hintact result left hleft
          cases hleft
  | succ reach ih =>
      cases cursor with
      | none => exact keeps_pure none
      | some position =>
          apply (keeps_tryRules overflow position rules).bind
          intro found
          cases found with
          | some rule => exact keeps_pure (some (position, rule))
          | none => exact keeps_get.bind fun arena => ih (arena.next? position)

theorem keeps_pass (overflow : Overflow) (rules : List Rule) :
    Keeps Arena.Intact (pass overflow rules) :=
  keeps_get.bind fun arena => keeps_scan overflow rules arena.reach arena.first?

end InPlace

/-! ## Searches -/

namespace Search

variable {arena : Arena} {body : Body} {rules : List Rule}

/-- What a pass in place gives, and what a search in the body came to. -/
inductive Refines (arena : Arena) : Option (Except Fault (Option (Nat × Rule)) × Arena) →
    Search → Prop
  | settled : Refines arena (some (.ok none, arena)) .settled
  | found (position : Nat) (rule : Rule) {changed : Arena} {rewritten : Body}
      (hrepresents : changed.Represents rewritten) :
      Refines arena (some (.ok (some (position, rule)), changed)) (.found position rule rewritten)
  | failed (fault : Fault) {left : Arena} {body : Body} (hrepresents : left.Represents body) :
      Refines arena (some (.error fault, left)) (.failed fault body)

variable (overflow : Overflow) (hrepresents : arena.Represents body) (hroom : body.labels.Room 1)

include hrepresents hroom

theorem refines_tryRules (position : Nat) (rules : List Rule) :
    Refines arena
      (((InPlace.tryRules overflow position rules).on arena).map fun (result, left) =>
        (result.map (Option.map (position, ·)), left))
      (tryRules body position (body.ahead position) rules) := by
  induction rules with
  | nil => exact .settled
  | cons rule rest ih =>
      have happly := rule.refines_apply overflow hrepresents hroom position
      rw [Rule.applyAt] at happly
      rw [InPlace.on_tryRules_cons hrepresents.intact, tryRules]
      generalize (rule.apply overflow position).on arena = inArena at happly ⊢
      generalize rule.attempt body (body.ahead position) = inBody at happly ⊢
      cases happly with
      | declined => exact ih
      | rewritten hchanged => exact .found position rule hchanged
      | failed fault hleft => exact .failed fault hleft

theorem refines_scan {cursor : Option Nat} {before lines : List Line} {reach : Nat}
    (hfollows : arena.Follows cursor lines) (hlines : body.lines = before ++ lines)
    (hreach : lines.length ≤ reach) :
    Refines arena ((InPlace.scan overflow rules reach cursor).on arena)
      (scan rules body lines) := by
  induction hfollows generalizing reach before with
  | nil =>
      cases reach <;> exact .settled
  | @cons position node rest hnode hrest ih =>
      cases reach with
      | zero => cases hreach
      | succ reach =>
          have hahead : body.ahead position = ⟨position, node.instruction⟩ :: rest :=
            Body.ahead_eq_of_split hlines
          have htry := refines_tryRules overflow hrepresents hroom position rules
          have hlater := ih (hlines.trans (List.append_cons ..)) (Nat.le_of_succ_le_succ hreach)
          rw [hahead] at htry
          rw [InPlace.on_scan_cons hrepresents.intact, Arena.next?_of_node hnode, scan]
          generalize (InPlace.tryRules overflow position rules).on arena = tried at htry ⊢
          generalize tryRules body position _ rules = inBody at htry ⊢
          rcases tried with _ | ⟨fault | _ | rule, left⟩
          · cases htry
          · cases htry with
            | failed fault hleft => exact .failed fault hleft
          · cases htry
            exact hlater
          · cases htry with
            | found position rule hchanged => exact .found position rule hchanged

theorem refines_pass (rules : List Rule) :
    Refines arena ((InPlace.pass overflow rules).on arena) (scan rules body body.lines) := by
  rw [InPlace.on_pass]
  exact refines_scan overflow hrepresents hroom hrepresents.follows (List.nil_append _).symm
    hrepresents.length_le_reach

end Search

end Peephole
