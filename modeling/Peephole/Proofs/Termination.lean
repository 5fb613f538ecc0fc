import Peephole.Proofs.Bookkeeping.Admitted
import Peephole.Proofs.Rewriting.Weight

/-!
# Rewriting comes to an end

Whatever rules are applied, in whatever order and wherever, a body that is in
step with its table can only be rewritten finitely often.
-/

namespace Peephole

theorem Rule.rewrites_of_applyAt {rule : Rule} {body rewritten : Body} {position : Nat}
    (hsynced : body.Synced) (happly : rule.applyAt body position = .rewritten rewritten) :
    rewritten.Synced ∧ Rewrites body.instructions rewritten.instructions :=
  rewrites_of_attempt hsynced (Line.before_append_ahead body.lines position).symm happly

namespace Body

/-- A sequence of bodies, each rewritten by some rule into the next. -/
def Endless (bodies : Nat → Body) : Prop :=
  ∀ index, ∃ (rule : Rule) (position : Nat),
    rule.applyAt (bodies index) position = .rewritten (bodies (index + 1))

theorem Endless.synced {bodies : Nat → Body} (hendless : Endless bodies)
    (hsynced : (bodies 0).Synced) (index : Nat) : (bodies index).Synced := by
  induction index with
  | zero => exact hsynced
  | succ index ih =>
      obtain ⟨rule, position, happly⟩ := hendless index
      exact (Rule.rewrites_of_applyAt ih happly).1

theorem not_endless {bodies : Nat → Body} (hsynced : (bodies 0).Synced) : ¬Endless bodies := by
  intro hendless
  have hlighter : ∀ index, Code.Lighter (Code.weight (bodies (index + 1)).instructions)
      (Code.weight (bodies index).instructions) := by
    intro index
    obtain ⟨rule, position, happly⟩ := hendless index
    exact (Rule.rewrites_of_applyAt (hendless.synced hsynced index) happly).2.lighter
  -- A weight from which the sequence goes on would have a lighter one after it.
  have hnever : ∀ weight, ∀ index, Code.weight (bodies index).instructions ≠ weight := by
    intro weight
    induction weight using Code.wellFounded_lighter.induction with
    | _ weight ih =>
        rintro index rfl
        exact ih _ (hlighter index) (index + 1) rfl
  exact hnever _ 0 rfl

end Body

/-- Every application of a rule lowers the weight of a body in step, and does not
make the body longer.  No sequence of applications goes on forever. -/
theorem applications_terminate {body : Body} (haudit : body.audit = .ok ()) :
    (∀ (rule : Rule) (position : Nat) (rewritten : Body),
      rule.applyAt body position = .rewritten rewritten →
        Code.Lighter (Code.weight rewritten.instructions) (Code.weight body.instructions) ∧
          rewritten.length ≤ body.length) ∧
      ¬∃ bodies : Nat → Body, bodies 0 = body ∧ Body.Endless bodies := by
  have hsynced := Body.audit_eq_ok_iff.mp haudit
  constructor
  · intro rule position rewritten happly
    obtain ⟨-, hrewrites⟩ := Rule.rewrites_of_applyAt hsynced happly
    refine ⟨hrewrites.lighter, ?_⟩
    simpa [Body.instructions, Body.length, Line.instructions] using hrewrites.length_le
  · rintro ⟨bodies, rfl, hendless⟩
    exact Body.not_endless hsynced hendless

/-- A jump past a test that puts in a label. -/
theorem applications_terminate_at_split :
    ∃ body rewritten,
      Body.assemble [] [.const 0, .goto 1, .label 1, .branch (.test .nonZero) 2, .nop, .label 2] =
        .ok body ∧
      body.audit = .ok () ∧
      Rule.simplifyConstantBranchThroughGoto.applyAt body 0 = .rewritten rewritten ∧
      rewritten.instructions =
        [.goto 3, .label 1, .branch (.test .nonZero) 2, .label 3, .nop, .label 2] ∧
      Code.Lighter (Code.weight rewritten.instructions) (Code.weight body.instructions) ∧
      rewritten.length ≤ body.length := by
  refine ⟨_, _, rfl, by rfl, by rfl, by rfl, ?_⟩
  exact (applications_terminate (by rfl)).1 .simplifyConstantBranchThroughGoto 0 _ (by rfl)

end Peephole
