import ContextAdvisor.Proofs.Learning.Design
import ContextAdvisor.Proofs.Learning.Inversion

/-!
# What every update of an arm keeps

An update proposes a symmetric matrix and treats both entries of a pair alike, so the design matrix
stays symmetric. Its diagonal never falls below the ridge. For that reason the floor cannot lift an
entry beyond its old value, and each parameter moves by no more than the step limit allows, whether
the floor applies or not.
-/
namespace ContextAdvisor

variable {K : Type} [Field K] [LinearOrder K] [IsStrictOrderedRing K] {d : Nat}

omit [IsStrictOrderedRing K] in
/-- The largest step at a rate, in terms of the rate alone. -/
theorem StepLimit.maxStep_ofRate (rate old : K) :
    (ofRate rate).maxStep old = max (|old| * |rate|) |rate| := by
  rw [maxStep, ofRate, Scalar.exact_max, Scalar.exact_abs, Scalar.exact_abs]

/-- The identity is inverted by itself. -/
theorem Square.inverseBy_identity (mode : Inversion) :
    (identity : Square K d).inverseBy mode = identity := by
  cases mode with
  | diagonal => exact diagonalInverse_identity
  | full => rw [inverseBy, inverse?_identity, Option.getD_some]

namespace LinearArm

/-- An arm with a symmetric design matrix whose diagonal respects the ridge, and with the inverse
that a mode computes from it. -/
structure Regular (mode : Inversion) (arm : LinearArm K d) : Prop where
  symmetric : ∀ i j, arm.a.entry i j = arm.a.entry j i
  ridge_le : ∀ i, ridge ≤ arm.a.entry i i
  inverse_eq : arm.inverse = arm.a.inverseBy mode

/-- Does no parameter of an arm move further than `share` of its size, or than `share` itself? -/
structure MovesWithin (share : K) (arm next : LinearArm K d) : Prop where
  design : ∀ i j, |next.a.entry i j - arm.a.entry i j| ≤ max (|arm.a.entry i j| * share) share
  rewards : ∀ i, |next.b.get i - arm.b.get i| ≤ max (|arm.b.get i| * share) share

variable {mode : Inversion} {arm : LinearArm K d}

theorem regular_fresh (mode : Inversion) : (fresh : LinearArm K d).Regular mode where
  symmetric i j := by simp [fresh, Square.identity, eq_comm]
  ridge_le i := by simp [fresh, Square.identity, ridge]
  inverse_eq := (Square.inverseBy_identity mode).symm

omit [IsStrictOrderedRing K] in
/-- An entry of the design matrix after an update. -/
theorem entry_update_eq (limit : StepLimit K) (fade : K) (mode : Inversion) (arm : LinearArm K d)
    (x : Vector K d) (reward : K) (i j : Fin d) :
    (arm.update limit fade mode x reward).2.a.entry i j =
      let moved := (limit.apply (arm.a.entry i j)
        (fade * arm.a.entry i j + x.get i * x.get j)).1
      if i = j then max moved ridge else moved := by
  rw [entry_update]
  simp only [updatedDesign, Square.entry_ofFn, Scalar.exact_max]

omit [IsStrictOrderedRing K] in
/-- An entry of the reward vector after an update. -/
theorem get_update_b (limit : StepLimit K) (fade : K) (mode : Inversion) (arm : LinearArm K d)
    (x : Vector K d) (reward : K) (i : Fin d) :
    (arm.update limit fade mode x reward).2.b.get i =
      (limit.apply (arm.b.get i) (fade * arm.b.get i + reward * x.get i)).1 := by
  simp [update, ofParts, updatedRewards]

omit [IsStrictOrderedRing K] in
/-- An update keeps an arm regular. -/
theorem Regular.update (h : arm.Regular mode) (limit : StepLimit K) (fade : K) (x : Vector K d)
    (reward : K) : (arm.update limit fade mode x reward).2.Regular mode where
  symmetric i j := by
    rw [entry_update_eq, entry_update_eq, h.symmetric i j, mul_comm (x.get i)]
    simp only [eq_comm]
  ridge_le i := by
    rw [entry_update_eq]
    dsimp only
    rw [if_pos rfl]
    exact le_max_right _ _
  inverse_eq := rfl

/-- An update of a regular arm moves no parameter further than allowed. -/
theorem Regular.movesWithin (h : arm.Regular mode) (rate fade : K) (x : Vector K d) (reward : K) :
    arm.MovesWithin |rate| (arm.update (.ofRate rate) fade mode x reward).2 where
  design i j := by
    rw [entry_update_eq, ← StepLimit.maxStep_ofRate]
    dsimp only
    split_ifs with hij
    · subst hij
      exact StepLimit.abs_max_apply_sub_le (abs_nonneg rate) (h.ridge_le i) _
    · exact StepLimit.abs_apply_sub_le (abs_nonneg rate) _ _
  rewards i := by
    rw [get_update_b, ← StepLimit.maxStep_ofRate]
    exact StepLimit.abs_apply_sub_le (abs_nonneg rate) _ _

omit [IsStrictOrderedRing K] in
theorem pulls_after (limit : StepLimit K) (fade : K) (mode : Inversion) (arm : LinearArm K d)
    (experiences : List (Vector K d × K)) :
    (Run.after (learn limit fade mode) arm experiences).pulls = arm.pulls + experiences.length := by
  induction experiences generalizing arm with
  | nil => rfl
  | cons e rest ih =>
    rw [Run.after_cons, ih, List.length_cons]
    show arm.pulls + 1 + rest.length = arm.pulls + (rest.length + 1)
    omega

/-- After any updates of an arm that was not tried before, its design matrix is symmetric with a
diagonal above the ridge, it has counted the updates, and its inverse is up to date; and each update
moved each parameter within the limit. -/
theorem regular_after_updates (rate fade : K) (mode : Inversion)
    (experiences : List (Vector K d × K)) :
    let step := learn (.ofRate rate) fade mode
    let arm := Run.after step fresh experiences
    arm.Regular mode ∧ arm.pulls = experiences.length ∧
      Run.Always step (fun arm e => arm.MovesWithin |rate| (step arm e).2) fresh experiences := by
  intro step arm
  have hkept : ∀ (arm : LinearArm K d) e, arm.Regular mode → (step arm e).2.Regular mode :=
    fun arm e h => h.update _ fade e.1 e.2
  refine ⟨?_, ?_, ?_⟩
  · exact Run.after_of_kept hkept (regular_fresh mode) experiences
  · exact (pulls_after _ fade mode fresh experiences).trans (Nat.zero_add _)
  · exact Run.always_of_kept hkept (fun arm e h => h.movesWithin rate fade e.1 e.2)
      (regular_fresh mode) experiences

/-- The first update lets an entry fade to below the ridge, which lifts it again; the second one is
cut at three entries. -/
theorem regular_after_updates_two :
    let step := learn (.ofRate (1 / 20 : ℚ)) (99 / 100) .full
    let experiences : List (Vector ℚ 2 × ℚ) := [(#v[0, 4], -1), (#v[1, 1 / 2], 3)]
    let arm := Run.after step fresh experiences
    arm.a = #v[#v[21 / 20, 1 / 20], #v[1 / 20, 441 / 400]] ∧ arm.Regular .full ∧ arm.pulls = 2 ∧
      Run.Always step (fun arm e => arm.MovesWithin |1 / 20| (step arm e).2) fresh experiences := by
  intro step experiences arm
  exact ⟨by decide +kernel, regular_after_updates _ _ _ _⟩

end LinearArm

end ContextAdvisor
