import ContextAdvisor.Dictionary.Lemmas
import ContextAdvisor.Learning.LinUcb
import ContextAdvisor.Proofs.Learning.Matrix
import ContextAdvisor.Proofs.Safeguard.StepLimit

/-!
# Estimates in exact arithmetic

The estimate of an arm that has not been tried is zero. After one positive reward its estimate for
the same features is positive, unless all features are zero; so a learner without a width prefers
the rewarded action from then on.
-/
namespace ContextAdvisor

open scoped BigOperators

variable {K : Type} [Field K] [LinearOrder K] [IsStrictOrderedRing K] {d : Nat}

namespace LinearArm

/-- The coefficients of an arm without rewards are zero. -/
theorem dot_theta_fresh (x : Vector K d) : dot (fresh : LinearArm K d).theta x = 0 := by
  rw [dot_eq_sum]
  refine Finset.sum_eq_zero fun i _ => ?_
  simp [theta, fresh, Square.get_identity_mulVec]

/-- The coefficients of an arm whose design matrix is inverted by its diagonal. -/
theorem get_theta_ofParts_diagonal (a : Square K d) (b : Vector K d) (pulls : Nat) (i : Fin d) :
    (ofParts .diagonal a b pulls).theta.get i =
      b.get i / Max.max (a.entry i i) Square.negligiblePivot :=
  Square.get_diagonalInverse_mulVec a b i

/-- A first reward moves each coefficient from zero in the direction of its feature. -/
theorem exists_get_theta_update_fresh (limit : StepLimit K) (fade : K) (x : Vector K d)
    (reward : K) (i : Fin d) :
    ∃ m, 0 < m ∧ (fresh.update limit fade .diagonal x reward).2.theta.get i =
      (limit.apply 0 (reward * x.get i)).1 / m := by
  have hb : (((fresh.updatedRewards limit fade x reward).map (·.1)).get i : K) =
      (limit.apply 0 (reward * x.get i)).1 := by
    simp [updatedRewards, fresh]
  let design : Square K d := (fresh.updatedDesign limit fade x).map (·.map (·.1))
  refine ⟨Max.max (design.entry i i) Square.negligiblePivot,
    lt_max_of_lt_right Square.negligiblePivot_pos, ?_⟩
  rw [update, get_theta_ofParts_diagonal, hb]

/-- A first positive reward makes the estimate for its features positive. -/
theorem dot_theta_update_fresh_pos {limit : StepLimit K} (hr : 0 < limit.rate) (fade : K)
    {x : Vector K d} {reward : K} (hreward : 0 < reward) (hx : ∃ i, x.get i ≠ 0) :
    0 < dot (fresh.update limit fade .diagonal x reward).2.theta x := by
  have hterm : ∀ i, x.get i ≠ 0 →
      0 < (fresh.update limit fade .diagonal x reward).2.theta.get i * x.get i := by
    intro i hi
    obtain ⟨m, hm, ht⟩ := exists_get_theta_update_fresh limit fade x reward i
    have hmove := StepLimit.apply_zero_mul_pos hr (mul_ne_zero hreward.ne' hi)
    rw [mul_left_comm] at hmove
    rw [ht, div_mul_eq_mul_div]
    exact div_pos (pos_of_mul_pos_right hmove hreward.le) hm
  rw [dot_eq_sum]
  obtain ⟨i, hi⟩ := hx
  refine Finset.sum_pos' (fun j _ => ?_) ⟨i, Finset.mem_univ i, hterm i hi⟩
  by_cases hj : x.get j = 0
  · simp [hj]
  · exact (hterm j hj).le

end LinearArm

namespace LinUcb

/-- Without a width an action with a first positive reward is preferred to one without any, in
either order. -/
theorem select_of_first_reward {limit : StepLimit ℝ} (hr : 0 < limit.rate) (gamma : ℝ)
    {x : Vector ℝ d} {reward : ℝ} (hreward : 0 < reward) (hx : ∃ i, x.get i ≠ 0)
    {other id : String} (hne : other ≠ id) {candidates : List String}
    (hc : candidates = [other, id] ∨ candidates = [id, other]) :
    ((((ofParameters 0 gamma .diagonal).update limit id x reward).2.select candidates x).map
      (·.actionId)) = some id := by
  let learner : LinUcb ℝ d := ((ofParameters 0 gamma .diagonal).update limit id x reward).2
  have halpha : learner.alpha = 0 := by
    show Max.max (0 : ℝ) 0.0 = 0
    simp
  have hother : learner.score other x = 0 := by
    have ha : learner.arm other = .fresh := by
      simp [learner, arm, update, ofParameters, hne]
    rw [score, LinearArm.score, ha, halpha, LinearArm.dot_theta_fresh, zero_mul, add_zero]
  have hid : 0 < learner.score id x := by
    have ha : learner.arm id =
        ((LinearArm.fresh : LinearArm ℝ d).update limit learner.gamma .diagonal x reward).2 := by
      simp [learner, arm, update, ofParameters]
    rw [score, LinearArm.score, ha, halpha, zero_mul, add_zero]
    exact LinearArm.dot_theta_update_fresh_pos hr _ hreward hx
  show (learner.select candidates x).map (·.actionId) = some id
  rcases hc with rfl | rfl
  · simp [select, better, List.zipIdx, hother, hid]
  · simp [select, better, List.zipIdx, hother, hid.not_gt]

end LinUcb
end ContextAdvisor
