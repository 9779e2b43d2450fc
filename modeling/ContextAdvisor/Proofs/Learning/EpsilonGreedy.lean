import ContextAdvisor.Dictionary.Lemmas
import ContextAdvisor.Learning.EpsilonGreedy
import ContextAdvisor.Proofs.Arithmetic.Exact

/-!
# Averages in exact arithmetic

The average of equal rewards is that reward, and no limit on the steps of an average stands in its
way. A learner that explores nothing selects the action with the better average.
-/
namespace ContextAdvisor

variable {K : Type} [Field K] [LinearOrder K] [IsStrictOrderedRing K]

namespace AverageArm

/-- The arm after a number of equal rewards. -/
def ofEqual (reward : K) (pulls : Nat) : AverageArm K := ⟨pulls, reward * pulls⟩

theorem ofEqual_zero (reward : K) : ofEqual reward 0 = fresh := by
  simp [ofEqual, fresh]

theorem average_ofEqual (reward : K) {pulls : Nat} (h : pulls ≠ 0) :
    (ofEqual reward pulls).average = reward := by
  have hp : (pulls : K) ≠ 0 := Nat.cast_ne_zero.mpr h
  rw [average, ofEqual, if_neg h, Scalar.exact_ofNat, mul_div_cancel_right₀ reward hp]

/-- One more equal reward does not move the average. -/
theorem update_ofEqual {limit : StepLimit K} (hl : 0 ≤ limit.rate) (reward : K) (pulls : Nat) :
    (ofEqual reward pulls).update limit reward = (ofEqual reward (pulls + 1), false) := by
  by_cases h : pulls = 0
  · subst h
    simp [update, ofEqual]
  · have hp : ((pulls + 1 : Nat) : K) ≠ 0 := Nat.cast_ne_zero.mpr pulls.succ_ne_zero
    have hraw : (reward * pulls + reward) / ((pulls + 1 : Nat) : K) = reward := by
      rw [div_eq_iff hp, Nat.cast_succ]
      ring
    have happly : limit.apply reward reward = (reward, false) := by
      simp [StepLimit.apply, StepLimit.maxStep, hl]
    have hold : (⟨pulls, reward * pulls⟩ : AverageArm K).average = reward :=
      average_ofEqual reward h
    simp only [update, ofEqual, if_neg h, Scalar.exact_ofNat, hraw, hold, happly]

end AverageArm

namespace EpsilonGreedy

theorem arm_insert {α : Type} [Scalar α] (learner : EpsilonGreedy α) (id other : String)
    (held : AverageArm α) : arm { learner with arms := learner.arms.insert id held } other =
      if other = id then held else learner.arm other := by
  by_cases h : other = id <;> simp [arm, h]

/-- Of two actions the one with the better average is selected, if nothing is explored. -/
theorem select_pair {learner : EpsilonGreedy K} (he : learner.epsilon ≤ 0) {first second : String}
    (h : (learner.arm first).average < (learner.arm second).average) :
    learner.select [first, second] =
      (some ⟨1, second, (learner.arm second).average, (learner.arm second).confidence, false⟩,
        learner) := by
  have hplace : bestPlace [(learner.arm first).average, (learner.arm second).average] = 1 := by
    simp [bestPlace, isBetter, Scalar.isNegativeInfinity, List.zipIdx, h]
  simp [select, pick, he.not_gt, hplace]

end EpsilonGreedy

end ContextAdvisor
