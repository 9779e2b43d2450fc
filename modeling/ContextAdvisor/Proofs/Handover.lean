import ContextAdvisor.Handover
import ContextAdvisor.Proofs.Arithmetic.Exact

/-!
# The hand-over between rules and learner

Between a proposal of the rules and one that the learner may have, one is always chosen: the
learner's if it is sure enough and outweighs the rules', else that of the rules. In exact arithmetic
the weights of the two sides always add up to one, also after half of the learner's weight was moved
to the rules. While the learner has no weight it cannot win against the rules, whatever it claims.
-/
namespace ContextAdvisor

section

variable {ι α : Type} [Scalar α]

/-- What was chosen, if the rules proposed something. -/
theorem arbitrate_cases (r : Proposal ι α) (learned : Option (Proposal ι α))
    (weights : Weights α) : ∃ choice, arbitrate (some r) learned weights = some choice ∧
      (choice.weights = weights ∨ choice.weights = ⟨weights.rule + weights.learned / 2.0,
        weights.learned - weights.learned / 2.0⟩) ∧
      ((choice.source ≠ .learned ∧ choice.item = r.item ∧ choice.confidence = r.confidence) ∨
        ∃ l, learned = some l ∧ choice = ⟨l.item, l.confidence, .learned, weights⟩ ∧
          ¬ l.confidence < Handover.lowConfidence ∧
          ¬ l.confidence * weights.learned ≤ r.confidence * weights.rule) := by
  cases learned with
  | none => exact ⟨_, rfl, .inl rfl, .inl ⟨by simp, rfl, rfl⟩⟩
  | some l =>
    simp only [arbitrate]
    split_ifs with hlow hwins
    · exact ⟨_, rfl, .inr rfl, .inl ⟨by simp, rfl, rfl⟩⟩
    · exact ⟨_, rfl, .inl rfl, .inl ⟨by simp, rfl, rfl⟩⟩
    · exact ⟨_, rfl, .inl rfl, .inr ⟨l, rfl, rfl, hlow, hwins⟩⟩

end

variable {K : Type} [Field K] [LinearOrder K] [IsStrictOrderedRing K]

namespace Weights

theorem rule_add_learned_atDays (days : K) :
    (atDays days).rule + (atDays days).learned = 1 := by
  simp only [atDays]
  norm_num

theorem ramp_of_le {elapsed span : K} (hs : 0 < span) (h : span ≤ elapsed) :
    Handover.ramp elapsed span = 1 := by
  have hone : 1 ≤ elapsed / span := (one_le_div hs).mpr h
  have hzero : ¬ elapsed / span < 0 := (zero_le_one.trans hone).not_gt
  rw [Handover.ramp, Scalar.exact_zero, Scalar.exact_one, if_neg hs.not_ge, Scalar.clamp,
    if_neg hzero]
  split_ifs with hbeyond
  · rfl
  · exact le_antisymm (not_lt.mp hbeyond) hone

/-- Once the weights have settled the learner has nine tenths. -/
theorem atDays_of_settled {days : K} (h : Handover.settled ≤ days) : atDays days = ⟨0.1, 0.9⟩ := by
  have h70 : (70 : K) ≤ days := by
    rw [Handover.settled] at h
    norm_num at h
    exact h
  have hstable : Phase.ofDays days = .stable := by
    simp only [Phase.ofDays, Handover.rampUpStart, Handover.transitionStart,
      Handover.stableStart]
    norm_num
    split_ifs <;> first | linarith | rfl
  have hdays : Scalar.max days 0.0 = days := by
    rw [Scalar.exact_max, Scalar.exact_zero]
    exact max_eq_left (le_trans (by norm_num) h70)
  have hramp : Handover.ramp (days - Handover.stableStart)
      (Handover.settled - Handover.stableStart) = 1 := by
    refine ramp_of_le ?_ (sub_le_sub_right h _)
    rw [Handover.settled, Handover.stableStart]
    norm_num
  simp only [atDays, hdays, hstable, hramp]
  norm_num

end Weights

namespace Schedule

theorem days_nonneg (schedule : Schedule) (now : Instant) : 0 ≤ (schedule.days now : K) := by
  rw [days, Scalar.exact_max]
  norm_num

theorem rule_add_learned (schedule : Schedule) (now : Instant) :
    (schedule.weights now : Weights K).rule + (schedule.weights now : Weights K).learned = 1 :=
  Weights.rule_add_learned_atDays _

theorem phase_install (schedule : Schedule) :
    schedule.phase K schedule.install = .bootstrap := by
  have hd : (schedule.days schedule.install : K) = 0 := by
    rw [days, sub_self, Scalar.exact_ofInt, Int.cast_zero, zero_div, Scalar.exact_max,
      Scalar.exact_zero, max_self]
  have h14 : (0 : K) < Handover.rampUpStart := by
    rw [Handover.rampUpStart]
    norm_num
  rw [phase, hd, Phase.ofDays, if_pos h14]

/-- In the first phase all weight is with the rules. -/
theorem weights_of_bootstrap {schedule : Schedule} {now : Instant}
    (h : schedule.phase K now = .bootstrap) : (schedule.weights now : Weights K) = ⟨1, 0⟩ := by
  have hd : Max.max (schedule.days now : K) 0 = schedule.days now :=
    max_eq_left (schedule.days_nonneg now)
  rw [phase] at h
  simp only [weights, Weights.atDays, Scalar.exact_max, Scalar.exact_zero, hd, h,
    Scalar.exact_one, sub_zero]

end Schedule

end ContextAdvisor
