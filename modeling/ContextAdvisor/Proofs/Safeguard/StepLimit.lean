import ContextAdvisor.Proofs.Arithmetic.Exact
import ContextAdvisor.Safeguard.StepLimit

/-!
# The step limit in exact arithmetic

Without rounding a parameter either takes the proposed value or moves towards it by the largest step
that is allowed.
-/
namespace ContextAdvisor.StepLimit

variable {K : Type} [Field K] [LinearOrder K]

theorem apply_of_not_held {limit : StepLimit K} {old proposed : K}
    (h : (limit.apply old proposed).2 = false) : (limit.apply old proposed).1 = proposed := by
  unfold apply at h ⊢
  dsimp only at h ⊢
  split_ifs at h ⊢
  rfl

variable [IsStrictOrderedRing K]

theorem apply_eq (limit : StepLimit K) (old proposed : K) : limit.apply old proposed =
    if |proposed - old| ≤ limit.maxStep old then (proposed, false)
    else if proposed < old then (old - limit.maxStep old, true)
    else (old + limit.maxStep old, true) := by
  simp only [apply, Scalar.exact_isFinite, Bool.not_true, Bool.false_eq_true, if_false,
    Scalar.exact_abs, Scalar.signum, Scalar.exact_isUndefined, Scalar.exact_zero, Scalar.exact_one,
    sub_neg]
  split_ifs
  · rfl
  · rw [neg_one_mul, sub_eq_add_neg]
  · rw [one_mul]

theorem maxStep_zero {limit : StepLimit K} (hr : 0 ≤ limit.rate) :
    limit.maxStep 0 = limit.rate := by
  rw [maxStep, Scalar.exact_max, Scalar.exact_abs, abs_zero, zero_mul, max_eq_right hr]

/-- A parameter moves by at most the largest step. -/
theorem abs_apply_sub_le {limit : StepLimit K} (hr : 0 ≤ limit.rate) (old proposed : K) :
    |(limit.apply old proposed).1 - old| ≤ limit.maxStep old := by
  have hstep : 0 ≤ limit.maxStep old := hr.trans (le_max_right _ _)
  rw [apply_eq]
  split_ifs with hnear
  · exact hnear
  · rw [sub_sub_cancel_left, abs_neg, abs_of_nonneg hstep]
  · rw [add_sub_cancel_left, abs_of_nonneg hstep]

/-- Raising the new value to a floor that the old one respects does not move it further. -/
theorem abs_max_apply_sub_le {limit : StepLimit K} (hr : 0 ≤ limit.rate) {old floor : K}
    (h : floor ≤ old) (proposed : K) :
    |Max.max (limit.apply old proposed).1 floor - old| ≤ limit.maxStep old := by
  calc |Max.max (limit.apply old proposed).1 floor - old|
      = |Max.max (limit.apply old proposed).1 floor - Max.max old floor| := by rw [max_eq_left h]
    _ ≤ |(limit.apply old proposed).1 - old| := abs_max_sub_max_le_abs _ _ _
    _ ≤ limit.maxStep old := abs_apply_sub_le hr old proposed

/-- A parameter that starts from zero moves in the direction of the proposed value. -/
theorem apply_zero_mul_pos {limit : StepLimit K} (hr : 0 < limit.rate) {x : K} (hx : x ≠ 0) :
    0 < (limit.apply 0 x).1 * x := by
  rw [apply_eq, maxStep_zero hr.le]
  split_ifs with hsmall hneg
  · exact mul_self_pos.mpr hx
  · rw [zero_sub]
    exact mul_pos_of_neg_of_neg (neg_neg_of_pos hr) hneg
  · rw [zero_add]
    exact mul_pos hr (lt_of_le_of_ne (not_lt.mp hneg) hx.symm)

/-- A falling parameter stays at or above what was proposed. -/
theorem le_apply_of_falling (limit : StepLimit K) {old proposed : K} (h : proposed < old) :
    proposed ≤ (limit.apply old proposed).1 := by
  rw [apply_eq, if_pos h, abs_of_neg (sub_neg_of_lt h)]
  split_ifs with hstep
  · exact le_rfl
  · dsimp only
    linarith only [hstep]

/-- A parameter moves towards the proposed value and not beyond it. -/
theorem apply_mem_uIcc {limit : StepLimit K} (hr : 0 ≤ limit.rate) (old proposed : K) :
    (limit.apply old proposed).1 ∈ Set.uIcc old proposed := by
  have hstep : 0 ≤ limit.maxStep old := hr.trans (le_max_right _ _)
  rw [apply_eq]
  split_ifs with hnear hfall
  · exact Set.right_mem_uIcc
  · rw [abs_of_neg (sub_neg_of_lt hfall), neg_sub, not_le] at hnear
    exact Set.mem_uIcc_of_ge (le_sub_comm.mp hnear.le) (sub_le_self _ hstep)
  · rw [abs_of_nonneg (sub_nonneg.mpr (not_lt.mp hfall)), not_le] at hnear
    exact Set.mem_uIcc_of_le (le_add_of_nonneg_right hstep) (le_sub_iff_add_le'.mp hnear.le)

/-- A parameter that fades and grows by no more than the rate in total is never held back. -/
theorem apply_of_le {limit : StepLimit K} {fade growth old : K} (hfade : fade ≤ 1)
    (h : 1 - fade + |growth| ≤ limit.rate) : (limit.apply old (fade * old + growth)).2 = false := by
  have hgrowth : 0 ≤ |growth| := abs_nonneg growth
  have hdecay : 0 ≤ 1 - fade := sub_nonneg.mpr hfade
  have hmove : |fade * old + growth - old| ≤ |growth| + (1 - fade) * |old| := by
    rw [show fade * old + growth - old = growth - (1 - fade) * old by ring]
    refine (abs_sub _ _).trans_eq ?_
    rw [abs_mul, abs_of_nonneg hdecay]
  have hstep : |growth| + (1 - fade) * |old| ≤ limit.maxStep old := by
    rw [maxStep, Scalar.exact_max, Scalar.exact_abs]
    rcases le_total |old| 1 with hsmall | hlarge
    · refine le_max_of_le_right ?_
      nlinarith only [h, mul_le_mul_of_nonneg_left hsmall hdecay]
    · refine le_max_of_le_left ?_
      nlinarith only [mul_le_mul_of_nonneg_left h (abs_nonneg old),
        mul_le_mul_of_nonneg_left hlarge hgrowth]
  rw [apply_eq, if_pos (hmove.trans hstep)]

end ContextAdvisor.StepLimit
