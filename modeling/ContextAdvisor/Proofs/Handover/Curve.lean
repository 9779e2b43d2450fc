import ContextAdvisor.Proofs.Handover

/-!
# The curve of the hand-over

The learner gains its weight in three stages, and in each of them the same share of it every day. So
its weight after some days is a sum over the stages of their rate times the days of them that have
passed. Those days never become fewer, and one day adds at most one to all stages together; hence
the weight never falls, and it never rises faster than at the greatest of the three rates.
-/
namespace ContextAdvisor

/-- The place of a phase in the order in which they follow each other. -/
def Phase.rank : Phase → Nat
  | bootstrap => 0
  | rampUp => 1
  | transition => 2
  | stable => 3

variable {K : Type} [Field K] [LinearOrder K]

namespace Handover

/-- The weight that the rules never lose. -/
def ruleFloor {α : Type} [Scalar α] : α := 0.1

/-- The days of a stage that have passed. -/
def daysIn (start stop days : K) : K := max 0 (min days stop - start)

theorem daysIn_nonneg (start stop days : K) : 0 ≤ daysIn start stop days := le_max_left _ _

variable [IsStrictOrderedRing K] {start middle stop days later : K}

theorem daysIn_of_le (h : days ≤ start) : daysIn start stop days = 0 :=
  max_eq_left (sub_nonpos.mpr ((min_le_left _ _).trans h))

theorem daysIn_of_ge (hs : start ≤ stop) (h : stop ≤ days) :
    daysIn start stop days = stop - start := by
  rw [daysIn, min_eq_right h, max_eq_right (sub_nonneg.mpr hs)]

theorem daysIn_of_between (h : start ≤ days) (h' : days ≤ stop) :
    daysIn start stop days = days - start := by
  rw [daysIn, min_eq_left h', max_eq_right (sub_nonneg.mpr h)]

theorem daysIn_le_span (h : start ≤ stop) (days : K) : daysIn start stop days ≤ stop - start :=
  max_le (sub_nonneg.mpr h) (sub_le_sub_right (min_le_right _ _) _)

theorem daysIn_mono (h : days ≤ later) : daysIn start stop days ≤ daysIn start stop later :=
  max_le_max_left 0 (sub_le_sub_right (min_le_min_right stop h) start)

/-- Two stages in a row pass like one. -/
theorem daysIn_add_daysIn (h : start ≤ middle) (h' : middle ≤ stop) :
    daysIn start middle days + daysIn middle stop days = daysIn start stop days := by
  rcases le_total days middle with hd | hd
  · rw [daysIn_of_le hd, add_zero, daysIn, daysIn, min_eq_left hd, min_eq_left (hd.trans h')]
  · have hmiddle : middle ≤ min days stop := le_min hd h'
    rw [daysIn_of_ge h hd, daysIn, daysIn, max_eq_right (sub_nonneg.mpr hmiddle),
      max_eq_right (sub_nonneg.mpr (h.trans hmiddle))]
    ring

/-- In a stage no more days pass than in all. -/
theorem daysIn_sub_daysIn_le (h : days ≤ later) :
    daysIn start stop later - daysIn start stop days ≤ later - days := by
  have hmin : min later stop ≤ min days stop + (later - days) := by
    rw [← min_add_add_right]
    exact min_le_min (add_sub_cancel _ _).ge (le_add_of_nonneg_right (sub_nonneg.mpr h))
  rw [sub_le_iff_le_add']
  refine max_le (add_nonneg (le_max_left _ _) (sub_nonneg.mpr h)) ?_
  calc min later stop - start ≤ min days stop - start + (later - days) := by linarith
    _ ≤ daysIn start stop days + (later - days) := add_le_add_left (le_max_right _ _) _

/-- A ramp rises with the days of its stage. -/
theorem ramp_eq_daysIn (h : start < stop) :
    ramp (days - start) (stop - start) = daysIn start stop days / (stop - start) := by
  have hspan : 0 < stop - start := sub_pos.mpr h
  rw [ramp, Scalar.exact_zero, Scalar.exact_one, if_neg hspan.not_ge, Scalar.clamp]
  split_ifs with hlow hhigh
  · have hbefore : days ≤ start := by
      rw [div_lt_iff₀ hspan, zero_mul, sub_neg] at hlow
      exact hlow.le
    rw [daysIn_of_le hbefore, zero_div]
  · have hafter : stop ≤ days := by
      rw [one_lt_div hspan, sub_lt_sub_iff_right] at hhigh
      exact hhigh.le
    rw [daysIn_of_ge h.le hafter, div_self hspan.ne']
  · rw [not_lt, le_div_iff₀ hspan, zero_mul, sub_nonneg] at hlow
    rw [not_lt, div_le_one hspan, sub_le_sub_iff_right] at hhigh
    rw [daysIn_of_between hlow hhigh]

/-- Days before the installation belong to no stage. -/
theorem daysIn_max_zero (h : 0 ≤ start) :
    daysIn start stop (max days 0) = daysIn start stop days := by
  rcases le_total days 0 with hd | hd
  · rw [max_eq_right hd, daysIn_of_le h, daysIn_of_le (hd.trans h)]
  · rw [max_eq_left hd]

@[simp] theorem rampUpStart_eq : (rampUpStart : K) = 14 := by norm_num [rampUpStart]

@[simp] theorem transitionStart_eq : (transitionStart : K) = 28 := by norm_num [transitionStart]

@[simp] theorem stableStart_eq : (stableStart : K) = 56 := by norm_num [stableStart]

@[simp] theorem settled_eq : (settled : K) = 70 := by norm_num [settled]

end Handover

open Handover

variable [IsStrictOrderedRing K]

/-- What the learner has gained in each stage. -/
theorem Weights.learned_atDays (days : K) : (atDays days).learned =
    0.3 / 14 * daysIn 14 28 days + 0.4 / 28 * daysIn 28 56 days +
      0.2 / 14 * daysIn 56 70 days := by
  have h14 : (0 : K) ≤ 14 := by norm_num
  have h28 : (0 : K) ≤ 28 := by norm_num
  have h56 : (0 : K) ≤ 56 := by norm_num
  rw [← daysIn_max_zero h14, ← daysIn_max_zero h28, ← daysIn_max_zero h56]
  simp only [atDays, Scalar.exact_max, Scalar.exact_zero, Phase.ofDays, rampUpStart_eq,
    transitionStart_eq, stableStart_eq, settled_eq]
  rw [ramp_eq_daysIn (by norm_num), ramp_eq_daysIn (by norm_num), ramp_eq_daysIn (by norm_num)]
  generalize max days 0 = d
  split_ifs with h14 h28 h56
  · have h28 : d ≤ 28 := by linarith
    have h56 : d ≤ 56 := by linarith
    rw [daysIn_of_le h14.le, daysIn_of_le h28, daysIn_of_le h56]
    ring
  · have h56 : d ≤ 56 := by linarith
    rw [daysIn_of_le h28.le, daysIn_of_le h56]
    ring
  · rw [daysIn_of_ge (by norm_num) (not_lt.mp h28), daysIn_of_le h56.le]
    ring
  · have h28 : 28 ≤ d := not_lt.mp h28
    rw [daysIn_of_ge (by norm_num) h28, daysIn_of_ge (by norm_num) (not_lt.mp h56)]
    ring

namespace Weights

theorem learned_atDays_nonneg (days : K) : 0 ≤ (atDays days).learned := by
  rw [learned_atDays]
  have hfirst := daysIn_nonneg 14 28 days
  have hsecond := daysIn_nonneg 28 56 days
  have hthird := daysIn_nonneg 56 70 days
  positivity

theorem learned_atDays_le (days : K) : (atDays days).learned ≤ 0.9 := by
  have hfirst : daysIn 14 28 days ≤ 28 - 14 := daysIn_le_span (by norm_num) days
  have hsecond : daysIn 28 56 days ≤ 56 - 28 := daysIn_le_span (by norm_num) days
  have hthird : daysIn 56 70 days ≤ 70 - 56 := daysIn_le_span (by norm_num) days
  rw [learned_atDays]
  linarith

/-- The rules keep what the learner cannot gain. -/
theorem ruleFloor_le_rule_atDays (days : K) : ruleFloor ≤ (atDays days).rule := by
  have hsum := rule_add_learned_atDays days
  have hlearned := learned_atDays_le days
  have hfloor : (ruleFloor : K) = 1 - 0.9 := by norm_num [ruleFloor]
  linarith

theorem learned_atDays_mono {days later : K} (h : days ≤ later) :
    (atDays days).learned ≤ (atDays later).learned := by
  rw [learned_atDays, learned_atDays]
  gcongr <;> exact daysIn_mono h

/-- No stage is steeper than the first, and all of them together are not longer than the time. -/
theorem learned_atDays_sub_le {days later : K} (h : days ≤ later) :
    (atDays later).learned - (atDays days).learned ≤ 0.3 / 14 * (later - days) := by
  have htotal : ∀ d : K, daysIn 14 28 d + daysIn 28 56 d + daysIn 56 70 d = daysIn 14 70 d := by
    intro d
    rw [daysIn_add_daysIn (by norm_num) (by norm_num),
      daysIn_add_daysIn (by norm_num) (by norm_num)]
  have hsecond : daysIn 28 56 days ≤ daysIn 28 56 later := daysIn_mono h
  have hthird : daysIn 56 70 days ≤ daysIn 56 70 later := daysIn_mono h
  calc (atDays later).learned - (atDays days).learned
      ≤ 0.3 / 14 * (daysIn 14 70 later - daysIn 14 70 days) := by
        rw [learned_atDays, learned_atDays, ← htotal, ← htotal]
        linarith
    _ ≤ 0.3 / 14 * (later - days) :=
        mul_le_mul_of_nonneg_left (daysIn_sub_daysIn_le h) (by norm_num)

end Weights

/-- The phases follow each other. -/
theorem Phase.rank_ofDays_mono {days later : K} (h : days ≤ later) :
    (ofDays days).rank ≤ (ofDays later).rank := by
  -- a boundary that was passed before stays passed
  simp only [ofDays, rampUpStart_eq, transitionStart_eq, stableStart_eq]
  grind [rank]

end ContextAdvisor
