import ContextAdvisor.Proofs.Learning.EpsilonGreedy
import ContextAdvisor.Proofs.Run
import ContextAdvisor.Proofs.Safeguard.StepLimit

/-!
# Averages that move slowly

A reward proposes the mean of all that the arm stands for and itself, which lies between the average
so far and the reward. The average moves towards it, at most by the step limit. So it never leaves
the range of the rewards, whatever was held back before; and the total is the sum of the rewards as
long as nothing was.
-/
namespace ContextAdvisor.AverageArm

variable {K : Type} [Field K] [LinearOrder K]

/-- One update of an arm, answered with the flag. -/
def learn (limit : StepLimit K) (arm : AverageArm K) (reward : K) : Bool × AverageArm K :=
  (arm.update limit reward).swap

/-- The average that an arm would have after a reward without a step limit. -/
def proposed (arm : AverageArm K) (reward : K) : K :=
  (arm.total + reward) / ((arm.pulls + 1 : Nat) : K)

variable {limit : StepLimit K} {arm : AverageArm K}

theorem learn_of_untried (h : arm.pulls = 0) (reward : K) :
    arm.learn limit reward = (false, ⟨1, reward⟩) := by
  rw [learn, update, if_pos h]
  rfl

theorem learn_of_tried (h : arm.pulls ≠ 0) (reward : K) :
    arm.learn limit reward =
      ((limit.apply arm.average (arm.proposed reward)).2, ⟨arm.pulls + 1,
        (limit.apply arm.average (arm.proposed reward)).1 * ((arm.pulls + 1 : Nat) : K)⟩) := by
  simp only [learn, update, if_neg h, Scalar.exact_ofNat]
  rfl

theorem pulls_learn (reward : K) : (arm.learn limit reward).2.pulls = arm.pulls + 1 := by
  by_cases h : arm.pulls = 0
  · rw [learn_of_untried h, h]
  · rw [learn_of_tried h]

theorem pulls_after (rewards : List K) :
    (Run.after (learn limit) arm rewards).pulls = arm.pulls + rewards.length := by
  induction rewards generalizing arm with
  | nil => rfl
  | cons reward rest ih =>
    rw [Run.after_cons, ih, pulls_learn, List.length_cons]
    omega

variable [IsStrictOrderedRing K]

theorem total_eq (h : arm.pulls ≠ 0) : arm.total = arm.average * arm.pulls := by
  rw [average, if_neg h, Scalar.exact_ofNat, div_mul_cancel₀ _ (Nat.cast_ne_zero.mpr h)]

omit [IsStrictOrderedRing K] in
theorem average_learn_of_untried (h : arm.pulls = 0) (reward : K) :
    (arm.learn limit reward).2.average = reward := by
  simp [learn_of_untried h, average]

theorem average_learn_of_tried (h : arm.pulls ≠ 0) (reward : K) :
    (arm.learn limit reward).2.average = (limit.apply arm.average (arm.proposed reward)).1 := by
  have hp : ((arm.pulls + 1 : Nat) : K) ≠ 0 := Nat.cast_ne_zero.mpr arm.pulls.succ_ne_zero
  rw [learn_of_tried h, average, if_neg arm.pulls.succ_ne_zero, Scalar.exact_ofNat,
    mul_div_cancel_right₀ _ hp]

/-- A mean lies in every range of the values that it is taken of. -/
theorem proposed_mem (h : arm.pulls ≠ 0) {low high reward : K}
    (ha : arm.average ∈ Set.Icc low high) (hr : reward ∈ Set.Icc low high) :
    arm.proposed reward ∈ Set.Icc low high := by
  have hp : (0 : K) < ((arm.pulls + 1 : Nat) : K) := Nat.cast_pos.mpr arm.pulls.succ_pos
  have hn : (0 : K) ≤ arm.pulls := Nat.cast_nonneg _
  rw [proposed, total_eq h, Set.mem_Icc, le_div_iff₀ hp, div_le_iff₀ hp, Nat.cast_succ, mul_add_one,
    mul_add_one]
  exact ⟨add_le_add (mul_le_mul_of_nonneg_right ha.1 hn) hr.1,
    add_le_add (mul_le_mul_of_nonneg_right ha.2 hn) hr.2⟩

/-- Is the average of an arm in a range, unless the arm was never tried? -/
def StaysWithin (low high : K) (arm : AverageArm K) : Prop :=
  arm.pulls ≠ 0 → arm.average ∈ Set.Icc low high

/-- A reward of a range keeps the average in the range. -/
theorem StaysWithin.learn {low high : K} (h : arm.StaysWithin low high) (hl : 0 ≤ limit.rate)
    {reward : K} (hr : reward ∈ Set.Icc low high) :
    (arm.learn limit reward).2.StaysWithin low high := by
  intro _
  by_cases hp : arm.pulls = 0
  · rwa [average_learn_of_untried hp]
  · rw [average_learn_of_tried hp]
    exact Set.uIcc_subset_Icc (h hp) (proposed_mem hp (h hp) hr)
      (StepLimit.apply_mem_uIcc hl _ _)

/-- After some rewards the average is in every range of the rewards. -/
theorem average_after_mem (hl : 0 ≤ limit.rate) {rewards : List K} (hne : rewards ≠ [])
    {low high : K} (hr : ∀ reward ∈ rewards, reward ∈ Set.Icc low high) :
    (Run.after (learn limit) fresh rewards).average ∈ Set.Icc low high := by
  have hfresh : (fresh : AverageArm K).StaysWithin low high := fun h => absurd rfl h
  have hafter : (Run.after (AverageArm.learn limit) fresh rewards).StaysWithin low high :=
    Run.after_of_forall (fun arm reward hreward harm => harm.learn hl hreward) hr hfresh
  refine hafter ?_
  rw [pulls_after]
  exact (Nat.lt_add_left _ (List.length_pos_of_ne_nil hne)).ne'

/-- After some rewards the average lies between the least and the greatest of them. -/
theorem average_after_mem_Icc (hl : 0 ≤ limit.rate) {rewards : List K} {least greatest : K}
    (hleast : least ∈ rewards.min?) (hgreatest : greatest ∈ rewards.max?) :
    (Run.after (learn limit) fresh rewards).average ∈ Set.Icc least greatest := by
  obtain ⟨hmem, hmin⟩ := List.min?_eq_some_iff.mp hleast
  obtain ⟨-, hmax⟩ := List.max?_eq_some_iff.mp hgreatest
  exact average_after_mem hl (List.ne_nil_of_mem hmem) fun r hr => ⟨hmin r hr, hmax r hr⟩

/-- Some reward is not below the average. -/
theorem exists_average_after_le (hl : 0 ≤ limit.rate) {rewards : List K} (hne : rewards ≠ []) :
    ∃ reward ∈ rewards, (Run.after (learn limit) fresh rewards).average ≤ reward := by
  obtain ⟨least, hleast⟩ := Option.isSome_iff_exists.mp (List.isSome_min?_of_ne_nil hne)
  obtain ⟨greatest, hgreatest⟩ := Option.isSome_iff_exists.mp (List.isSome_max?_of_ne_nil hne)
  exact ⟨greatest, List.max?_mem hgreatest, (average_after_mem_Icc hl hleast hgreatest).2⟩

/-- An average that was set before moves by at most the largest step. -/
theorem abs_average_learn_sub_le (hl : 0 ≤ limit.rate) (h : arm.pulls ≠ 0) (reward : K) :
    |(arm.learn limit reward).2.average - arm.average| ≤
      max (|arm.average| * limit.rate) limit.rate := by
  rw [average_learn_of_tried h]
  exact StepLimit.abs_apply_sub_le hl _ _

/-- A reward that does not reach the limit is added to the total. -/
theorem total_learn (h : arm.pulls = 0 → arm.total = 0) {reward : K}
    (hfree : (arm.learn limit reward).1 = false) :
    (arm.learn limit reward).2.total = arm.total + reward := by
  by_cases hp : arm.pulls = 0
  · rw [learn_of_untried hp, h hp, zero_add]
  · rw [learn_of_tried hp] at hfree ⊢
    have hpulls : ((arm.pulls + 1 : Nat) : K) ≠ 0 := Nat.cast_ne_zero.mpr arm.pulls.succ_ne_zero
    rw [StepLimit.apply_of_not_held hfree, proposed, div_mul_cancel₀ _ hpulls]

/-- As long as no reward reaches the limit, the total is the sum of the rewards. -/
theorem total_after (h : arm.pulls = 0 → arm.total = 0) {rewards : List K}
    (hfree : ∀ held ∈ Run.answers (learn limit) arm rewards, held = false) :
    (Run.after (learn limit) arm rewards).total = arm.total + rewards.sum := by
  induction rewards generalizing arm with
  | nil => rw [Run.after_nil, List.sum_nil, add_zero]
  | cons reward rest ih =>
    obtain ⟨hhere, hlater⟩ := List.forall_mem_cons.mp hfree
    have hpulls : (arm.learn limit reward).2.pulls ≠ 0 := by
      rw [pulls_learn]
      exact arm.pulls.succ_ne_zero
    rw [Run.after_cons, ih (fun hzero => absurd hzero hpulls) hlater, total_learn h hhere,
      List.sum_cons, add_assoc]

/-- After any rewards of an arm that was not tried before, the arm has counted them; its average
lies between the least and the greatest of them, and the next reward moves it by at most the share
of its size that the limit allows, or by the share itself; and the total is their sum if none of
them reached the limit. -/
theorem average_after_updates {limit : StepLimit K} (hl : 0 ≤ limit.rate) (rewards : List K) :
    let step := learn limit
    let arm := Run.after step fresh rewards
    arm.pulls = rewards.length ∧
      (rewards ≠ [] → ∀ next, |(step arm next).2.average - arm.average| ≤
        max (|arm.average| * limit.rate) limit.rate) ∧
      (∀ least ∈ rewards.min?, ∀ greatest ∈ rewards.max?,
        least ≤ arm.average ∧ arm.average ≤ greatest) ∧
      ((∀ held ∈ Run.answers step fresh rewards, held = false) → arm.total = rewards.sum) := by
  intro step arm
  have hpulls : arm.pulls = rewards.length := (pulls_after rewards).trans (Nat.zero_add _)
  have hzero : (fresh : AverageArm K).total = 0 := Scalar.exact_zero
  refine ⟨hpulls, fun hne next => ?_,
    fun least hleast greatest hgreatest => average_after_mem_Icc hl hleast hgreatest,
    fun hfree => ?_⟩
  · refine abs_average_learn_sub_le hl ?_ next
    rw [hpulls]
    exact (List.length_pos_of_ne_nil hne).ne'
  · rw [total_after (fun _ => hzero) hfree, hzero, zero_add]

/-- The third reward is far below the first two, so the average falls by a twentieth only; the
fourth one finds the average at 19/20 and moves it by as much again. -/
theorem average_after_updates_four :
    let limit : StepLimit ℚ := ⟨1 / 20⟩
    let step := learn limit
    let rewards : List ℚ := [1, 1, -3, -3]
    let arm := Run.after step fresh rewards
    0 ≤ limit.rate ∧ Run.answers step fresh rewards = [false, false, true, true] ∧
      arm.average = 9 / 10 ∧ arm.pulls = 4 ∧
      |(step arm 5).2.average - arm.average| ≤ max (|arm.average| * limit.rate) limit.rate ∧
      -3 ≤ arm.average ∧ arm.average ≤ 1 ∧
      (Run.after step fresh [1, 1]).total = [(1 : ℚ), 1].sum := by
  intro limit step rewards arm
  have hl : 0 ≤ limit.rate := by decide +kernel
  obtain ⟨hpulls, hstep, hrange, -⟩ := average_after_updates hl rewards
  obtain ⟨-, -, -, htotal⟩ := average_after_updates hl [1, 1]
  obtain ⟨hlow, hhigh⟩ := hrange (-3) (by decide +kernel) 1 (by decide +kernel)
  exact ⟨hl, by decide +kernel, by decide +kernel, hpulls, hstep (List.cons_ne_nil _ _) 5, hlow,
    hhigh, htotal (by decide +kernel)⟩

end ContextAdvisor.AverageArm
