import ContextAdvisor.Arithmetic.Window
import ContextAdvisor.Proofs.Arithmetic.Extended
import ContextAdvisor.Proofs.Run
import ContextAdvisor.Safeguard.Rewards

/-!
# The filter of rewards and the log of those that count

A plain log keeps every reward that was not rejected, as it was given. The filter keeps the last of
them only, clipped to the range of rewards; these are what the log judges the next reward by. So
the filter gives the verdicts of the log, whatever the rewards are: numbers, infinities or no
numbers at all.
-/
namespace ContextAdvisor

/-- The rewards that were not rejected, the latest one last. -/
structure RewardLog where
  settings : GuardSettings (Extended ℝ)
  kept : List ℝ

namespace RewardLog

/-- The log before any reward. -/
def ofSettings (settings : GuardSettings (Extended ℝ)) : RewardLog := ⟨settings, []⟩

/-- The nearest number that does not exceed a bound in either direction, if the bound is one. -/
noncomputable def clipTo (bound : Extended ℝ) (reward : ℝ) : ℝ :=
  match bound with
  | .finite bound => max (-bound) (min reward bound)
  | _ => reward

/-- The nearest number in the range of rewards. -/
noncomputable def clip (log : RewardLog) (reward : ℝ) : ℝ := clipTo log.settings.rewardClip reward

/-- The rewards by which the next one is judged. -/
noncomputable def recent (log : RewardLog) : List ℝ :=
  (Window.last (max 1 log.settings.rewardHistory) log.kept).map log.clip

/-- The mean of some numbers. -/
noncomputable def mean (xs : List ℝ) : ℝ := xs.sum / xs.length

/-- The standard deviation of some numbers, as the whole population. -/
noncomputable def deviation (xs : List ℝ) : ℝ :=
  √((xs.map fun x => (x - mean xs) ^ 2).sum / xs.length)

/-- Does a reward lie too many standard deviations from the mean? -/
def StandsOut (log : RewardLog) (reward : ℝ) : Prop :=
  log.settings.rewardMinSamples ≤ log.recent.length ∧ 1e-9 < deviation log.recent ∧
    log.settings.rewardSigma * .finite (deviation log.recent) < .finite |reward - mean log.recent|

open Classical in
/-- Judges a reward, and keeps it unless it is rejected. -/
noncomputable def perform (log : RewardLog) :
    Extended ℝ → Verdict (Extended ℝ) × RewardLog
  | .finite reward =>
    if log.StandsOut reward then (.rejected, log)
    else (if log.clip reward = reward then .accepted (.finite reward)
      else .clipped (.finite (log.clip reward)), { log with kept := log.kept ++ [reward] })
  | _ => (.rejected, log)

end RewardLog

theorem RewardLog.settings_perform (log : RewardLog) (reward : Extended ℝ) :
    (log.perform reward).2.settings = log.settings := by
  cases reward with
  | finite reward =>
    rw [perform]
    split_ifs <;> rfl
  | infinite negative => rfl
  | undefined => rfl

namespace RewardFilter

/-- Judges a reward; without a verdict the filter stays as it is. -/
def perform {α : Type} [Analytic α] (filter : RewardFilter α) (reward : α) :
    Except RewardFault (Verdict α) × RewardFilter α :=
  match filter.judge reward with
  | .ok (verdict, next) => (.ok verdict, next)
  | .error fault => (.error fault, filter)

/-- Does a filter hold the rewards by which a log judges the next one? -/
structure Follows (filter : RewardFilter (Extended ℝ)) (log : RewardLog) : Prop where
  capacity : filter.capacity = max 1 log.settings.rewardHistory
  minSamples : filter.minSamples = log.settings.rewardMinSamples
  sigma : filter.sigma = log.settings.rewardSigma
  clip : filter.clip = log.settings.rewardClip
  history : filter.history = log.recent.map .finite

theorem follows_ofSettings (settings : GuardSettings (Extended ℝ)) :
    (RewardFilter.ofSettings settings).Follows (.ofSettings settings) where
  capacity := max_comm _ _
  minSamples := rfl
  sigma := rfl
  clip := rfl
  history := by simp [RewardFilter.ofSettings, RewardLog.ofSettings, RewardLog.recent, Window.last]

theorem variance_map_finite (xs : List ℝ) : variance (xs.map Extended.finite) =
    .finite ((xs.map fun x => (x - RewardLog.mean xs) ^ 2).sum / xs.length) := by
  have hsquares : (xs.map Extended.finite).map (fun x =>
      (x - .finite (RewardLog.mean xs)) * (x - .finite (RewardLog.mean xs))) =
      (xs.map fun x => (x - RewardLog.mean xs) ^ 2).map Extended.finite := by
    simp [sq]
  rw [variance, Extended.mean_map_finite]
  refine (congrArg Scalar.mean hsquares).trans ?_
  rw [Extended.mean_map_finite, List.length_map]

/-- The square root of the variance is the standard deviation. -/
theorem sqrt_variance_map_finite (xs : List ℝ) :
    Analytic.sqrt (variance (xs.map Extended.finite)) = .finite (RewardLog.deviation xs) := by
  have hsum : 0 ≤ (xs.map fun x => (x - RewardLog.mean xs) ^ 2).sum :=
    List.sum_nonneg (List.forall_mem_map.mpr fun x _ => sq_nonneg _)
  rw [variance_map_finite]
  exact if_neg (div_nonneg hsum (Nat.cast_nonneg _)).not_gt

variable {filter : RewardFilter (Extended ℝ)} {log : RewardLog}

theorem Follows.isOutlier_iff (h : filter.Follows log) (reward : ℝ) :
    filter.isOutlier (.finite reward) = true ↔ log.StandsOut reward := by
  have hnegligible : (negligibleDeviation : Extended ℝ) = .finite 1e-9 := rfl
  simp only [isOutlier, h.history, h.minSamples, h.sigma, sqrt_variance_map_finite,
    Extended.mean_map_finite, hnegligible, Extended.finite_sub, Extended.abs_finite,
    List.length_map, Bool.and_eq_true, decide_eq_true_eq, Extended.finite_lt_finite, and_assoc]
  rfl

theorem neg_le_self_of_nonneg {clip : Extended ℝ} (hc : .finite 0 ≤ clip) : -clip ≤ clip := by
  cases clip with
  | finite bound =>
    rw [Extended.neg_finite, Extended.finite_le_finite]
    exact neg_le_self (Extended.finite_le_finite.mp hc)
  | infinite negative =>
    cases negative with
    | false => rfl
    | true => cases hc
  | undefined => cases hc

theorem clamp_eq_clipTo {clip : Extended ℝ} (hc : .finite 0 ≤ clip) (reward : ℝ) :
    Scalar.clamp (.finite reward) (-clip) clip = .finite (RewardLog.clipTo clip reward) := by
  cases clip with
  | finite bound =>
    have hbound := neg_le_self (Extended.finite_le_finite.mp hc)
    simp only [Scalar.clamp, Extended.neg_finite, Extended.finite_lt_finite, RewardLog.clipTo]
    split_ifs with hlow hhigh
    · rw [max_eq_left ((min_le_left _ _).trans hlow.le)]
    · rw [min_eq_right hhigh.le, max_eq_right hbound]
    · rw [min_eq_left (not_lt.mp hhigh), max_eq_right (not_lt.mp hlow)]
  | infinite negative =>
    cases negative with
    | false => rfl
    | true => cases hc
  | undefined => cases hc

theorem Follows.remember (h : filter.Follows log) (reward : ℝ) :
    Follows { filter with
        history := Window.push filter.capacity filter.history (.finite (log.clip reward)) }
      { log with kept := log.kept ++ [reward] } where
  capacity := h.capacity
  minSamples := h.minSamples
  sigma := h.sigma
  clip := h.clip
  history := by
    show Window.push filter.capacity filter.history (.finite (log.clip reward)) =
      ((Window.last (max 1 log.settings.rewardHistory) (log.kept ++ [reward])).map log.clip).map
        .finite
    rw [h.history, h.capacity, RewardLog.recent, Window.push_map, Window.push_map, Window.push_last]

/-- A filter that follows a log gives the verdict of the log, and goes on to follow it. -/
theorem Follows.perform (h : filter.Follows log) (hc : .finite 0 ≤ log.settings.rewardClip)
    (reward : Extended ℝ) :
    (filter.perform reward).1 = .ok (log.perform reward).1 ∧
      (filter.perform reward).2.Follows (log.perform reward).2 := by
  cases reward with
  | infinite negative => exact ⟨rfl, h⟩
  | undefined => exact ⟨rfl, h⟩
  | finite reward =>
    rw [RewardFilter.perform, judge, Extended.isFinite_finite, Bool.not_true, Bool.false_or,
      RewardLog.perform]
    by_cases hout : log.StandsOut reward
    · rw [if_pos ((h.isOutlier_iff reward).mpr hout), if_pos hout]
      exact ⟨rfl, h⟩
    · rw [← h.clip] at hc
      have hclamp : Scalar.clamp (.finite reward) (-filter.clip) filter.clip =
          .finite (log.clip reward) := by
        rw [clamp_eq_clipTo hc, h.clip]
        rfl
      rw [if_neg (mt (h.isOutlier_iff reward).mp hout), if_neg hout,
        if_pos (neg_le_self_of_nonneg hc), hclamp]
      refine ⟨?_, h.remember reward⟩
      simp only [Extended.beq_finite, decide_eq_true_eq]

/-- Whatever the rewards are, each of them gets a verdict, and it is that of the log: an infinity or
an undefined value is rejected, a number if it lies too many standard deviations from the mean of
the last ones that were not; every other number counts as it is, or clipped. The filter remembers
the last of the numbers that count, clipped. -/
theorem verdicts_eq_log {settings : GuardSettings (Extended ℝ)}
    (hc : .finite 0 ≤ settings.rewardClip) (rewards : List (Extended ℝ)) :
    let log := Run.after RewardLog.perform (.ofSettings settings) rewards
    let filter := Run.after perform (.ofSettings settings) rewards
    Run.answers perform (.ofSettings settings) rewards =
        (Run.answers RewardLog.perform (.ofSettings settings) rewards).map .ok ∧
      filter.history = ((Window.last (max 1 settings.rewardHistory) log.kept).map
        (RewardLog.clipTo settings.rewardClip)).map .finite := by
  intro log filter
  obtain ⟨hanswers, hfollows, hsettings⟩ := Run.answers_map_of_related (f := Except.ok)
    (R := fun filter log => Follows filter log ∧ log.settings = settings)
    (fun filter log reward h => by
      obtain ⟨hverdict, hnext⟩ := h.1.perform (h.2 ▸ hc) reward
      exact ⟨hverdict, hnext, (log.settings_perform reward).trans h.2⟩)
    ⟨follows_ofSettings settings, rfl⟩ rewards
  refine ⟨hanswers, ?_⟩
  have hclip : log.clip = RewardLog.clipTo settings.rewardClip := by
    funext reward
    rw [RewardLog.clip, hsettings]
  rw [hfollows.history, RewardLog.recent, hsettings, hclip]

/-- Of two rewards the second is clipped to three; then four is two standard deviations from their
mean. -/
theorem verdicts_eq_log_four :
    let settings : GuardSettings (Extended ℝ) := { GuardSettings.standard with
      rewardHistory := 2, rewardMinSamples := 2, rewardSigma := .finite 1, rewardClip := .finite 3 }
    let rewards : List (Extended ℝ) := [.finite 1, .infinite false, .finite 5, .finite 4]
    .finite 0 ≤ settings.rewardClip ∧
      Run.answers perform (.ofSettings settings) rewards =
        [.ok (.accepted (.finite 1)), .ok .rejected, .ok (.clipped (.finite 3)), .ok .rejected] ∧
      (Run.after perform (.ofSettings settings) rewards).history = [.finite 1, .finite 3] := by
  intro settings rewards
  have hc : .finite 0 ≤ settings.rewardClip := Extended.finite_le_finite.mpr (by norm_num)
  have hone : RewardLog.perform ⟨settings, []⟩ (.finite 1) =
      (.accepted (.finite 1), ⟨settings, [1]⟩) := by
    have hout : ¬ RewardLog.StandsOut ⟨settings, []⟩ 1 := fun h => absurd h.1 (by decide)
    have hclip : RewardLog.clip ⟨settings, []⟩ 1 = 1 := by
      norm_num [RewardLog.clip, RewardLog.clipTo, settings]
    rw [RewardLog.perform, if_neg hout, if_pos hclip]
    rfl
  have hfive : RewardLog.perform ⟨settings, [1]⟩ (.finite 5) =
      (.clipped (.finite 3), ⟨settings, [1, 5]⟩) := by
    have hout : ¬ RewardLog.StandsOut ⟨settings, [1]⟩ 5 := fun h => absurd h.1 (by decide)
    have hclip : RewardLog.clip ⟨settings, [1]⟩ 5 = 3 := by
      norm_num [RewardLog.clip, RewardLog.clipTo, settings]
    rw [RewardLog.perform, if_neg hout, hclip, if_neg (by norm_num)]
    rfl
  have hfour : RewardLog.perform ⟨settings, [1, 5]⟩ (.finite 4) =
      (.rejected, ⟨settings, [1, 5]⟩) := by
    have hrecent : RewardLog.recent ⟨settings, [1, 5]⟩ = [1, 3] := by
      norm_num [RewardLog.recent, RewardLog.clip, RewardLog.clipTo, Window.last, settings]
    have hmean : RewardLog.mean [1, 3] = 2 := by norm_num [RewardLog.mean]
    have hdeviation : RewardLog.deviation [1, 3] = 1 := by
      norm_num [RewardLog.deviation, hmean]
    have hout : RewardLog.StandsOut ⟨settings, [1, 5]⟩ 4 := by
      rw [RewardLog.StandsOut, hrecent, hmean, hdeviation, Extended.finite_mul,
        Extended.finite_lt_finite]
      refine ⟨le_rfl, ?_, ?_⟩ <;> norm_num
    rw [RewardLog.perform, if_pos hout]
  have hinfinite : RewardLog.perform ⟨settings, [1]⟩ (.infinite false) =
      (.rejected, ⟨settings, [1]⟩) := rfl
  obtain ⟨hanswers, hhistory⟩ := verdicts_eq_log hc rewards
  refine ⟨hc, hanswers.trans ?_, hhistory.trans ?_⟩
  · simp only [rewards, RewardLog.ofSettings, Run.answers, hone, hinfinite, hfive, hfour,
      List.map_cons, List.map_nil]
  · simp only [rewards, RewardLog.ofSettings, Run.after_cons, Run.after_nil, hone, hinfinite, hfive,
      hfour]
    norm_num [Window.last, RewardLog.clipTo, settings]

end RewardFilter

end ContextAdvisor
