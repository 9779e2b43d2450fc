import ContextAdvisor.Proofs.Engine.FiringCaps
import ContextAdvisor.Proofs.Handover.Curve

/-!
# The course of the hand-over

No command moves the installation, so an engine follows one and the same curve for good. As long as
its clock is not moved back, the days since the installation never become fewer: the learner keeps
the weight that it has gained, and no phase returns.
-/
namespace ContextAdvisor

theorem Schedule.days_mono {K : Type} [Field K] [LinearOrder K] [IsStrictOrderedRing K]
    (schedule : Schedule) {now later : Instant} (h : now ≤ later) :
    (schedule.days now : K) ≤ schedule.days later := by
  have hday : (0 : K) ≤ Scalar.ofInt Duration.day := by
    rw [Scalar.exact_ofInt]
    exact Int.cast_nonneg (by decide)
  rw [days, days, Scalar.exact_max, Scalar.exact_max]
  refine max_le_max_right _ (div_le_div_of_nonneg_right ?_ hday)
  rw [Scalar.exact_ofInt, Scalar.exact_ofInt, Int.cast_le]
  exact Int.sub_le_sub_right h _

namespace Engine

variable {α : Type} [Analytic α]

/-- A run that never moves the clock back ends at the same schedule, and not before it started. -/
theorem schedule_after_forward {engine : Engine α} {commands : List (Command α)}
    (hf : Run.Always run MovesForward engine commands) :
    (Run.after run engine commands).schedule = engine.schedule ∧
      engine.clock ≤ (Run.after run engine commands).clock := by
  refine Run.after_of_always
    (Q := fun later : Engine α => later.schedule = engine.schedule ∧ engine.clock ≤ later.clock)
    ?_ hf ⟨rfl, le_rfl⟩
  exact fun later command hforward h =>
    ⟨(later.frame_run command).schedule.trans h.1, h.2.trans hforward⟩

/-- The weights add up to one, the learner's is never negative nor above nine tenths, and the rules
never lose the last tenth. As days pass, the learner's weight does not fall, and it rises by at most
three tenths in fourteen days, within the phases and from one to the next. So in every run whose
clock is not moved back it does not fall either, and no earlier phase returns. -/
theorem handover_is_gradual :
    (∀ days : ℝ, (Weights.atDays days).rule + (Weights.atDays days).learned = 1 ∧
        0 ≤ (Weights.atDays days).learned ∧ (Weights.atDays days).learned ≤ 0.9 ∧
        Handover.ruleFloor ≤ (Weights.atDays days).rule) ∧
      (∀ days later : ℝ, days ≤ later →
        (Weights.atDays days).learned ≤ (Weights.atDays later).learned ∧
          (Weights.atDays later).learned - (Weights.atDays days).learned ≤
            0.3 / 14 * (later - days)) ∧
      ∀ (engine : Engine ℝ) (commands : List (Command ℝ)),
        Run.Always run MovesForward engine commands →
          engine.weights.learned ≤ (Run.after run engine commands).weights.learned ∧
            engine.phase.rank ≤ (Run.after run engine commands).phase.rank := by
  refine ⟨fun days => ?_, fun days later h => ?_, fun engine commands hf => ?_⟩
  · exact ⟨Weights.rule_add_learned_atDays days, Weights.learned_atDays_nonneg days,
      Weights.learned_atDays_le days, Weights.ruleFloor_le_rule_atDays days⟩
  · exact ⟨Weights.learned_atDays_mono h, Weights.learned_atDays_sub_le h⟩
  · obtain ⟨hschedule, hclock⟩ := schedule_after_forward hf
    have hdays : (engine.schedule.days engine.clock : ℝ) ≤
        engine.schedule.days (Run.after run engine commands).clock :=
      engine.schedule.days_mono hclock
    rw [weights, weights, phase, phase, hschedule]
    exact ⟨Weights.learned_atDays_mono hdays, Phase.rank_ofDays_mono hdays⟩

/-- Eight days across the end of the first phase, and an engine that is used over all phases. -/
theorem handover_is_gradual_standard :
    let engine : Engine ℝ := start Settings.standard 0 .steady
    let commands : List (Command ℝ) :=
      [.advanceClock (20 * Duration.day), .decide ∅, .setClock (100 * Duration.day)]
    let last := Run.after run engine commands
    (Weights.atDays (13 : ℝ)).learned = 0 ∧ (Weights.atDays (21 : ℝ)).learned = 0.15 ∧
      (Weights.atDays (21 : ℝ)).learned - (Weights.atDays (13 : ℝ)).learned ≤
        0.3 / 14 * (21 - 13) ∧
      Run.Always run MovesForward engine commands ∧
      engine.phase = .bootstrap ∧ engine.weights = ⟨1, 0⟩ ∧
      last.phase = .stable ∧ last.weights = ⟨0.1, 0.9⟩ ∧
      engine.weights.learned ≤ last.weights.learned ∧ engine.phase.rank ≤ last.phase.rank := by
  intro engine commands last
  obtain ⟨-, hgain, hrun⟩ := handover_is_gradual
  have hf : Run.Always run MovesForward engine commands := by decide +kernel
  have hfirst : engine.phase = .bootstrap := engine.schedule.phase_install
  have hdays : (last.schedule.days last.clock : ℝ) = 100 := by
    rw [(schedule_after_forward hf).1]
    show Scalar.max (Scalar.ofInt (100 * Duration.day - 0) / Scalar.ofInt Duration.day) 0.0 = 100
    rw [Scalar.exact_max, Scalar.exact_ofInt, Scalar.exact_ofInt]
    norm_num [Duration.day, Duration.hour, Duration.minute, Duration.second]
  have hlast : last.phase = .stable := by
    rw [phase, Schedule.phase, hdays, Phase.ofDays]
    norm_num [Handover.rampUpStart, Handover.transitionStart, Handover.stableStart]
  have hweights : last.weights = ⟨0.1, 0.9⟩ := by
    rw [weights, Schedule.weights, hdays]
    exact Weights.atDays_of_settled (by norm_num [Handover.settled])
  have hthirteen : (Weights.atDays (13 : ℝ)).learned = 0 := by
    norm_num [Weights.atDays, Phase.ofDays, Handover.rampUpStart]
  have htwentyone : (Weights.atDays (21 : ℝ)).learned = 0.15 := by
    norm_num [Weights.atDays, Phase.ofDays, Handover.rampUpStart, Handover.transitionStart,
      Handover.ramp, Scalar.clamp]
  exact ⟨hthirteen, htwentyone, (hgain 13 21 (by norm_num)).2, hf, hfirst,
    Schedule.weights_of_bootstrap hfirst, hlast, hweights, hrun engine commands hf⟩

end Engine

end ContextAdvisor
