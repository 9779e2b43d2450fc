import ContextAdvisor.Arithmetic.Window
import ContextAdvisor.Engine.Command
import ContextAdvisor.Proofs.Engine.Feedback
import ContextAdvisor.Proofs.Learning.EpsilonGreedy
import ContextAdvisor.Proofs.Run

/-!
# Equal rewards for an action

As long as there are too few rewards to tell an outlier, a reward within the clip range counts as it
is. So an engine that averages and gets the same reward for an action again and again ends up with
that reward as the average of the action, and with nothing else changed but what its guard and its
monitor noted.
-/
namespace ContextAdvisor.Engine

/-- What an engine that averages becomes after a number of equal rewards for an action. -/
structure EquallyRewarded (engine : Engine ℝ) (learner : EpsilonGreedy ℝ) (id : String)
    (reward : ℝ) (pulls : Nat) (later : Engine ℝ) : Prop where
  later_eq : later = { engine with
    learner := later.learner
    guard := { engine.guard with
      rewards := { engine.guard.rewards with history := later.guard.rewards.history }
      stats := later.guard.stats } }
  length_history : later.guard.rewards.history.length ≤
    engine.guard.rewards.history.length + pulls
  exists_arms : ∃ arms, later.learner.bandit = .epsilonGreedy { learner with arms := arms } ∧
    ∀ other, EpsilonGreedy.arm { learner with arms := arms } other =
      if other = id then .ofEqual reward pulls else learner.arm other

variable {engine later : Engine ℝ} {learner : EpsilonGreedy ℝ} {id : String} {reward : ℝ}
  {pulls : Nat}

theorem equallyRewarded_zero (hb : engine.learner.bandit = .epsilonGreedy learner)
    (ha : learner.arm id = .fresh) : engine.EquallyRewarded learner id reward 0 engine where
  later_eq := rfl
  length_history := le_rfl
  exists_arms := by
    refine ⟨learner.arms, hb, fun other => ?_⟩
    split_ifs with h
    · rw [h, AverageArm.ofEqual_zero, ← ha]
    · rfl

/-- One more reward that counts as it is. -/
theorem EquallyRewarded.succ (h : engine.EquallyRewarded learner id reward pulls later)
    (hc : |reward| ≤ engine.guard.rewards.clip) (hl : 0 ≤ engine.guard.stepLimit.rate)
    (hn : engine.guard.rewards.history.length + pulls < engine.guard.rewards.minSamples) :
    engine.EquallyRewarded learner id reward (pulls + 1) (later.reward id reward).2 := by
  obtain ⟨later_eq, length_history, arms, hb, harms⟩ := h
  have hlimit : later.guard.stepLimit = engine.guard.stepLimit := by rw [later_eq]
  have hcount : later.guard.rewards.history.length < later.guard.rewards.minSamples := by
    rw [later_eq]
    exact length_history.trans_lt hn
  have hclip : |reward| ≤ later.guard.rewards.clip := by
    rw [later_eq]
    exact hc
  let arms' := arms.insert id (.ofEqual reward (pulls + 1))
  have harm : EpsilonGreedy.arm { learner with arms := arms } id = .ofEqual reward pulls := by
    rw [harms, if_pos rfl]
  have hu : later.learner.bandit.update? later.guard.stepLimit id reward
      (none <|> later.learner.lastFeatures.get? id) =
        some (0, .epsilonGreedy { learner with arms := arms' }) := by
    rw [← hlimit] at hl
    simp only [hb, Bandit.update?, EpsilonGreedy.update, harm, AverageArm.update_ofEqual hl]
    rfl
  rw [Engine.reward, applyReward_of_update? (Guard.judgeReward_of_few hcount hclip) rfl hu]
  refine ⟨?_, ?_, arms', WatchedLearner.monitored_bandit _ _, fun other => ?_⟩
  · rw [later_eq]
    rfl
  · have hpush : ∀ (n : Nat) (xs : List ℝ), (Window.push n xs reward).length ≤ xs.length + 1 :=
      fun n xs => (Window.length_push n xs reward).trans_le (min_le_right _ _)
    exact (hpush _ _).trans (Nat.succ_le_succ length_history)
  · rw [EpsilonGreedy.arm_insert { learner with arms := arms }]
    by_cases ho : other = id
    · rw [if_pos ho, if_pos ho]
    · rw [if_neg ho, if_neg ho, harms, if_neg ho]

/-- After a number of equal rewards for an action that had none, its arm holds just these. -/
theorem equallyRewarded_after (hb : engine.learner.bandit = .epsilonGreedy learner)
    (ha : learner.arm id = .fresh) (hc : |reward| ≤ engine.guard.rewards.clip)
    (hl : 0 ≤ engine.guard.stepLimit.rate)
    (hn : engine.guard.rewards.history.length + pulls ≤ engine.guard.rewards.minSamples) :
    engine.EquallyRewarded learner id reward pulls
      (Run.after run engine (List.replicate pulls (.reward id reward))) := by
  induction pulls with
  | zero => exact equallyRewarded_zero hb ha
  | succ pulls ih =>
    rw [List.replicate_succ', Run.after_append]
    exact (ih (by omega)).succ hc hl (by omega)

end ContextAdvisor.Engine
