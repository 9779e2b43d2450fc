import ContextAdvisor.Proofs.Engine.Feedback
import ContextAdvisor.Proofs.Engine.Frame

/-!
# Rewards that are not applied

A reward that the guard rejects is counted, and nothing else comes of it: no later command tells an
engine that was given such a reward from one that was not. A reward that counts is not applied if
the learner looks at features and has none for the action. The learner and its monitor stay as they
are then, but the guard remembers the reward and judges later ones by it.
-/
namespace ContextAdvisor

deriving instance DecidableEq for Rollback

deriving instance DecidableEq for RewardOutcome

variable {α : Type}

/-- The counters after one more rejected reward. -/
def Interventions.withRejection (stats : Interventions) : Interventions :=
  { stats with rewardsRejected := stats.rewardsRejected + 1 }

/-- The guard after one more rejected reward. -/
@[simps] def Guard.withRejection (guard : Guard α) : Guard α :=
  { guard with stats := guard.stats.withRejection }

/-- The engine after one more rejected reward. -/
@[simps] def Engine.withRejection [Scalar α] (engine : Engine α) : Engine α :=
  { engine with guard := engine.guard.withRejection }

namespace Guard

variable [Analytic α] (guard : Guard α)

theorem rejects_withRejection (confidence : α) : guard.withRejection.rejects confidence =
    ((guard.rejects confidence).1, (guard.rejects confidence).2.withRejection) := by
  rw [rejects, rejects, withRejection_threshold]
  split <;> rfl

theorem judgeReward_withRejection (reward : α) : guard.withRejection.judgeReward reward =
    (guard.judgeReward reward).map fun judged => (judged.1, judged.2.withRejection) := by
  rw [judgeReward, judgeReward, withRejection_rewards]
  cases guard.rewards.judge reward with
  | error fault => rfl
  | ok judged =>
    obtain ⟨verdict, rewards⟩ := judged
    cases verdict <;> rfl

end Guard

namespace Engine

section

variable [Scalar α] (engine : Engine α)

theorem addRule_withRejection (rule : Rule α) :
    engine.withRejection.addRule rule = (engine.addRule rule).withRejection := by
  rw [addRule, addRule, withRejection_table]
  split <;> rfl

theorem removeRule_withRejection (id : String) : engine.withRejection.removeRule id =
    ((engine.removeRule id).1, (engine.removeRule id).2.withRejection) := by
  rw [removeRule, removeRule, withRejection_table]
  split <;> rfl

theorem enableRule_withRejection (id : String) (enabled : Bool) :
    engine.withRejection.enableRule id enabled =
      ((engine.enableRule id enabled).1, (engine.enableRule id enabled).2.withRejection) := by
  rw [enableRule, enableRule, withRejection_table]
  split
  · split_ifs <;> rfl
  · rfl

theorem put_withRejection (key value : String) (quality : α) (source : Option String) :
    engine.withRejection.put key value quality source =
      (engine.put key value quality source).withRejection := rfl

theorem observeWifi_withRejection (ssid : String) : engine.withRejection.observeWifi ssid =
    ((engine.observeWifi ssid).1, (engine.observeWifi ssid).2.withRejection) := by
  simp only [observeWifi, put_withRejection, withRejection_places]
  split <;> rfl

theorem evaluate_withRejection (context : Context) (limit : Option Nat) :
    engine.withRejection.evaluate context limit =
      ((engine.evaluate context limit).1, (engine.evaluate context limit).2.withRejection) := by
  rw [evaluate, evaluate]
  split <;> rfl

theorem restoreCheckpoint_withRejection : engine.withRejection.restoreCheckpoint =
    (engine.restoreCheckpoint.1, engine.restoreCheckpoint.2.withRejection) := by
  rw [restoreCheckpoint, restoreCheckpoint, withRejection_learner]
  split <;> rfl

theorem importRules_withRejection (text : String) : engine.withRejection.importRules text =
    ((engine.importRules text).1, (engine.importRules text).2.withRejection) := by
  rw [importRules, importRules]
  split <;> rfl

theorem loadBandit_withRejection (text : String) : engine.withRejection.loadBandit text =
    ((engine.loadBandit text).1, (engine.loadBandit text).2.withRejection) := by
  rw [loadBandit, loadBandit, withRejection_learner, withRejection_settings]
  split <;> rfl

theorem loadPlaces_withRejection (text : String) : engine.withRejection.loadPlaces text =
    ((engine.loadPlaces text).1, (engine.loadPlaces text).2.withRejection) := by
  rw [loadPlaces, loadPlaces]
  split <;> rfl

end

variable [Analytic α] (engine : Engine α)

theorem select_withRejection (candidates : List String) (context : Context) :
    engine.withRejection.select candidates context =
      ((engine.select candidates context).1,
        (engine.select candidates context).2.withRejection) := rfl

theorem gate_withRejection (top : RuleMatch α) (choice : Choice (RuleMatch α) α) :
    engine.withRejection.gate top choice =
      ((engine.gate top choice).1, (engine.gate top choice).2.withRejection) := by
  simp only [gate, withRejection_guard, Guard.rejects_withRejection]
  cases engine.guard.rejects choice.confidence with
  | mk rejected guard => cases rejected <;> split <;> rfl

theorem choose_withRejection (top : RuleMatch α) (results : List (RuleMatch α))
    (context : Context) : engine.withRejection.choose top results context =
      ((engine.choose top results context).1,
        (engine.choose top results context).2.withRejection) := by
  have hweights : ∀ engine : Engine α, engine.withRejection.weights = engine.weights :=
    fun _ => rfl
  simp only [choose, select_withRejection, hweights, gate_withRejection]
  split <;> rfl

theorem decide_withRejection (context : Context) : engine.withRejection.decide context =
    ((engine.decide context).1, (engine.decide context).2.withRejection) := by
  simp only [decide, evaluate_withRejection, choose_withRejection]
  split <;> rfl

theorem applyReward_withRejection (id : String) (reward : α) (features : Option (Features α)) :
    engine.withRejection.applyReward id reward features =
      ((engine.applyReward id reward features).1,
        (engine.applyReward id reward features).2.withRejection) := by
  simp only [applyReward, withRejection_guard, Guard.judgeReward_withRejection]
  cases engine.guard.judgeReward reward with
  | error fault => rfl
  | ok judged =>
    obtain ⟨verdict, guard⟩ := judged
    simp only [Except.map, withRejection_learner, Guard.withRejection_stepLimit]
    cases verdict.value? with
    | none => rfl
    | some applied =>
      simp only
      split <;> rfl

theorem rewardIn_withRejection (id : String) (reward : α) (context : Context) :
    engine.withRejection.rewardIn id reward context =
      ((engine.rewardIn id reward context).1,
        (engine.rewardIn id reward context).2.withRejection) :=
  (engine.observeFeatures context).2.applyReward_withRejection id reward _

/-- No command notices another rejection, and each of them keeps it. -/
theorem run_withRejection (command : Command α) : engine.withRejection.run command =
    ((engine.run command).1, (engine.run command).2.withRejection) := by
  cases command with
  | addRule rule => simp only [run, addRule_withRejection]
  | removeRule id => simp only [run, reply, removeRule_withRejection]
  | enableRule id enabled => simp only [run, reply, enableRule_withRejection]
  | observeWifi ssid => simp only [run, reply, observeWifi_withRejection]
  | evaluate context limit => simp only [run, reply, evaluate_withRejection]
  | decide context => simp only [run, reply, decide_withRejection]
  | reward id reward => simp only [run, reply, Engine.reward, applyReward_withRejection]
  | rewardIn id reward context => simp only [run, reply, rewardIn_withRejection]
  | restoreCheckpoint => simp only [run, reply, restoreCheckpoint_withRejection]
  | importRules text => simp only [run, reply, importRules_withRejection]
  | loadBandit text => simp only [run, reply, loadBandit_withRejection]
  | loadPlaces text => simp only [run, reply, loadPlaces_withRejection]
  | _ => rfl

/-- No run notices another rejection. -/
theorem answers_withRejection (commands : List (Command α)) :
    Run.answers run engine.withRejection commands = Run.answers run engine commands ∧
      Run.after run engine.withRejection commands = (Run.after run engine commands).withRejection :=
  Run.answers_of_related (R := fun s t : Engine α => s = t.withRejection)
    (fun s t command h => by rw [h, run_withRejection]; exact ⟨rfl, rfl⟩) rfl commands

end Engine

/-- The filter once it remembers a reward, clipped to the range of rewards. -/
def RewardFilter.remember [Scalar α] (filter : RewardFilter α) (reward : α) : RewardFilter α :=
  let value := Scalar.clamp reward (-filter.clip) filter.clip
  { filter with history := Window.push filter.capacity filter.history value }

/-- A reward is rejected and forgotten, or it counts and is remembered. -/
theorem RewardFilter.judge_cases [Analytic α] {filter after : RewardFilter α} {reward : α}
    {verdict : Verdict α} (h : filter.judge reward = .ok (verdict, after)) :
    verdict = .rejected ∧ after = filter ∨
      verdict.value?.isSome ∧ after = filter.remember reward := by
  unfold judge at h
  split at h
  · cases h
    exact .inl ⟨rfl, rfl⟩
  · split at h
    · obtain ⟨hverdict, hafter⟩ := Prod.mk.inj (Except.ok.inj h)
      refine .inr ⟨?_, hafter.symm⟩
      rw [← hverdict]
      split <;> rfl
    · cases h

/-- Only a learner that looks at features fails to take a reward into account, for want of them. -/
theorem Bandit.of_update?_eq_none [Scalar α] {limit : StepLimit α} {bandit : Bandit α}
    {id : String} {reward : α} {features : Option (Features α)}
    (h : bandit.update? limit id reward features = none) :
    bandit.strategy = .linUcb ∧ features = none := by
  cases bandit with
  | epsilonGreedy learner => cases h
  | linUcb learner => exact ⟨rfl, Option.map_eq_none_iff.mp h⟩

namespace Engine

variable [Analytic α] {engine after : Engine α} {id : String} {reward : α}

/-- A rejected reward is counted, and that is all. -/
theorem applyReward_of_rejected
    (hj : engine.guard.rewards.judge reward = .ok (.rejected, engine.guard.rewards))
    (features : Option (Features α)) :
    engine.applyReward id reward features = (.ok .none, engine.withRejection) := by
  have hguard : engine.guard.judgeReward reward = .ok (.rejected, engine.guard.withRejection) := by
    rw [Guard.judgeReward, hj]
    rfl
  simp only [applyReward, hguard, Verdict.value?]
  rfl

/-- A reward that is not applied leaves the learner and its monitor alone. If it was rejected, no
later run notices it. Else the learner looks at features and has none for the action, and the guard
remembers the reward. -/
theorem reward_unapplied {outcome : RewardOutcome α}
    (h : engine.reward id reward = (.ok outcome, after)) (hnone : outcome.applied = none) :
    outcome.rollback = none ∧ after.learner = engine.learner ∧
      ((engine.guard.rewards.judge reward = .ok (.rejected, engine.guard.rewards) ∧
          after = engine.withRejection ∧
          ∀ commands, Run.answers run after commands = Run.answers run engine commands ∧
            Run.after run after commands = (Run.after run engine commands).withRejection) ∨
        (∃ verdict, verdict.value?.isSome ∧ engine.guard.rewards.judge reward =
            .ok (verdict, engine.guard.rewards.remember reward) ∧
          engine.learner.bandit.strategy = .linUcb ∧
          engine.learner.lastFeatures.get? id = none ∧
          after = { engine with guard := { engine.guard with
            rewards := engine.guard.rewards.remember reward
            stats := Guard.noteVerdict engine.guard.stats verdict } })) := by
  cases hj : engine.guard.rewards.judge reward with
  | error fault =>
    have hguard : engine.guard.judgeReward reward = .error fault := by rw [Guard.judgeReward, hj]
    rw [Engine.reward, applyReward, hguard] at h
    cases h
  | ok judged =>
    obtain ⟨verdict, rewards⟩ := judged
    rcases RewardFilter.judge_cases hj with ⟨rfl, rfl⟩ | ⟨hcounts, rfl⟩
    · rw [Engine.reward, applyReward_of_rejected hj] at h
      cases h
      exact ⟨rfl, rfl, .inl ⟨rfl, rfl, engine.answers_withRejection⟩⟩
    · obtain ⟨value, hvalue⟩ := Option.isSome_iff_exists.mp hcounts
      let guard := { engine.guard with
        rewards := engine.guard.rewards.remember reward
        stats := Guard.noteVerdict engine.guard.stats verdict }
      have hguard : engine.guard.judgeReward reward = .ok (verdict, guard) := by
        rw [Guard.judgeReward, hj]
      cases hu : engine.learner.bandit.update? guard.stepLimit id value
          (none <|> engine.learner.lastFeatures.get? id) with
      | some updated =>
        rw [Engine.reward, applyReward_of_update? hguard hvalue hu] at h
        cases h
        cases hnone
      | none =>
        have hresult : engine.reward id reward = (.ok .none, { engine with guard := guard }) := by
          simp only [Engine.reward, applyReward, hguard, hvalue, hu]
        rw [hresult] at h
        cases h
        obtain ⟨hstrategy, hfeatures⟩ := Bandit.of_update?_eq_none hu
        exact ⟨rfl, rfl, .inr ⟨verdict, hcounts, rfl, hstrategy, hfeatures, rfl⟩⟩

/-- Rewards are rejected if they lie more than one deviation from the mean of two or more. -/
def wary (strategy : Strategy) : Settings Float := { Settings.standard with
  bandit := { BanditSettings.standard with strategy := strategy }
  guard := { GuardSettings.standard with rewardMinSamples := 2, rewardSigma := 1 } }

/-- After the rewards 0 and 2 the reward 3 is rejected and leaves no trace. -/
theorem reward_unapplied_lamp :
    let engine := Run.after run (start (wary .epsilonGreedy) 0 .steadyFloat)
      [.reward "lamp" 0, .reward "lamp" 2]
    let after := (engine.reward "lamp" 3).2
    engine.reward "lamp" 3 = (.ok .none, after) ∧ after.learner = engine.learner ∧
      ∀ commands, Run.answers run after commands = Run.answers run engine commands := by
  intro engine after
  have hnone : (engine.reward "lamp" 3).1 = .ok .none := by decide +kernel
  have h : engine.reward "lamp" 3 = (.ok .none, after) := by rw [← hnone]
  have hstrategy : engine.learner.bandit.strategy ≠ .linUcb := by decide +kernel
  obtain ⟨-, hlearner, ⟨-, -, hanswers⟩ | ⟨_, -, -, hlinear, -⟩⟩ := reward_unapplied h rfl
  · exact ⟨h, hlearner, fun commands => (hanswers commands).1⟩
  · exact absurd hlinear hstrategy

/-- A reward that the learner has no features for is remembered, and a later one that would have
been applied is rejected because of it. -/
theorem unapplied_reward_remembered :
    let engine := (run (start (wary .linUcb) 0 .steadyFloat) (.rewardIn "lamp" 0 ∅)).2
    let after := (engine.reward "alarm" 2).2
    (engine.reward "alarm" 2).1 = .ok .none ∧
      engine.guard.rewards.history = [0] ∧ after.guard.rewards.history = [0, 2] ∧
      (engine.rewardIn "lamp" 3 ∅).1 = .ok ⟨some 3, none⟩ ∧
      (after.rewardIn "lamp" 3 ∅).1 = .ok .none := by
  decide +kernel

end Engine

end ContextAdvisor
