import ContextAdvisor.Engine.Feedback
import ContextAdvisor.Proofs.Engine.Decide
import ContextAdvisor.Proofs.Learning.LinUcb

/-!
# Feedback on a decision

The learner that looks at the context notes the features of a decision under the action of its own
selection. If that is the action decided on, feedback counts under the features of the decision.
If the rules decided otherwise, feedback counts under the features of an earlier choice of the
action, and is lost if there was none.
-/
namespace ContextAdvisor

variable {α : Type}

/-- One of the indicators of the state of motion is always set. -/
theorem Situation.exists_get_features_ne_zero (s : Situation ℝ) :
    ∃ i, s.features.get i ≠ 0 := by
  have hset : (1.0 : ℝ) ≠ 0 := by norm_num
  obtain ⟨hour, batteryLevel, isCharging, isWeekend, motion⟩ := s
  cases motion with
  | stationary => exact ⟨⟨5, by decide⟩, hset⟩
  | walking => exact ⟨⟨6, by decide⟩, hset⟩
  | running => exact ⟨⟨7, by decide⟩, hset⟩
  | driving => exact ⟨⟨8, by decide⟩, hset⟩
  | unknown => exact ⟨⟨9, by decide⟩, hset⟩

/-- As long as there are few rewards, the next one counts as it is if it need not be clipped. -/
theorem RewardFilter.judge_of_few {filter : RewardFilter ℝ} {reward : ℝ}
    (hn : filter.history.length < filter.minSamples) (hc : |reward| ≤ filter.clip) :
    filter.judge reward = .ok (.accepted reward,
      { filter with history := Window.push filter.capacity filter.history reward }) := by
  obtain ⟨hlow, hhigh⟩ := abs_le.mp hc
  have hclamp : Scalar.clamp reward (-filter.clip) filter.clip = reward := by
    rw [Scalar.clamp, if_neg hlow.not_gt, if_neg hhigh.not_gt]
  simp [judge, isOutlier, hn, hlow.trans hhigh, hclamp]

theorem Guard.judgeReward_of_few {guard : Guard ℝ} {reward : ℝ}
    (hn : guard.rewards.history.length < guard.rewards.minSamples)
    (hc : |reward| ≤ guard.rewards.clip) :
    guard.judgeReward reward = .ok (.accepted reward, { guard with
      rewards := { guard.rewards with
        history := Window.push guard.rewards.capacity guard.rewards.history reward } }) := by
  rw [judgeReward, RewardFilter.judge_of_few hn hc]
  rfl

namespace WatchedLearner

variable [Scalar α] (learner : WatchedLearner α) (reward : α)

/-- The monitor watches the learner and leaves it as it is. -/
@[simp] theorem monitored_bandit : (learner.monitored reward).2.bandit = learner.bandit := by
  unfold monitored
  split <;> rfl

@[simp] theorem monitored_lastFeatures :
    (learner.monitored reward).2.lastFeatures = learner.lastFeatures := by
  unfold monitored
  split <;> rfl

end WatchedLearner

namespace Engine

variable [Analytic α]

/-- A choice leaves the learner as its selection leaves it. -/
theorem choose_snd_learner (engine : Engine α) (top : RuleMatch α) (results : List (RuleMatch α))
    (context : Context) : (engine.choose top results context).2.learner =
      (engine.select (actionIds results) context).2.learner :=
  congrArg (·.learner) (engine.choose_snd top results context)

/-- The action that the learner selects for a decision. -/
def selected? (engine : Engine α) (context : Context) : Option String :=
  (engine.select (actionIds (engine.evaluate context none).1) context).1.map (·.actionId)

/-- The features that are noted for an action once a decision is made: those of the decision if
the learner selected the action, else those that were noted before. -/
def notedFeatures? (engine : Engine α) (context : Context) (id : String) : Option (Features α) :=
  if engine.selected? context = some id then some (engine.observeFeatures context).1
  else engine.learner.lastFeatures.get? id

/-- A selection notes its features under the selected action. -/
theorem select_snd_lastFeatures (engine : Engine α) (candidates : List String) (context : Context)
    (id : String) : (engine.select candidates context).2.learner.lastFeatures.get? id =
      if (engine.select candidates context).1.map (·.actionId) = some id then
        some (engine.observeFeatures context).1
      else engine.learner.lastFeatures.get? id := by
  simp only [select]
  split
  · next s hs =>
    simp only [hs, Dictionary.get?_insert, Option.map_some, Option.some.injEq, eq_comm]
    rfl
  · next hs =>
    simp only [hs, Option.map_none]
    rfl

/-- A decision comes from a choice on the reported results. -/
theorem exists_choose_of_decide {engine after : Engine α} {context : Context} {d : Decision α}
    (h : engine.decide context = (some d, after)) :
    ∃ top, (engine.evaluate context none).2.choose top (engine.evaluate context none).1 context =
      (some d, after) := by
  cases hr : (engine.evaluate context none).1 with
  | nil => simp [decide, hr] at h
  | cons top rest => exact ⟨top, by rw [← decide_of_cons hr, h]⟩

/-- After a decision an action has the features that are noted for it. -/
theorem decide_snd_lastFeatures {engine after : Engine α} {context : Context} {d : Decision α}
    (h : engine.decide context = (some d, after)) (id : String) :
    after.learner.lastFeatures.get? id = engine.notedFeatures? context id := by
  obtain ⟨top, hc⟩ := exists_choose_of_decide h
  calc
    _ = ((engine.evaluate context none).2.select
          (actionIds (engine.evaluate context none).1) context).2.learner.lastFeatures.get? id := by
      rw [← choose_snd_learner, hc]
    _ = _ := by
      rw [select_snd_lastFeatures, evaluate_snd]
      rfl

/-- Deciding leaves a learner that looks at the context as it is. -/
theorem decide_snd_bandit {engine after : Engine α} {learner : LinUcb α featureCount}
    {context : Context} {d : Decision α} (hb : engine.learner.bandit = .linUcb learner)
    (h : engine.decide context = (some d, after)) : after.learner.bandit = .linUcb learner := by
  obtain ⟨top, hc⟩ := exists_choose_of_decide h
  have hs : after.learner = _ := (congrArg (·.2.learner) hc).symm.trans (choose_snd_learner _ _ _ _)
  have he : (engine.evaluate context none).2.learner.bandit = .linUcb learner := by
    rw [evaluate_snd]
    exact hb
  rw [hs]
  simp only [select, observeFeatures, he, Bandit.select]

/-- Deciding leaves the remembered rewards as they are. -/
theorem decide_snd_rewards (engine : Engine α) (context : Context) :
    (engine.decide context).2.guard.rewards = engine.guard.rewards :=
  congrArg (·.guard.rewards) (engine.decide_snd context)

/-- When the learner gets its way, the action is the one that it selected. -/
theorem selected?_of_learned {engine after : Engine α} {context : Context} {d : Decision α}
    (h : engine.decide context = (some d, after)) (hs : d.source = .learned) :
    engine.selected? context = some d.result.action.id := by
  obtain ⟨top, hc⟩ := exists_choose_of_decide h
  obtain ⟨d', hd', -, hcases⟩ := choose_cases (engine.evaluate context none).2 top
    (engine.evaluate context none).1 context
  obtain rfl : d = d' := Option.some.inj ((congrArg (·.1) hc).symm.trans hd')
  obtain ⟨-, -, selected, hsel, hfind, -⟩ := hcases.resolve_left fun hrules => hrules.1 hs
  have hid : d.result.action.id = selected.actionId := by simpa using List.find?_some hfind
  rw [evaluate_snd] at hsel
  rw [hid]
  exact congrArg (Option.map (·.actionId)) hsel

section

variable {engine : Engine α} {learner : LinUcb α featureCount} {reward applied : α}
  {verdict : Verdict α} {guard : Guard α}

/-- Without features a reward that counts changes the guard only. -/
theorem applyReward_of_eq_none (hb : engine.learner.bandit = .linUcb learner)
    (hj : engine.guard.judgeReward reward = .ok (verdict, guard))
    (hv : verdict.value? = some applied) {id : String} {features : Option (Features α)}
    (hx : (features <|> engine.learner.lastFeatures.get? id) = none) :
    engine.applyReward id reward features = (.ok .none, { engine with guard := guard }) := by
  simp only [applyReward, hj, hv, hb, hx, Bandit.update?, Option.map_none]

/-- A reward that counts goes to the learner, if the learner can do something with it, and then to
the monitor. -/
theorem applyReward_of_update? {held : Nat} {bandit : Bandit α}
    (hj : engine.guard.judgeReward reward = .ok (verdict, guard))
    (hv : verdict.value? = some applied) {id : String} {features : Option (Features α)}
    (hu : engine.learner.bandit.update? guard.stepLimit id applied
      (features <|> engine.learner.lastFeatures.get? id) = some (held, bandit)) :
    engine.applyReward id reward features =
      let watched := { engine.learner with bandit := bandit }.monitored applied
      (.ok ⟨some applied, watched.1⟩,
        { engine with learner := watched.2, guard := guard.noteClamped held }) := by
  simp only [applyReward, hj, hv, hu]

/-- A reward that counts updates the arm of its action under the features that go with it. -/
theorem applyReward_of_eq_some (hb : engine.learner.bandit = .linUcb learner)
    (hj : engine.guard.judgeReward reward = .ok (verdict, guard))
    (hv : verdict.value? = some applied) {id : String} {features : Option (Features α)}
    {x : Features α} (hx : (features <|> engine.learner.lastFeatures.get? id) = some x) :
    engine.applyReward id reward features =
      let updated := learner.update guard.stepLimit id x applied
      let watched := { engine.learner with bandit := .linUcb updated.2 }.monitored applied
      (.ok ⟨some applied, watched.1⟩,
        { engine with learner := watched.2, guard := guard.noteClamped updated.1 }) :=
  applyReward_of_update? hj hv (by rw [hb, hx]; rfl)

end

/-- Feedback on the action of a decision counts under the features that are noted for it, and is
lost if there are none. These are the features of the decision exactly if the learner selected
the action, as it did whenever it got its way, or the same features had been noted before. -/
theorem reward_after_decide {engine after : Engine α} {learner : LinUcb α featureCount}
    {context : Context} {d : Decision α} {reward applied : α} {verdict : Verdict α}
    {guard : Guard α} (hb : engine.learner.bandit = .linUcb learner)
    (hd : engine.decide context = (some d, after))
    (hj : after.guard.judgeReward reward = .ok (verdict, guard))
    (hv : verdict.value? = some applied) :
    let id := d.result.action.id
    (engine.notedFeatures? context id = none →
        after.reward id reward = (.ok .none, { after with guard := guard })) ∧
      (∀ x, engine.notedFeatures? context id = some x →
        ∃ rollback, (after.reward id reward).1 = .ok ⟨some applied, rollback⟩ ∧
          (after.reward id reward).2.learner.bandit =
            .linUcb (learner.update guard.stepLimit id x applied).2) ∧
      (engine.notedFeatures? context id = some (engine.observeFeatures context).1 ↔
        engine.selected? context = some id ∨
          engine.learner.lastFeatures.get? id = some (engine.observeFeatures context).1) ∧
      (d.source = .learned → engine.selected? context = some id) := by
  intro id
  have hbandit := decide_snd_bandit hb hd
  have hnoted := decide_snd_lastFeatures hd id
  refine ⟨fun h => ?_, fun x h => ?_, ?_, selected?_of_learned hd⟩
  · exact applyReward_of_eq_none hbandit hj hv (hnoted.trans h)
  · rw [Engine.reward, applyReward_of_eq_some hbandit hj hv (hnoted.trans h)]
    exact ⟨_, rfl, WatchedLearner.monitored_bandit _ _⟩
  · unfold notedFeatures?
    by_cases hs : engine.selected? context = some id <;> simp [hs]

/-- A reward after a decision is judged as before it. -/
theorem exists_judgeReward_of_decide {engine after : Engine ℝ} {context : Context}
    {d : Decision ℝ} {reward : ℝ} (hd : engine.decide context = (some d, after))
    (hn : engine.guard.rewards.history.length < engine.guard.rewards.minSamples)
    (hc : |reward| ≤ engine.guard.rewards.clip) :
    ∃ guard, after.guard.judgeReward reward = .ok (.accepted reward, guard) := by
  have hr : after.guard.rewards = engine.guard.rewards := by
    rw [← decide_snd_rewards engine context, hd]
  rw [← hr] at hn hc
  exact ⟨_, Guard.judgeReward_of_few hn hc⟩

/-- The usual settings with the learner that looks at the context, and no width. -/
noncomputable def contextual : Settings ℝ :=
  { Settings.standard with
    bandit := { BanditSettings.standard with strategy := .linUcb, alpha := 0 } }

theorem abs_one_le_rewardClip : |(1 : ℝ)| ≤ contextual.guard.rewardClip := by
  show |(1 : ℝ)| ≤ 3.0
  norm_num

/-- An engine with two rules that fit every context alike. -/
noncomputable def undivided : Engine ℝ :=
  (start contextual 0 .steady).loadRules (lampAndAlarm 0 0)

/-- The same engine after a reward for an action. -/
noncomputable def rewardedFor (id : String) : Engine ℝ := (undivided.rewardIn id 1 ∅).2

theorem rewardedFor_eq (id : String) :
    let seen := undivided.observeFeatures ∅
    let guard := { seen.2.guard with rewards := { seen.2.guard.rewards with history := [1] } }
    let updated := (LinUcb.ofParameters 0 0.99 .diagonal).update guard.stepLimit id seen.1 1
    let watched := { seen.2.learner with bandit := .linUcb updated.2 }.monitored 1
    rewardedFor id =
      { seen.2 with learner := watched.2, guard := guard.noteClamped updated.1 } := by
  intro seen guard updated watched
  have hj : seen.2.guard.judgeReward 1 = .ok (.accepted 1, guard) :=
    Guard.judgeReward_of_few (by decide) abs_one_le_rewardClip
  have hx : (some seen.1 <|> seen.2.learner.lastFeatures.get? id) = some seen.1 := rfl
  exact congrArg (·.2) (applyReward_of_eq_some rfl hj rfl hx)

theorem evaluate_rewardedFor (id : String) :
    ((rewardedFor id).evaluate ∅ none).1 = [lampResult, alarmResult] := by
  have hplain : (rewardedFor id).HoldsPlain (lampAndAlarm 0 0) := by
    rw [rewardedFor_eq]
    exact holdsPlain_lampAndAlarm rfl rfl
  have hl : (rewardedFor id).limiter = .ofLimits .standard := by
    rw [rewardedFor_eq]
    rfl
  exact congrArg (·.1) (evaluate_lampAndAlarm hplain hl)

/-- The learner selects the action that was rewarded. -/
theorem selected?_rewardedFor {id : String} (hid : id = "lamp" ∨ id = "alarm") :
    (rewardedFor id).selected? ∅ = some id := by
  have hb : (rewardedFor id).learner.bandit =
      .linUcb ((LinUcb.ofParameters 0 0.99 .diagonal).update (.ofRate 0.05) id
        (undivided.observeFeatures ∅).1 1).2 := by
    rw [rewardedFor_eq]
    simp only [WatchedLearner.monitored_bandit]
    rfl
  have hx : ((rewardedFor id).observeFeatures ∅).1 = (undivided.observeFeatures ∅).1 := by
    rw [rewardedFor_eq]
    rfl
  have hrate : 0 < (StepLimit.ofRate (0.05 : ℝ)).rate := by
    rw [StepLimit.ofRate, Scalar.exact_abs]
    norm_num
  have hs : ((rewardedFor id).select (actionIds ((rewardedFor id).evaluate ∅ none).1) ∅).1 =
      ((rewardedFor id).learner.bandit.select ["lamp", "alarm"]
        ((rewardedFor id).observeFeatures ∅).1).1 := by
    rw [evaluate_rewardedFor]
    rfl
  have hfeatures : ∃ i, (undivided.observeFeatures ∅).1.get i ≠ 0 :=
    Situation.exists_get_features_ne_zero _
  rw [selected?, hs, hb, hx]
  rcases hid with rfl | rfl
  · exact LinUcb.select_of_first_reward hrate 0.99 one_pos hfeatures
      (by decide : "alarm" ≠ "lamp") (.inr rfl)
  · exact LinUcb.select_of_first_reward hrate 0.99 one_pos hfeatures
      (by decide : "lamp" ≠ "alarm") (.inl rfl)

/-- The rules decide on the lamp whatever was rewarded, and a reward for the decision counts. -/
theorem exists_decision_rewardedFor (id : String) : ∃ learner d after guard,
    (rewardedFor id).learner.bandit = .linUcb learner ∧
    (rewardedFor id).decide ∅ = (some d, after) ∧ d.result = lampResult ∧
    after.guard.judgeReward 1 = .ok (.accepted 1, guard) := by
  have hphase : (rewardedFor id).phase = .bootstrap := by
    rw [rewardedFor_eq]
    exact undivided.schedule.phase_install
  obtain ⟨learner, hb⟩ : ∃ learner, (rewardedFor id).learner.bandit = .linUcb learner := by
    rw [rewardedFor_eq]
    exact ⟨_, WatchedLearner.monitored_bandit _ _⟩
  obtain ⟨d, after, hd, hjust⟩ := exists_justified_decide (evaluate_rewardedFor id)
  have hresult : d.result = lampResult :=
    (Option.some.inj (hjust.of_rules (hjust.of_bootstrap hphase)).1).symm
  have hrewards : (rewardedFor id).guard.rewards =
      { undivided.guard.rewards with history := [1] } := by
    rw [rewardedFor_eq]
    rfl
  have hclip : |(1 : ℝ)| ≤ (rewardedFor id).guard.rewards.clip := by
    rw [hrewards]
    exact abs_one_le_rewardClip
  obtain ⟨guard, hj⟩ := exists_judgeReward_of_decide hd (by rw [hrewards]; decide) hclip
  exact ⟨learner, d, after, guard, hb, hd, hresult, hj⟩

/-- The rules decide on the lamp, which the learner has selected as well, and feedback counts. -/
theorem reward_after_decide_agreed :
    let engine := rewardedFor "lamp"
    ∃ learner d after guard rollback, engine.learner.bandit = .linUcb learner ∧
      engine.decide ∅ = (some d, after) ∧ d.result.action.id = "lamp" ∧
      engine.selected? ∅ = some "lamp" ∧
      after.guard.judgeReward 1 = .ok (.accepted 1, guard) ∧
      (after.reward d.result.action.id 1).1 = .ok ⟨some 1, rollback⟩ := by
  intro engine
  obtain ⟨learner, d, after, guard, hb, hd, hresult, hj⟩ := exists_decision_rewardedFor "lamp"
  have hid : d.result.action.id = "lamp" := by
    rw [hresult]
    rfl
  have hselected : engine.selected? ∅ = some "lamp" := selected?_rewardedFor (.inl rfl)
  obtain ⟨-, hcounts, hnoted, -⟩ := reward_after_decide hb hd hj rfl
  rw [hid] at hcounts hnoted
  obtain ⟨rollback, hr, -⟩ := hcounts _ (hnoted.mpr (.inl hselected))
  exact ⟨learner, d, after, guard, rollback, hb, hd, hid, hselected, hj, hid ▸ hr⟩

/-- The rules decide on the lamp although the learner has selected the alarm, and feedback on the
decision is lost. -/
theorem feedback_lost : ∃ d after guard, (rewardedFor "alarm").decide ∅ = (some d, after) ∧
    after.guard.judgeReward 1 = .ok (.accepted 1, guard) ∧
    (after.reward d.result.action.id 1).1 = .ok .none := by
  obtain ⟨learner, d, after, guard, hb, hd, hresult, hj⟩ := exists_decision_rewardedFor "alarm"
  refine ⟨d, after, guard, hd, hj, ?_⟩
  have hlast : (rewardedFor "alarm").learner.lastFeatures = ∅ := by
    rw [rewardedFor_eq]
    simp only [WatchedLearner.monitored_lastFeatures]
    rfl
  have hx : after.learner.lastFeatures.get? d.result.action.id = none := by
    rw [hresult, decide_snd_lastFeatures hd, notedFeatures?, selected?_rewardedFor (.inr rfl),
      if_neg (by decide), hlast, Dictionary.get?_empty]
  rw [Engine.reward, applyReward_of_eq_none (decide_snd_bandit hb hd) hj rfl hx]

end Engine

end ContextAdvisor
