import ContextAdvisor.Engine.Command
import ContextAdvisor.Proofs.Engine.Decide
import ContextAdvisor.Proofs.EventLog
import ContextAdvisor.Proofs.Run

/-!
# What an operation leaves alone

Each operation of an engine changes a few parts of its state. There is one equation for each of them
that names these parts; whatever holds of the other parts goes on to hold. The equations together
give a frame for every command: which parts it may change follows from its kind.
-/
namespace ContextAdvisor

variable {α : Type}

/-- Is the command about the rules themselves? -/
def Command.editsRules : Command α → Bool
  | loadRules _ => true
  | addRule _ => true
  | removeRule _ => true
  | enableRule _ _ => true
  | importRules _ => true
  | _ => false

/-- Does the command ask the learner, teach it or replace what it has learned? -/
def Command.concernsLearner : Command α → Bool
  | decide _ => true
  | select _ _ => true
  | reward _ _ => true
  | rewardIn _ _ _ => true
  | restoreCheckpoint => true
  | resetLearning => true
  | loadBandit _ => true
  | _ => false

/-- Does the command look for firings, note one or forget one? -/
def Command.concernsFirings : Command α → Bool
  | evaluate _ _ => true
  | decide _ => true
  | removeRule _ => true
  | _ => false

theorem Guard.clip_of_judgeReward [Analytic α] {guard after : Guard α} {reward : α}
    {verdict : Verdict α} (h : guard.judgeReward reward = .ok (verdict, after)) :
    after.rewards.clip = guard.rewards.clip := by
  unfold judgeReward RewardFilter.judge at h
  split_ifs at h
  all_goals
    simp only [Except.ok.injEq, Prod.mk.injEq] at h
    obtain ⟨-, rfl⟩ := h
    rfl

namespace Engine

section

variable [Scalar α]

theorem addRule_eq (engine : Engine α) (rule : Rule α) :
    engine.addRule rule = { engine with table := (engine.addRule rule).table } := by
  unfold addRule
  split <;> rfl

theorem removeRule_snd (engine : Engine α) (id : String) : (engine.removeRule id).2 =
    { engine with
      table := (engine.removeRule id).2.table
      limiter := (engine.removeRule id).2.limiter } := by
  unfold removeRule
  split <;> rfl

theorem enableRule_snd (engine : Engine α) (id : String) (enabled : Bool) :
    (engine.enableRule id enabled).2 =
      { engine with table := (engine.enableRule id enabled).2.table } := by
  unfold enableRule
  split
  · split_ifs <;> rfl
  · rfl

theorem importRules_snd (engine : Engine α) (text : String) :
    (engine.importRules text).2 = { engine with table := (engine.importRules text).2.table } := by
  unfold importRules
  split <;> rfl

theorem observeWifi_snd (engine : Engine α) (ssid : String) :
    (engine.observeWifi ssid).2 = { engine with tray := (engine.observeWifi ssid).2.tray } := by
  simp only [observeWifi]
  split <;> rfl

theorem loadPlaces_snd (engine : Engine α) (text : String) :
    (engine.loadPlaces text).2 = { engine with places := (engine.loadPlaces text).2.places } := by
  unfold loadPlaces
  split <;> rfl

theorem restoreCheckpoint_snd (engine : Engine α) : engine.restoreCheckpoint.2 =
    { engine with learner := { engine.learner with
      bandit := engine.restoreCheckpoint.2.learner.bandit } } := by
  unfold restoreCheckpoint
  split <;> rfl

theorem loadBandit_snd (engine : Engine α) (text : String) : (engine.loadBandit text).2 =
    { engine with learner := { engine.learner with
      bandit := (engine.loadBandit text).2.learner.bandit } } := by
  unfold loadBandit
  split <;> rfl

end

theorem applyReward_snd [Analytic α] (engine : Engine α) (id : String) (reward : α)
    (features : Option (Features α)) : (engine.applyReward id reward features).2 =
      { engine with
        learner := (engine.applyReward id reward features).2.learner
        guard := (engine.applyReward id reward features).2.guard } := by
  simp only [applyReward]
  split
  · rfl
  · split
    · rfl
    · split <;> rfl

/-- What no command changes: the settings, the greatest age of events and the greatest reward. -/
def constants [Scalar α] (engine : Engine α) : Settings α × Duration × α :=
  (engine.settings, engine.events.maxAge, engine.guard.rewards.clip)

theorem applyReward_snd_constants [Analytic α] (engine : Engine α) (id : String) (reward : α)
    (features : Option (Features α)) :
    (engine.applyReward id reward features).2.constants = engine.constants := by
  simp only [applyReward]
  split
  · rfl
  · next verdict guard hj =>
    have hguard : ({ engine with guard := guard } : Engine α).constants = engine.constants :=
      congrArg (fun clip => (engine.settings, engine.events.maxAge, clip))
        (Guard.clip_of_judgeReward hj)
    split
    · exact hguard
    · split <;> exact hguard

/-- What is the same before and after a command. -/
structure Frame [Scalar α] (command : Command α) (before after : Engine α) : Prop where
  constants : after.constants = before.constants
  schedule : after.schedule = before.schedule
  table : command.editsRules = false → after.table = before.table
  learner : command.concernsLearner = false → after.learner = before.learner
  limiter : command.concernsFirings = false → after.limiter = before.limiter

theorem Frame.of_eq [Scalar α] {command : Command α} {before after written : Engine α}
    (h : after = written) (hframe : Frame command before written) : Frame command before after :=
  h ▸ hframe

theorem frame_applyReward [Analytic α] (engine : Engine α) (id : String) (reward : α)
    (features : Option (Features α)) {command : Command α}
    (h : command.concernsLearner = true) :
    Frame command engine (engine.applyReward id reward features).2 := by
  have hsnd := engine.applyReward_snd id reward features
  refine ⟨engine.applyReward_snd_constants id reward features, congrArg (·.schedule) hsnd,
    fun _ => congrArg (·.table) hsnd, fun hnot => ?_, fun _ => congrArg (·.limiter) hsnd⟩
  exact absurd (h.symm.trans hnot) (by decide)

/-- Every command keeps to the parts that its kind concerns. -/
theorem frame_run [Analytic α] (engine : Engine α) (command : Command α) :
    Frame command engine (engine.run command).2 := by
  cases command with
  | pushEvent kind snapshot time =>
    refine ⟨?_, rfl, fun _ => rfl, fun _ => rfl, fun _ => rfl⟩
    exact congrArg (fun age => (engine.settings, age, engine.guard.rewards.clip))
      (engine.events.push_maxAge _)
  | addRule rule =>
    exact .of_eq (engine.addRule_eq rule) ⟨rfl, rfl, nofun, fun _ => rfl, fun _ => rfl⟩
  | removeRule id =>
    exact .of_eq (engine.removeRule_snd id) ⟨rfl, rfl, nofun, fun _ => rfl, nofun⟩
  | enableRule id enabled =>
    exact .of_eq (engine.enableRule_snd id enabled) ⟨rfl, rfl, nofun, fun _ => rfl, fun _ => rfl⟩
  | observeWifi ssid =>
    exact .of_eq (engine.observeWifi_snd ssid) ⟨rfl, rfl, fun _ => rfl, fun _ => rfl, fun _ => rfl⟩
  | evaluate context limit =>
    exact .of_eq (engine.evaluate_snd context limit) ⟨rfl, rfl, fun _ => rfl, fun _ => rfl, nofun⟩
  | decide context =>
    exact .of_eq (engine.decide_snd context) ⟨rfl, rfl, fun _ => rfl, nofun, nofun⟩
  | reward id reward => exact engine.frame_applyReward id reward none rfl
  | rewardIn id reward context =>
    have h : Frame (.rewardIn id reward context) (engine.observeFeatures context).2
        (engine.rewardIn id reward context).2 := frame_applyReward _ id reward _ rfl
    exact ⟨h.constants, h.schedule, h.table, h.learner, h.limiter⟩
  | restoreCheckpoint =>
    exact .of_eq engine.restoreCheckpoint_snd ⟨rfl, rfl, fun _ => rfl, nofun, fun _ => rfl⟩
  | importRules text =>
    exact .of_eq (engine.importRules_snd text) ⟨rfl, rfl, nofun, fun _ => rfl, fun _ => rfl⟩
  | loadBandit text =>
    exact .of_eq (engine.loadBandit_snd text) ⟨rfl, rfl, fun _ => rfl, nofun, fun _ => rfl⟩
  | loadPlaces text =>
    exact .of_eq (engine.loadPlaces_snd text) ⟨rfl, rfl, fun _ => rfl, fun _ => rfl, fun _ => rfl⟩
  | loadRules rules => exact ⟨rfl, rfl, nofun, fun _ => rfl, fun _ => rfl⟩
  | select candidates context => exact ⟨rfl, rfl, fun _ => rfl, nofun, fun _ => rfl⟩
  | resetLearning => exact ⟨rfl, rfl, fun _ => rfl, nofun, fun _ => rfl⟩
  | _ => exact ⟨rfl, rfl, fun _ => rfl, fun _ => rfl, fun _ => rfl⟩

theorem run_snd_settings [Analytic α] (engine : Engine α) (command : Command α) :
    (engine.run command).2.settings = engine.settings :=
  congrArg (·.1) (engine.frame_run command).constants

/-- After every run from the start, the constants are those of the settings. -/
theorem constants_after_start [Analytic α] (settings : Settings α) (clock : Instant)
    (generator : Generator α) (commands : List (Command α)) :
    (Run.after run (start settings clock generator) commands).constants =
      (settings, settings.eventMaxAge, settings.guard.rewardClip) :=
  Run.after_of_kept
    (Q := fun engine : Engine α =>
      engine.constants = (settings, settings.eventMaxAge, settings.guard.rewardClip))
    (fun engine command h => (engine.frame_run command).constants.trans h) rfl commands

/-- Only commands about the rules change the table of rules. -/
theorem run_snd_table [Analytic α] (engine : Engine α) {command : Command α}
    (h : command.editsRules = false) : (engine.run command).2.table = engine.table :=
  (engine.frame_run command).table h

/-- Only commands that concern the learner change it. -/
theorem run_snd_learner [Analytic α] (engine : Engine α) {command : Command α}
    (h : command.concernsLearner = false) : (engine.run command).2.learner = engine.learner :=
  (engine.frame_run command).learner h

end Engine

end ContextAdvisor
