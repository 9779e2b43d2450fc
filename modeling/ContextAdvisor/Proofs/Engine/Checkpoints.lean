import ContextAdvisor.Proofs.Engine.Feedback
import ContextAdvisor.Proofs.Engine.Frame
import ContextAdvisor.Proofs.Run
import ContextAdvisor.Proofs.Safeguard.MonitorLog

/-!
# Checkpoints over a run

Only rewards that count reach the monitor. It numbers them, and at some of them it keeps the arms
that the learner has right after the update. Nothing else touches what it keeps: neither a restored
checkpoint nor loaded or forgotten arms. So a restored checkpoint brings back the arms of the last
update at which one was stored, and the advice to roll back names the number of that update.
-/
namespace ContextAdvisor

variable {α : Type}

namespace Monitor

variable {π : Type} [Scalar α]

/-- An observation counts the reward, and either nothing follows from it, or a checkpoint is due, or
the average has fallen. -/
theorem observe_cases (monitor : Monitor π α) (reward : α) :
    monitor.observe reward = (.nothing, monitor.withReward reward) ∨
      monitor.observe reward =
        (.checkpointDue (monitor.withReward reward).average, monitor.withReward reward) ∨
      ∃ signal, (monitor.withReward reward).regression? = some signal ∧
        monitor.observe reward = (.rollback signal,
          { monitor.withReward reward with window := [], rollbacks := monitor.rollbacks + 1 }) := by
  unfold observe withReward
  dsimp only
  split_ifs with hshort hdue
  · exact .inl rfl
  · split
    · next signal hr => exact .inr (.inr ⟨signal, hr, rfl⟩)
    · exact .inr (.inl rfl)
  · split
    · next signal hr => exact .inr (.inr ⟨signal, hr, rfl⟩)
    · exact .inl rfl

/-- The advice to roll back names the update of the latest checkpoint. -/
theorem checkpointUpdate_of_regression? {monitor : Monitor π α} {signal : Rollback α}
    (h : monitor.regression? = some signal) :
    ∃ c, monitor.checkpoint = some c ∧ signal.checkpointUpdate = c.atUpdate := by
  simp only [regression?] at h
  split at h
  · next c hc =>
    split_ifs at h
    cases h
    exact ⟨c, hc, rfl⟩
  · cases h

end Monitor

namespace Bandit

theorem select_snd_strategy [Analytic α] (bandit : Bandit α) (candidates : List String)
    (x : Features α) : (bandit.select candidates x).2.strategy = bandit.strategy := by
  cases bandit <;> rfl

theorem strategy_of_update? [Scalar α] {limit : StepLimit α} {bandit next : Bandit α} {id : String}
    {reward : α} {features : Option (Features α)} {held : Nat}
    (h : bandit.update? limit id reward features = some (held, next)) :
    next.strategy = bandit.strategy := by
  cases bandit with
  | epsilonGreedy learner =>
    cases h
    rfl
  | linUcb learner =>
    obtain ⟨x, -, hx⟩ := Option.map_eq_some_iff.mp h
    cases hx
    rfl

theorem strategy_of_restore? [Scalar α] {bandit next : Bandit α} {table : Arms α}
    (h : bandit.restore? table = some next) : next.strategy = bandit.strategy := by
  cases bandit <;> cases table <;> cases h <;> rfl

theorem reset_strategy [Scalar α] (bandit : Bandit α) :
    bandit.reset.strategy = bandit.strategy := by
  cases bandit <;> rfl

theorem strategy_arms [Scalar α] (bandit : Bandit α) : bandit.arms.strategy = bandit.strategy := by
  cases bandit <;> rfl

/-- Arms can be restored in every learner with their strategy. -/
theorem exists_restore? [Scalar α] {bandit : Bandit α} {table : Arms α}
    (h : bandit.strategy = table.strategy) :
    ∃ next, bandit.restore? table = some next ∧ next.arms = table := by
  cases bandit <;> cases table <;> cases h <;> exact ⟨_, rfl, rfl⟩

/-- The arms of a learner can be restored in every learner with the same strategy. -/
theorem exists_restore?_arms [Scalar α] {bandit other : Bandit α}
    (h : bandit.strategy = other.strategy) :
    ∃ next, bandit.restore? other.arms = some next ∧ next.arms = other.arms :=
  exists_restore? (h.trans other.strategy_arms.symm)

end Bandit

/-- Does the reply say that a reward was taken into account? -/
def Reply.counted : Reply α → Bool
  | .reward (.ok outcome) => outcome.applied.isSome
  | _ => false

/-- The advice to roll back in a reply. -/
def Reply.rollback? : Reply α → Option (Rollback α)
  | .reward (.ok outcome) => outcome.rollback
  | _ => none

/-- What a command with some reply does to the monitor: it either leaves it alone, or counts a
reward, or counts a reward and keeps the arms that the learner has then. -/
inductive Observed [Scalar α] (monitor : Monitor (Arms α) α) (reply : Reply α)
    (after : WatchedLearner α) : Prop where
  | nothing (hr : reply.counted = false) (hm : after.monitor = monitor)
  | reward (hr : reply.counted = true) (hu : after.monitor.updates = monitor.updates + 1)
    (hc : after.monitor.checkpoint = monitor.checkpoint)
    (hn : after.monitor.checkpoints = monitor.checkpoints)
  | checkpoint (average : α) (hr : reply.counted = true)
    (hu : after.monitor.updates = monitor.updates + 1)
    (hc : after.monitor.checkpoint = some ⟨after.bandit.arms, average, after.monitor.updates⟩)
    (hn : after.monitor.checkpoints = monitor.checkpoints + 1)

namespace WatchedLearner

variable [Scalar α]

theorem observed_monitored (learner : WatchedLearner α) (reward : α) :
    Observed learner.monitor
      (.reward (.ok ⟨some reward, (learner.monitored reward).1⟩)) (learner.monitored reward).2 := by
  unfold monitored
  rcases learner.monitor.observe_cases reward with h | h | ⟨signal, -, h⟩
  · rw [h]
    exact .reward rfl rfl rfl rfl
  · rw [h]
    exact .checkpoint _ rfl rfl rfl rfl
  · rw [h]
    exact .reward rfl rfl rfl rfl

theorem checkpointUpdate_of_monitored {learner : WatchedLearner α} {reward : α}
    {signal : Rollback α} (h : (learner.monitored reward).1 = some signal) :
    ∃ c, learner.monitor.checkpoint = some c ∧ signal.checkpointUpdate = c.atUpdate := by
  unfold monitored at h
  rcases learner.monitor.observe_cases reward with ho | ho | ⟨s, hs, ho⟩
  · rw [ho] at h
    cases h
  · rw [ho] at h
    cases h
  · rw [ho] at h
    cases h
    obtain ⟨c, hc, hu⟩ := Monitor.checkpointUpdate_of_regression? hs
    exact ⟨c, hc, hu⟩

end WatchedLearner

namespace Engine

variable [Analytic α]

/-- A reward is not taken into account, or the learner is updated and the monitor sees it. -/
theorem applyReward_cases (engine : Engine α) (id : String) (reward : α)
    (features : Option (Features α)) :
    ((Reply.reward (engine.applyReward id reward features).1).counted = false ∧
      (Reply.reward (engine.applyReward id reward features).1).rollback? = none ∧
      (engine.applyReward id reward features).2.learner = engine.learner) ∨
    ∃ (learner : WatchedLearner α) (applied : α), learner.monitor = engine.learner.monitor ∧
      learner.bandit.strategy = engine.learner.bandit.strategy ∧
      (engine.applyReward id reward features).1 =
        .ok ⟨some applied, (learner.monitored applied).1⟩ ∧
      (engine.applyReward id reward features).2.learner = (learner.monitored applied).2 := by
  simp only [applyReward]
  split
  · exact .inl ⟨rfl, rfl, rfl⟩
  · split
    · exact .inl ⟨rfl, rfl, rfl⟩
    · next applied _ =>
      split
      · exact .inl ⟨rfl, rfl, rfl⟩
      · next held bandit hu =>
        exact .inr ⟨{ engine.learner with bandit := bandit }, applied, rfl,
          Bandit.strategy_of_update? hu, rfl, rfl⟩

theorem observed_applyReward (engine : Engine α) (id : String) (reward : α)
    (features : Option (Features α)) :
    Observed engine.learner.monitor (.reward (engine.applyReward id reward features).1)
      (engine.applyReward id reward features).2.learner := by
  rcases engine.applyReward_cases id reward features with
    ⟨hr, -, hl⟩ | ⟨learner, applied, hm, -, hr, hl⟩
  · exact .nothing hr (by rw [hl])
  · rw [hr, hl, ← hm]
    exact learner.observed_monitored applied

theorem applyReward_snd_strategy (engine : Engine α) (id : String) (reward : α)
    (features : Option (Features α)) :
    (engine.applyReward id reward features).2.learner.bandit.strategy =
      engine.learner.bandit.strategy := by
  rcases engine.applyReward_cases id reward features with
    ⟨-, -, hl⟩ | ⟨learner, applied, -, hs, -, hl⟩
  · rw [hl]
  · rw [hl, WatchedLearner.monitored_bandit, hs]

theorem checkpointUpdate_of_applyReward {engine : Engine α} {id : String} {reward : α}
    {features : Option (Features α)} {signal : Rollback α}
    (h : (Reply.reward (engine.applyReward id reward features).1).rollback? = some signal) :
    ∃ c, engine.learner.monitor.checkpoint = some c ∧ signal.checkpointUpdate = c.atUpdate := by
  rcases engine.applyReward_cases id reward features with
    ⟨-, hr, -⟩ | ⟨learner, applied, hm, -, hr, -⟩
  · rw [hr] at h
    cases h
  · rw [hr] at h
    rw [← hm]
    exact WatchedLearner.checkpointUpdate_of_monitored h

/-- A decision leaves the learner alone or as some selection leaves it. -/
theorem decide_snd_learner (engine : Engine α) (context : Context) :
    (engine.decide context).2.learner = engine.learner ∨
      ∃ candidates, (engine.decide context).2.learner =
        (engine.select candidates context).2.learner := by
  cases h : (engine.evaluate context none).1 with
  | nil =>
    simp only [decide, h]
    exact .inl (congrArg (·.learner) (engine.evaluate_snd context none))
  | cons top rest =>
    rw [decide_of_cons h, choose_snd_learner, evaluate_snd]
    exact .inr ⟨_, rfl⟩

theorem decide_snd_monitor (engine : Engine α) (context : Context) :
    (engine.decide context).2.learner.monitor = engine.learner.monitor := by
  rcases engine.decide_snd_learner context with h | ⟨candidates, h⟩
  · rw [h]
  · rw [h]
    rfl

theorem observed_run (engine : Engine α) (command : Command α) :
    Observed engine.learner.monitor (engine.run command).1 (engine.run command).2.learner := by
  cases command with
  | reward id reward => exact engine.observed_applyReward id reward none
  | rewardIn id reward context =>
    exact (engine.observeFeatures context).2.observed_applyReward id reward _
  | decide context => exact .nothing rfl (engine.decide_snd_monitor context)
  | select candidates context => exact .nothing rfl rfl
  | restoreCheckpoint =>
    exact .nothing rfl (congrArg (·.learner.monitor) engine.restoreCheckpoint_snd)
  | resetLearning => exact .nothing rfl rfl
  | loadBandit text =>
    exact .nothing rfl (congrArg (·.learner.monitor) (engine.loadBandit_snd text))
  | _ => exact .nothing rfl (congrArg (·.monitor) (engine.run_snd_learner rfl))

/-- No command changes how the engine learns. -/
theorem run_snd_strategy (engine : Engine α) (command : Command α) :
    (engine.run command).2.learner.bandit.strategy = engine.learner.bandit.strategy := by
  cases command with
  | reward id reward => exact engine.applyReward_snd_strategy id reward none
  | rewardIn id reward context => exact applyReward_snd_strategy _ id reward _
  | select candidates context => exact Bandit.select_snd_strategy _ _ _
  | decide context =>
    show (engine.decide context).2.learner.bandit.strategy = _
    rcases engine.decide_snd_learner context with h | ⟨candidates, h⟩
    · rw [h]
    · rw [h]
      exact Bandit.select_snd_strategy _ _ _
  | restoreCheckpoint =>
    show engine.restoreCheckpoint.2.learner.bandit.strategy = _
    unfold restoreCheckpoint
    split
    · next bandit hb =>
      obtain ⟨c, -, hr⟩ := Option.bind_eq_some_iff.mp hb
      exact Bandit.strategy_of_restore? hr
    · rfl
  | resetLearning => exact Bandit.reset_strategy _
  | loadBandit text =>
    show (engine.loadBandit text).2.learner.bandit.strategy = _
    unfold loadBandit
    split
    · next table _ =>
      cases hr : engine.learner.bandit.restore? table with
      | none => rfl
      | some bandit => exact Bandit.strategy_of_restore? hr
    · rfl
  | _ =>
    rw [run_snd_learner]
    rfl

theorem checkpointUpdate_of_run {engine : Engine α} {command : Command α} {signal : Rollback α}
    (h : (engine.run command).1.rollback? = some signal) :
    ∃ c, engine.learner.monitor.checkpoint = some c ∧ signal.checkpointUpdate = c.atUpdate := by
  cases command with
  | reward id reward => exact checkpointUpdate_of_applyReward h
  | rewardIn id reward context =>
    exact @checkpointUpdate_of_applyReward _ _ (engine.observeFeatures context).2 _ _ _ _ h
  | _ => cases h

/-- The number of rewards that a run takes into account. -/
def rewardsApplied (engine : Engine α) (commands : List (Command α)) : Nat :=
  (Run.answers run engine commands).countP Reply.counted

/-- Is a checkpoint stored while the command is carried out? -/
def StoresCheckpoint (engine : Engine α) (command : Command α) : Prop :=
  engine.guardStats.checkpoints < (engine.run command).2.guardStats.checkpoints

/-- The command at which a run stores a checkpoint for the last time, with what comes before and
after it. -/
structure LastStored (engine : Engine α) (commands front : List (Command α)) (command : Command α)
    (back : List (Command α)) : Prop where
  split : commands = front ++ command :: back
  stores : StoresCheckpoint (Run.after run engine front) command
  none_later : Run.Always run (fun e c => ¬ StoresCheckpoint e c)
    (Run.after run engine (front ++ [command])) back

theorem rewardsApplied_concat (engine : Engine α) (commands : List (Command α))
    (command : Command α) : rewardsApplied engine (commands ++ [command]) =
      rewardsApplied engine commands +
        if ((Run.after run engine commands).run command).1.counted then 1 else 0 := by
  simp [rewardsApplied, Run.answers, List.countP_append, List.countP_cons]

theorem after_concat (engine : Engine α) (commands : List (Command α)) (command : Command α) :
    Run.after run engine (commands ++ [command]) =
      ((Run.after run engine commands).run command).2 := by
  simp

theorem LastStored.concat {engine : Engine α} {commands front back : List (Command α)}
    {command next : Command α} (h : LastStored engine commands front command back)
    (hn : ¬ StoresCheckpoint (Run.after run engine commands) next) :
    LastStored engine (commands ++ [next]) front command (back ++ [next]) where
  split := by rw [h.split, List.append_assoc, List.cons_append]
  stores := h.stores
  none_later := by
    refine Run.always_append.mpr ⟨h.none_later, ?_, trivial⟩
    rw [← Run.after_append, List.append_assoc, List.singleton_append, ← h.split]
    exact hn

/-- What the monitor knows about the run so far. -/
structure Tracks (engine : Engine α) (commands : List (Command α)) : Prop where
  strategy : (Run.after run engine commands).learner.bandit.strategy =
    engine.learner.bandit.strategy
  updates : (Run.after run engine commands).learner.monitor.updates = rewardsApplied engine commands
  unstored : (Run.after run engine commands).learner.monitor.checkpoint = none →
    Run.Always run (fun e c => ¬ StoresCheckpoint e c) engine commands
  stored : ∀ c, (Run.after run engine commands).learner.monitor.checkpoint = some c →
    ∃ front command back, LastStored engine commands front command back ∧
      c.state = (Run.after run engine (front ++ [command])).learner.bandit.arms ∧
      c.atUpdate = rewardsApplied engine (front ++ [command])

/-- What is known stays known when a command stores no checkpoint. -/
theorem Tracks.concat_of_same {engine : Engine α} {commands : List (Command α)}
    {command : Command α} (h : Tracks engine commands)
    (hu : ((Run.after run engine commands).run command).2.learner.monitor.updates =
      rewardsApplied engine (commands ++ [command]))
    (hc : ((Run.after run engine commands).run command).2.learner.monitor.checkpoint =
      (Run.after run engine commands).learner.monitor.checkpoint)
    (hn : ((Run.after run engine commands).run command).2.learner.monitor.checkpoints =
      (Run.after run engine commands).learner.monitor.checkpoints) :
    Tracks engine (commands ++ [command]) := by
  have hstores : ¬ StoresCheckpoint (Run.after run engine commands) command := by
    show ¬ (_ < ((Run.after run engine commands).run command).2.learner.monitor.checkpoints)
    rw [hn]
    exact lt_irrefl _
  constructor
  · rw [after_concat, run_snd_strategy, h.strategy]
  · rw [after_concat, hu]
  · intro hnone
    rw [after_concat, hc] at hnone
    exact Run.always_append.mpr ⟨h.unstored hnone, hstores, trivial⟩
  · intro c hsome
    rw [after_concat, hc] at hsome
    obtain ⟨front, last, back, hlast, hstate, hupdate⟩ := h.stored c hsome
    exact ⟨front, last, back ++ [command], hlast.concat hstores, hstate, hupdate⟩

theorem Tracks.concat {engine : Engine α} {commands : List (Command α)} (h : Tracks engine commands)
    (command : Command α) : Tracks engine (commands ++ [command]) := by
  have hcount := rewardsApplied_concat engine commands command
  cases observed_run (Run.after run engine commands) command with
  | nothing hr hm =>
    refine h.concat_of_same ?_ (congrArg (·.checkpoint) hm) (congrArg (·.checkpoints) hm)
    rw [hm, h.updates, hcount, hr]
    rfl
  | reward hr hu hc hn =>
    refine h.concat_of_same ?_ hc hn
    rw [hu, h.updates, hcount, hr]
    rfl
  | checkpoint average hr hu hc hn =>
    have hupdates : ((Run.after run engine commands).run command).2.learner.monitor.updates =
        rewardsApplied engine (commands ++ [command]) := by
      rw [hu, h.updates, hcount, hr]
      rfl
    constructor
    · rw [after_concat, run_snd_strategy, h.strategy]
    · rw [after_concat, hupdates]
    · intro hnone
      rw [after_concat, hc] at hnone
      cases hnone
    · intro c hsome
      rw [after_concat, hc] at hsome
      cases hsome
      refine ⟨commands, command, [], ⟨rfl, ?_, trivial⟩, by rw [after_concat], hupdates⟩
      show _ < ((Run.after run engine commands).run command).2.learner.monitor.checkpoints
      rw [hn]
      exact Nat.lt_succ_self _

theorem tracks_run (settings : Settings α) (clock : Instant) (generator : Generator α)
    (commands : List (Command α)) : Tracks (start settings clock generator) commands := by
  induction commands using List.reverseRecOn with
  | nil => exact ⟨rfl, rfl, fun _ => trivial, fun c hc => by cases hc⟩
  | append_singleton commands command ih => exact ih.concat command

theorem counted_of_storesCheckpoint {engine : Engine α} {command : Command α}
    (h : StoresCheckpoint engine command) : (engine.run command).1.counted = true := by
  have hless : engine.learner.monitor.checkpoints <
      (engine.run command).2.learner.monitor.checkpoints := h
  cases engine.observed_run command with
  | nothing hr hm =>
    rw [hm] at hless
    exact absurd hless (lt_irrefl _)
  | reward hr hu hc hn => exact hr
  | checkpoint average hr hu hc hn => exact hr

/-- A checkpoint can be restored in every learner with the strategy of the one it is from. -/
theorem restoreCheckpoint_of_fits {engine : Engine α} {other : Bandit α}
    {c : Checkpoint (Arms α) α} (hc : engine.learner.monitor.checkpoint = some c)
    (hstate : c.state = other.arms) (hs : engine.learner.bandit.strategy = other.strategy) :
    engine.restoreCheckpoint.1 = true ∧
      engine.restoreCheckpoint.2.learner.bandit.arms = other.arms := by
  obtain ⟨next, hr, ha⟩ := Bandit.exists_restore?_arms hs
  simp only [restoreCheckpoint, hc, Option.bind_some, hstate, hr]
  exact ⟨trivial, ha⟩

theorem checkpoint_of_restoreCheckpoint {engine : Engine α}
    (h : engine.restoreCheckpoint.1 = true) : ∃ c, engine.learner.monitor.checkpoint = some c := by
  rw [← Option.ne_none_iff_exists']
  intro hnone
  simp [restoreCheckpoint, hnone] at h

/-- After any run of an engine there is a checkpoint to restore exactly if a reward of the run
stored one. Restoring it brings back the arms right after the last reward that did, and the advice
to roll back gives the number of rewards that had counted by then. -/
theorem restores_last_checkpoint (settings : Settings α) (clock : Instant) (generator : Generator α)
    (commands : List (Command α)) :
    let fresh := start settings clock generator
    let engine := Run.after run fresh commands
    (engine.restoreCheckpoint.1 = true ↔ ∃ front command back,
      commands = front ++ command :: back ∧
        ((Run.after run fresh front).run command).1.counted = true ∧
        StoresCheckpoint (Run.after run fresh front) command) ∧
    (engine.restoreCheckpoint.1 = true → ∃ front command back,
      LastStored fresh commands front command back ∧
        engine.restoreCheckpoint.2.learner.bandit.arms =
          (Run.after run fresh (front ++ [command])).learner.bandit.arms) ∧
    ∀ next signal, (engine.run next).1.rollback? = some signal → ∃ front command back,
      LastStored fresh commands front command back ∧
        signal.checkpointUpdate = rewardsApplied fresh (front ++ [command]) := by
  intro fresh engine
  have htracks : Tracks fresh commands := tracks_run settings clock generator commands
  -- whoever stored the checkpoint had the strategy that the engine still has
  have hfits : ∀ front command,
      engine.learner.bandit.strategy =
        (Run.after run fresh (front ++ [command])).learner.bandit.strategy := fun front command =>
    htracks.strategy.trans (tracks_run settings clock generator (front ++ [command])).strategy.symm
  refine ⟨⟨fun h => ?_, ?_⟩, fun h => ?_, fun next signal h => ?_⟩
  · obtain ⟨c, hc⟩ := checkpoint_of_restoreCheckpoint h
    obtain ⟨front, command, back, hlast, -⟩ := htracks.stored c hc
    exact ⟨front, command, back, hlast.split, counted_of_storesCheckpoint hlast.stores,
      hlast.stores⟩
  · rintro ⟨front, command, back, hsplit, -, hstores⟩
    cases hc : engine.learner.monitor.checkpoint with
    | none =>
      have hnever := htracks.unstored hc
      rw [hsplit] at hnever
      exact absurd hstores (Run.always_append.mp hnever).2.1
    | some c =>
      obtain ⟨front, command, back, hlast, hstate, -⟩ := htracks.stored c hc
      exact (restoreCheckpoint_of_fits hc hstate (hfits front command)).1
  · obtain ⟨c, hc⟩ := checkpoint_of_restoreCheckpoint h
    obtain ⟨front, command, back, hlast, hstate, -⟩ := htracks.stored c hc
    exact ⟨front, command, back, hlast,
      (restoreCheckpoint_of_fits hc hstate (hfits front command)).2⟩
  · obtain ⟨c, hc, hupdate⟩ := checkpointUpdate_of_run h
    obtain ⟨front, command, back, hlast, -, hcount⟩ := htracks.stored c hc
    exact ⟨front, command, back, hlast, hupdate.trans hcount⟩

/-- The usual settings with a checkpoint at every reward. -/
noncomputable def storing : Settings ℝ := { Settings.standard with
  guard := { Settings.standard.guard with monitorWindow := 1, checkpointInterval := 1 } }

theorem storesCheckpoint_storing (id : String) :
    StoresCheckpoint (start storing 0 .steady) (.reward id 1) := by
  have hclip : |(1 : ℝ)| ≤ (start storing 0 .steady).guard.rewards.clip := by
    show |(1 : ℝ)| ≤ 3.0
    norm_num
  have hdue : (start storing 0 .steady).learner.monitor.observe 1 =
      (.checkpointDue ((start storing 0 .steady).learner.monitor.withReward 1).average,
        (start storing 0 .steady).learner.monitor.withReward 1) := rfl
  show 0 < ((start storing 0 .steady).applyReward id 1 none).2.learner.monitor.checkpoints
  rw [applyReward_of_update? (Guard.judgeReward_of_few (by decide) hclip) rfl rfl]
  simp only [WatchedLearner.monitored, hdue]
  exact Nat.zero_lt_one

/-- What a first reward taught comes back after a reset. -/
theorem restores_last_checkpoint_lamp :
    let engine := Run.after run (start storing 0 .steady) [.reward "lamp" 1, .resetLearning]
    engine.restoreCheckpoint.1 = true ∧ engine.restoreCheckpoint.2.learner.bandit.arms =
      ((start storing 0 .steady).reward "lamp" 1).2.learner.bandit.arms := by
  intro engine
  have hstores := storesCheckpoint_storing "lamp"
  have hreset :
      ¬ StoresCheckpoint ((start storing 0 .steady).run (.reward "lamp" 1)).2 .resetLearning :=
    fun h => absurd (counted_of_storesCheckpoint h) (by simp [run, Reply.counted])
  obtain ⟨hiff, harms, -⟩ := restores_last_checkpoint storing 0
    .steady [.reward "lamp" 1, .resetLearning]
  have hrestored : engine.restoreCheckpoint.1 = true :=
    hiff.mpr ⟨[], _, _, rfl, counted_of_storesCheckpoint hstores, hstores⟩
  refine ⟨hrestored, ?_⟩
  obtain ⟨front, command, back, hlast, heq⟩ := harms hrestored
  have hsplit := hlast.split
  have hstored := hlast.stores
  rcases front with _ | ⟨first, _ | ⟨second, rest⟩⟩
  · cases hsplit
    exact heq
  · cases hsplit
    exact absurd hstored hreset
  · simp at hsplit

end Engine

end ContextAdvisor
