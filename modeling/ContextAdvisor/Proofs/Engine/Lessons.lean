import ContextAdvisor.Proofs.Engine.Checkpoints

/-!
# What the learner is taught

Of what happens to an engine its learner sees little: it selects among candidates, it takes judged
rewards into account, and its arms are replaced or forgotten. These are its lessons. A command gives
one lesson at most, and what it does to the learner and tells about it is what the lesson does.
-/
namespace ContextAdvisor

variable {α : Type}

/-- What a learner can be asked to do. -/
inductive Lesson (α : Type) where
  | select (candidates : List String) (features : Features α)
  | reward (id : String) (value : α) (features : Option (Features α))
  | restoreCheckpoint
  | load (table : Arms α)
  | reset

/-- What a lesson gives back. -/
inductive LessonReply (α : Type) where
  | nothing
  | flag (b : Bool)
  | selection (choice : Option (Selection α))
  /-- What the monitor noticed, if the reward could be taken into account. -/
  | notice (notice : Option (MonitorNotice α))

/-- The advice to roll back. -/
def MonitorNotice.rollback? : MonitorNotice α → Option (Rollback α)
  | rollback signal => some signal
  | _ => none

namespace WatchedLearner

variable [Analytic α]

/-- Gives a lesson, with a limit on how far a reward moves the parameters. -/
def teach (limit : StepLimit α) (learner : WatchedLearner α) :
    Lesson α → LessonReply α × WatchedLearner α
  | .select candidates features =>
    let (selection, bandit) := learner.bandit.select candidates features
    let lastFeatures := match selection with
      | some s => learner.lastFeatures.insert s.actionId features
      | none => learner.lastFeatures
    (.selection selection, { learner with bandit := bandit, lastFeatures := lastFeatures })
  | .reward id value features =>
    match learner.bandit.update? limit id value (features <|> learner.lastFeatures.get? id) with
    | some (_, bandit) =>
      (.notice (some (learner.monitor.observe value).1),
        ({ learner with bandit := bandit }.monitored value).2)
    | none => (.notice none, learner)
  | .restoreCheckpoint =>
    match learner.monitor.checkpoint.bind fun c => learner.bandit.restore? c.state with
    | some bandit => (.flag true, { learner with bandit := bandit })
    | none => (.flag false, learner)
  | .load table =>
    (.nothing, { learner with bandit := (learner.bandit.restore? table).getD learner.bandit })
  | .reset => (.nothing, { learner with bandit := learner.bandit.reset, lastFeatures := ∅ })

/-- The advice to roll back is part of what the monitor notices. -/
theorem monitored_fst (learner : WatchedLearner α) (value : α) :
    (learner.monitored value).1 = (learner.monitor.observe value).1.rollback? := by
  unfold monitored
  split <;> simp_all [MonitorNotice.rollback?]

end WatchedLearner

/-- Does the reply to a command tell what came of a lesson? -/
def Reply.Tells : Reply α → LessonReply α → Prop
  | .nothing, .nothing => True
  | .loaded (.ok _), .nothing => True
  | .flag b, .flag restored => b = restored
  | .selection choice, .selection selected => choice = selected
  | .decision _, .selection _ => True
  | .reward (.ok outcome), .notice notice =>
    outcome.applied.isSome = notice.isSome ∧ outcome.rollback = notice.bind (·.rollback?)
  | _, _ => False

namespace Engine

variable [Analytic α]

/-- The lesson that a reward gives, unless it is rejected. -/
def rewardLesson? (engine : Engine α) (id : String) (reward : α)
    (features : Option (Features α)) : Option (Lesson α) :=
  match engine.guard.judgeReward reward with
  | .ok (verdict, _) => verdict.value?.map fun value => .reward id value features
  | .error _ => none

/-- The lesson that a command gives. -/
def lesson? (engine : Engine α) : Command α → Option (Lesson α)
  | .decide context =>
    match (engine.evaluate context none).1 with
    | [] => none
    | top :: rest =>
      some (.select (actionIds (top :: rest)) (engine.observeFeatures context).1)
  | .select candidates context => some (.select candidates (engine.observeFeatures context).1)
  | .reward id reward => engine.rewardLesson? id reward none
  | .rewardIn id reward context =>
    let (features, engine) := engine.observeFeatures context
    engine.rewardLesson? id reward (some features)
  | .restoreCheckpoint => some .restoreCheckpoint
  | .resetLearning => some .reset
  | .loadBandit text =>
    match Arms.importText engine.learner.bandit.strategy engine.settings.bandit.inverse text with
    | .ok table => some (.load table)
    | .error _ => none
  | _ => none

/-- A command gives a lesson, does to the learner what the lesson does and tells what came of it, or
it leaves the learner alone. -/
inductive Taught (engine : Engine α) (command : Command α) : Prop where
  | lesson (lesson : Lesson α) (hl : engine.lesson? command = some lesson)
    (hr : (engine.run command).1.Tells (engine.learner.teach engine.guard.stepLimit lesson).1)
    (hs : (engine.run command).2.learner =
      (engine.learner.teach engine.guard.stepLimit lesson).2)
  | none (hl : engine.lesson? command = none) (hr : (engine.run command).1.counted = false)
    (hs : (engine.run command).2.learner = engine.learner)

theorem stepLimit_of_judgeReward {guard after : Guard α} {reward : α} {verdict : Verdict α}
    (h : guard.judgeReward reward = .ok (verdict, after)) : after.stepLimit = guard.stepLimit := by
  unfold Guard.judgeReward at h
  split at h <;> cases h
  rfl

/-- A reward that is not rejected is a lesson. -/
theorem applyReward_teaches (engine : Engine α) (id : String) (reward : α)
    (features : Option (Features α)) :
    let (outcome, after) := engine.applyReward id reward features
    (∃ lesson, engine.rewardLesson? id reward features = some lesson ∧
      (Reply.reward outcome).Tells (engine.learner.teach engine.guard.stepLimit lesson).1 ∧
      after.learner = (engine.learner.teach engine.guard.stepLimit lesson).2) ∨
    (engine.rewardLesson? id reward features = none ∧
      (Reply.reward outcome).counted = false ∧ after.learner = engine.learner) := by
  cases hj : engine.guard.judgeReward reward with
  | error fault =>
    have hlesson : engine.rewardLesson? id reward features = none := by rw [rewardLesson?, hj]
    have happly : engine.applyReward id reward features = (.error fault, engine) := by
      rw [applyReward, hj]
    rw [happly]
    exact .inr ⟨hlesson, rfl, rfl⟩
  | ok judged =>
    obtain ⟨verdict, guard⟩ := judged
    have hlimit := stepLimit_of_judgeReward hj
    cases hv : verdict.value? with
    | none =>
      have hlesson : engine.rewardLesson? id reward features = none := by
        simp only [rewardLesson?, hj, hv, Option.map_none]
      have happly : engine.applyReward id reward features =
          (.ok .none, { engine with guard := guard }) := by simp only [applyReward, hj, hv]
      rw [happly]
      exact .inr ⟨hlesson, rfl, rfl⟩
    | some value =>
      have hlesson : engine.rewardLesson? id reward features =
          some (.reward id value features) := by
        simp only [rewardLesson?, hj, hv, Option.map_some]
      cases hu : engine.learner.bandit.update? guard.stepLimit id value
          (features <|> engine.learner.lastFeatures.get? id) with
      | none =>
        have happly : engine.applyReward id reward features =
            (.ok .none, { engine with guard := guard }) := by simp only [applyReward, hj, hv, hu]
        rw [happly]
        refine .inl ⟨_, hlesson, ?_⟩
        rw [WatchedLearner.teach, ← hlimit, hu]
        exact ⟨⟨rfl, rfl⟩, rfl⟩
      | some updated =>
        rw [applyReward_of_update? hj hv hu]
        refine .inl ⟨_, hlesson, ?_⟩
        rw [WatchedLearner.teach, ← hlimit, hu]
        exact ⟨⟨rfl, WatchedLearner.monitored_fst _ _⟩, rfl⟩

theorem decide_teaches (engine : Engine α) (context : Context) :
    Taught engine (.decide context) := by
  cases hresults : (engine.evaluate context none).1 with
  | nil =>
    refine .none (by simp only [lesson?, hresults]) rfl ?_
    simp only [run, reply, decide, hresults]
    exact congrArg (·.learner) (engine.evaluate_snd context none)
  | cons top rest =>
    let features := (engine.observeFeatures context).1
    refine .lesson (.select (actionIds (top :: rest)) features) ?_ trivial ?_
    · simp only [lesson?, hresults]
      rfl
    simp only [run, reply]
    rw [decide_of_cons hresults, choose_snd_learner, evaluate_snd]
    rfl

theorem restoreCheckpoint_teaches (engine : Engine α) :
    Taught engine .restoreCheckpoint := by
  cases hb : engine.learner.monitor.checkpoint.bind fun c =>
    engine.learner.bandit.restore? c.state with
  | some bandit =>
    have hrun : engine.restoreCheckpoint =
        (true, { engine with learner := { engine.learner with bandit := bandit } }) := by
      rw [restoreCheckpoint, hb]
    refine .lesson .restoreCheckpoint rfl ?_ ?_
    · simp only [run, reply, hrun, WatchedLearner.teach, hb]
      rfl
    · simp only [run, reply, hrun, WatchedLearner.teach, hb]
  | none =>
    have hrun : engine.restoreCheckpoint = (false, engine) := by rw [restoreCheckpoint, hb]
    refine .lesson .restoreCheckpoint rfl ?_ ?_
    · simp only [run, reply, hrun, WatchedLearner.teach, hb]
      rfl
    · simp only [run, reply, hrun, WatchedLearner.teach, hb]

theorem loadBandit_teaches (engine : Engine α) (text : String) :
    Taught engine (.loadBandit text) := by
  cases himport : (Arms.importText engine.learner.bandit.strategy engine.settings.bandit.inverse
      text : Except DocumentFault (Arms α)) with
  | error fault =>
    refine .none (by simp only [lesson?, himport]) rfl ?_
    simp only [run, reply, loadBandit, himport]
  | ok table =>
    refine .lesson (.load table) (by simp only [lesson?, himport]) ?_ ?_
    · simp only [run, reply, loadBandit, himport]
      trivial
    · simp only [run, reply, loadBandit, himport]
      rfl

/-- Every command gives one lesson at most. -/
theorem taught_run (engine : Engine α) (command : Command α) : Taught engine command := by
  cases command with
  | select candidates context => exact .lesson _ rfl rfl rfl
  | decide context => exact engine.decide_teaches context
  | reward id reward =>
    rcases engine.applyReward_teaches id reward none with ⟨lesson, hl, hr, hs⟩ | ⟨hl, hr, hs⟩
    · exact .lesson lesson hl hr hs
    · exact .none hl hr hs
  | rewardIn id reward context =>
    rcases (engine.observeFeatures context).2.applyReward_teaches id reward
      (some (engine.observeFeatures context).1) with ⟨lesson, hl, hr, hs⟩ | ⟨hl, hr, hs⟩
    · exact .lesson lesson hl hr hs
    · exact .none hl hr hs
  | restoreCheckpoint => exact engine.restoreCheckpoint_teaches
  | resetLearning => exact .lesson _ rfl trivial rfl
  | loadBandit text => exact engine.loadBandit_teaches text
  | _ => exact .none rfl rfl (engine.run_snd_learner rfl)

/-- What every lesson keeps, every run keeps. -/
theorem learner_after_run {Q : WatchedLearner α → Prop}
    (keeps : ∀ limit learner lesson, Q learner → Q (learner.teach limit lesson).2)
    {engine : Engine α} (h : Q engine.learner) (commands : List (Command α)) :
    Q (Run.after run engine commands).learner := by
  refine Run.after_of_kept (Q := fun engine : Engine α => Q engine.learner)
    (fun engine command hq => ?_) h commands
  cases engine.taught_run command with
  | lesson lesson hl hr hs => exact hs ▸ keeps _ _ lesson hq
  | none hl hr hs => exact hs ▸ hq

end Engine

end ContextAdvisor
