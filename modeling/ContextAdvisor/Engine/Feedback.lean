import ContextAdvisor.Engine.Decide

/-!
# Learning from rewards

A reward is judged first. If it counts, the learner takes it into account under the features that
were observed with it or under which its action was last chosen, and the monitor may ask for a
checkpoint or advise a rollback.
-/
namespace ContextAdvisor

/-- What became of a reward. -/
structure RewardOutcome (α : Type) where
  /-- The value that the learner took into account. -/
  applied : Option α
  rollback : Option (Rollback α)

/-- The outcome of a reward that was not taken into account. -/
def RewardOutcome.none {α : Type} : RewardOutcome α := ⟨.none, .none⟩

namespace WatchedLearner

variable {α : Type} [Scalar α]

/-- Lets the monitor see a reward, keeps a checkpoint if one is due, and passes on its advice. -/
def monitored (learner : WatchedLearner α) (reward : α) : Option (Rollback α) × WatchedLearner α :=
  match learner.monitor.observe reward with
  | (.nothing, monitor) => (none, { learner with monitor := monitor })
  | (.checkpointDue average, monitor) =>
    (none, { learner with monitor := monitor.store learner.bandit.arms average })
  | (.rollback signal, monitor) => (some signal, { learner with monitor := monitor })

end WatchedLearner

namespace Engine

/-- Takes a reward for an action into account. -/
def applyReward {α : Type} [Analytic α] (engine : Engine α) (id : String) (reward : α)
    (features : Option (Features α)) : Except RewardFault (RewardOutcome α) × Engine α :=
  match engine.guard.judgeReward reward with
  | .error fault => (.error fault, engine)
  | .ok (verdict, guard) =>
    let engine := { engine with guard := guard }
    match verdict.value? with
    | none => (.ok .none, engine)
    | some applied =>
      let features := features <|> engine.learner.lastFeatures.get? id
      match engine.learner.bandit.update? guard.stepLimit id applied features with
      | none => (.ok .none, engine)
      | some (held, bandit) =>
        let (rollback, learner) := { engine.learner with bandit := bandit }.monitored applied
        (.ok ⟨some applied, rollback⟩,
          { engine with learner := learner, guard := engine.guard.noteClamped held })

/-- A reward for an action as it was last chosen. -/
def reward {α : Type} [Analytic α] (engine : Engine α) (id : String) (reward : α) :
    Except RewardFault (RewardOutcome α) × Engine α :=
  engine.applyReward id reward none

/-- A reward for an action in a given context. -/
def rewardIn {α : Type} [Analytic α] (engine : Engine α) (id : String) (reward : α)
    (context : Context) : Except RewardFault (RewardOutcome α) × Engine α :=
  let (features, engine) := engine.observeFeatures context
  engine.applyReward id reward (some features)

variable {α : Type} [Scalar α]

/-- Puts the arms of the latest checkpoint in the place of the present ones; the flag says whether
there is one that fits. -/
def restoreCheckpoint (engine : Engine α) : Bool × Engine α :=
  match engine.learner.monitor.checkpoint.bind fun c => engine.learner.bandit.restore? c.state with
  | some bandit => (true, { engine with learner := { engine.learner with bandit := bandit } })
  | none => (false, engine)

/-- Forgets all arms and the features under which actions were chosen. -/
def resetLearning (engine : Engine α) : Engine α :=
  let learner := { engine.learner with bandit := engine.learner.bandit.reset, lastFeatures := ∅ }
  { engine with learner := learner }

end Engine

end ContextAdvisor
