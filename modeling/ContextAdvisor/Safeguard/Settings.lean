import ContextAdvisor.Safeguard.Inputs

/-!
# Settings of the safeguards
-/
namespace ContextAdvisor

/-- How inputs, rewards, parameters and decisions are guarded. -/
structure GuardSettings (α : Type) where
  ranges : List (InputRange α)
  /-- How many rewards are remembered. -/
  rewardHistory : Nat
  /-- How many rewards are needed to tell an outlier. -/
  rewardMinSamples : Nat
  /-- How many standard deviations make an outlier. -/
  rewardSigma : α
  /-- The largest reward, in either direction. -/
  rewardClip : α
  /-- How fast a parameter may move. -/
  paramRate : α
  /-- The confidence that a learned decision needs. -/
  uncertaintyThreshold : α
  /-- How many rewards make up an average. -/
  monitorWindow : Nat
  /-- How many rewards lie between two checkpoints. -/
  checkpointInterval : Nat
  /-- The share of the average whose loss advises a rollback. -/
  rollbackDrop : α
  deriving BEq

/-- The usual settings. -/
def GuardSettings.standard {α : Type} [Scalar α] : GuardSettings α where
  ranges := InputRange.standard
  rewardHistory := 50
  rewardMinSamples := 10
  rewardSigma := 3.0
  rewardClip := 3.0
  paramRate := 0.05
  uncertaintyThreshold := 0.3
  monitorWindow := 50
  checkpointInterval := 100
  rollbackDrop := 0.3

end ContextAdvisor
