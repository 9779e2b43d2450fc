import ContextAdvisor.Json.Tree
import ContextAdvisor.Safeguard.StepLimit
import ContextAdvisor.Safeguard.Rewards

/-!
# The safeguards together

A guard sanitizes inputs and rewards, knows how fast parameters may move and how sure a learned
decision has to be, and counts each time it had to step in.
-/
namespace ContextAdvisor

/-- How often the safeguards stepped in. -/
structure Interventions where
  inputsReplaced : Nat
  rewardsRejected : Nat
  rewardsClipped : Nat
  paramsClamped : Nat
  decisionsGated : Nat
  checkpoints : Nat
  rollbacks : Nat
  deriving DecidableEq

namespace Interventions

/-- Nothing has happened yet. -/
def zero : Interventions := ⟨0, 0, 0, 0, 0, 0, 0⟩

def toJson (s : Interventions) : Json :=
  .object [("inputsReplaced", .integer s.inputsReplaced),
    ("rewardsRejected", .integer s.rewardsRejected),
    ("rewardsClipped", .integer s.rewardsClipped), ("paramsClamped", .integer s.paramsClamped),
    ("decisionsGated", .integer s.decisionsGated), ("checkpoints", .integer s.checkpoints),
    ("rollbacks", .integer s.rollbacks)]

end Interventions

/-- The safeguards and their counters. -/
structure Guard (α : Type) where
  ranges : List (InputRange α)
  rewards : RewardFilter α
  stepLimit : StepLimit α
  threshold : α
  stats : Interventions

namespace Guard

section

variable {α : Type} [Scalar α]

/-- The guard before its first use. -/
def ofSettings (settings : GuardSettings α) : Guard α where
  ranges := settings.ranges
  rewards := RewardFilter.ofSettings settings
  stepLimit := StepLimit.ofRate settings.paramRate
  threshold := settings.uncertaintyThreshold
  stats := .zero

/-- Takes the learner's inputs from a context. -/
def admitInputs (guard : Guard α) (context : Context) : SoundInputs α × Guard α :=
  let inputs := SoundInputs.ofContext guard.ranges context
  let stats := { guard.stats with
    inputsReplaced := guard.stats.inputsReplaced + inputs.replaced }
  (inputs, { guard with stats := stats })

/-- Counts parameters that were held back. -/
def noteClamped (guard : Guard α) (count : Nat) : Guard α :=
  let stats := { guard.stats with paramsClamped := guard.stats.paramsClamped + count }
  { guard with stats := stats }

/-- Is a confidence high enough for a learned decision? -/
def passes (threshold confidence : α) : Bool := threshold ≤ confidence

/-- Turns down a learned decision that is not sure enough. -/
def rejects (guard : Guard α) (confidence : α) : Bool × Guard α :=
  if passes guard.threshold confidence then (false, guard)
  else
    let stats := { guard.stats with decisionsGated := guard.stats.decisionsGated + 1 }
    (true, { guard with stats := stats })

end

/-- Counts a verdict that is not a plain acceptance. -/
def noteVerdict {α : Type} (stats : Interventions) : Verdict α → Interventions
  | .accepted _ => stats
  | .clipped _ => { stats with rewardsClipped := stats.rewardsClipped + 1 }
  | .rejected => { stats with rewardsRejected := stats.rewardsRejected + 1 }

/-- Judges a reward. -/
def judgeReward {α : Type} [Analytic α] (guard : Guard α) (reward : α) :
    Except RewardFault (Verdict α × Guard α) :=
  match guard.rewards.judge reward with
  | .ok (verdict, rewards) =>
    .ok (verdict, { guard with rewards := rewards, stats := noteVerdict guard.stats verdict })
  | .error fault => .error fault

end Guard

end ContextAdvisor
