import ContextAdvisor.Arithmetic.Window
import ContextAdvisor.Safeguard.Settings

/-!
# Trustworthy rewards

A reward that is not finite, or that lies too many standard deviations from the mean of the last
accepted ones, is rejected. Every other reward is clipped to a symmetric range and remembered.
-/
namespace ContextAdvisor

/-- What becomes of a reward. -/
inductive Verdict (α : Type) where
  | accepted (value : α)
  | clipped (value : α)
  | rejected

/-- The value that counts, unless the reward is rejected. -/
def Verdict.value? {α : Type} : Verdict α → Option α
  | accepted v => some v
  | clipped v => some v
  | rejected => none

/-- Why a reward could not be judged: the range to clip it to has no points. -/
inductive RewardFault where
  | emptyClipRange
  deriving DecidableEq

/-- The last rewards that were not rejected, and how to judge the next one. -/
structure RewardFilter (α : Type) where
  history : List α
  capacity : Nat
  minSamples : Nat
  sigma : α
  clip : α

namespace RewardFilter

variable {α : Type} [Scalar α]

/-- The filter before any reward. At least one reward is remembered. -/
def ofSettings (settings : GuardSettings α) : RewardFilter α where
  history := []
  capacity := max settings.rewardHistory 1
  minSamples := settings.rewardMinSamples
  sigma := settings.rewardSigma
  clip := settings.rewardClip

/-- The variance of some numbers about their mean. -/
def variance (xs : List α) : α :=
  let mean := Scalar.mean xs
  Scalar.mean (xs.map fun x => (x - mean) * (x - mean))

/-- A standard deviation below which rewards count as all alike. -/
def negligibleDeviation : α := 1e-9

end RewardFilter

namespace RewardFilter

variable {α : Type} [Analytic α]

/-- Does the reward stand out from the remembered ones? -/
def isOutlier (filter : RewardFilter α) (reward : α) : Bool :=
  let deviation := Analytic.sqrt (variance filter.history)
  filter.minSamples ≤ filter.history.length && negligibleDeviation < deviation &&
    filter.sigma * deviation < Scalar.abs (reward - Scalar.mean filter.history)

/-- Judges a reward and remembers it unless it is rejected. -/
def judge (filter : RewardFilter α) (reward : α) :
    Except RewardFault (Verdict α × RewardFilter α) :=
  if !Scalar.isFinite reward || filter.isOutlier reward then .ok (.rejected, filter)
  else if -filter.clip ≤ filter.clip then
    let value := Scalar.clamp reward (-filter.clip) filter.clip
    let verdict := if value == reward then .accepted reward else .clipped value
    .ok (verdict, { filter with history := Window.push filter.capacity filter.history value })
  else .error .emptyClipRange

end RewardFilter

end ContextAdvisor
