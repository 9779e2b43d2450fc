import ContextAdvisor.Sensing.Situation
import ContextAdvisor.Time

/-!
# How often to sample the sensors

Each state of motion has its sampling intervals. The sampler reports intervals only when they differ
from those that are in force.
-/
namespace ContextAdvisor

/-- The time between two samples of each sensor; no scans of the wireless network if absent. -/
structure SamplingIntervals where
  gps : Duration
  wifi : Option Duration
  accel : Duration
  deriving DecidableEq

/-- The intervals for each state of motion. -/
structure SamplingPlan where
  stationary : SamplingIntervals
  walking : SamplingIntervals
  running : SamplingIntervals
  driving : SamplingIntervals
  unknown : SamplingIntervals
  deriving DecidableEq

namespace SamplingPlan

open Duration in
/-- The usual intervals: the faster the device moves, the more often its position is taken. -/
def standard : SamplingPlan where
  stationary := ⟨5 * minute, some (5 * minute), 5 * second⟩
  walking := ⟨30 * second, some (2 * minute), second⟩
  running := ⟨15 * second, some (5 * minute), 500⟩
  driving := ⟨5 * second, none, 2 * second⟩
  unknown := ⟨minute, some (2 * minute), second⟩

/-- The intervals for a state. -/
def intervalsFor (plan : SamplingPlan) : Movement → SamplingIntervals
  | .stationary => plan.stationary
  | .walking => plan.walking
  | .running => plan.running
  | .driving => plan.driving
  | .unknown => plan.unknown

end SamplingPlan

/-- A plan and the intervals in force. -/
structure Sampler where
  plan : SamplingPlan
  current : Option SamplingIntervals

namespace Sampler

/-- The sampler before any state is known. -/
def ofPlan (plan : SamplingPlan) : Sampler := ⟨plan, none⟩

/-- Takes a state into account; the intervals are reported if they change. -/
def update (sampler : Sampler) (state : Movement) : Option SamplingIntervals × Sampler :=
  let next := sampler.plan.intervalsFor state
  if sampler.current = some next then (none, sampler)
  else (some next, { sampler with current := some next })

end Sampler

end ContextAdvisor
