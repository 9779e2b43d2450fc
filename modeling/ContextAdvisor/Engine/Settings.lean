import ContextAdvisor.EventLog
import ContextAdvisor.Learning.Bandit
import ContextAdvisor.Pacing.Limiter
import ContextAdvisor.Pacing.DigestQueue
import ContextAdvisor.Safeguard.Settings
import ContextAdvisor.Sensing.Motion
import ContextAdvisor.Sensing.Sampling
import ContextAdvisor.Sensing.Tray

/-!
# Settings of an engine
-/
namespace ContextAdvisor

/-- The settings of an engine and its parts. -/
structure Settings (α : Type) where
  /-- How many keys the decision tree tests on a path. -/
  maxTreeKeys : Nat
  /-- The confidence that a rule has to exceed. -/
  minConfidence : α
  /-- When the hand-over to the learner starts; the clock's first reading if absent. -/
  installTime : Option Instant
  eventMaxAge : Duration
  rateLimits : FiringLimits
  digest : DigestPolicy
  bandit : BanditSettings α
  guard : GuardSettings α
  tray : TraySettings
  motion : MotionThresholds α
  sampling : SamplingPlan
  deriving BEq

/-- The usual settings. -/
def Settings.standard {α : Type} [Scalar α] : Settings α where
  maxTreeKeys := 5
  minConfidence := 0.1
  installTime := none
  eventMaxAge := EventLog.defaultMaxAge
  rateLimits := .standard
  digest := .standard
  bandit := .standard
  guard := .standard
  tray := .standard
  motion := .standard
  sampling := .standard

end ContextAdvisor
