import ContextAdvisor.Json.Reader
import ContextAdvisor.Learning.Bandit
import ContextAdvisor.Safeguard.Inputs

/-!
# The situation of a device and its features

The learner sees the hour as a point on a circle, the battery as a share, two flags, and the state
of motion as one of five indicators.
-/
namespace ContextAdvisor

/-- How the device moves. -/
inductive Movement where
  | stationary
  | walking
  | running
  | driving
  | unknown
  deriving DecidableEq

namespace Movement

/-- The name of a state. -/
def name : Movement → String
  | stationary => "stationary"
  | walking => "walking"
  | running => "running"
  | driving => "driving"
  | unknown => "unknown"

/-- The state with a name; other names mean that the state is unknown. -/
def ofName (name : String) : Movement :=
  if name = "stationary" then stationary
  else if name = "walking" then walking
  else if name = "running" then running
  else if name = "driving" then driving
  else unknown

/-- Reads the name of a state. -/
def read? : Reader Movement := Reader.choice name [stationary, walking, running, driving, unknown]

end Movement

/-- What matters about the situation of a device. -/
structure Situation (α : Type) where
  hour : α
  batteryLevel : α
  isCharging : Bool
  isWeekend : Bool
  motion : Movement

namespace Situation

variable {α : Type} [Scalar α]

/-- The situation that sanitized inputs and a context describe. -/
def ofInputs (inputs : SoundInputs α) (context : Context) : Situation α where
  hour := (inputs.get? "hour").getD 12.0
  batteryLevel := (inputs.get? "batteryLevel").getD 50.0
  isCharging := 0.5 ≤ (inputs.get? "isCharging").getD 0.0
  isWeekend := 0.5 ≤ (inputs.get? "isWeekend").getD 0.0
  motion := ((context.get? "motionState").map Movement.ofName).getD .unknown

/-- The features of a situation. -/
def features {α : Type} [Analytic α] (s : Situation α) : Features α :=
  let angle := Analytic.turn * s.hour / 24.0
  #v[Analytic.sin angle, Analytic.cos angle, Scalar.clamp (s.batteryLevel / 100.0) 0.0 1.0,
    Scalar.ofBool s.isCharging, Scalar.ofBool s.isWeekend,
    Scalar.ofBool (s.motion = .stationary), Scalar.ofBool (s.motion = .walking),
    Scalar.ofBool (s.motion = .running), Scalar.ofBool (s.motion = .driving),
    Scalar.ofBool (s.motion = .unknown)]

end Situation

end ContextAdvisor
