import ContextAdvisor.Arithmetic.Window
import ContextAdvisor.Sensing.Situation

/-!
# Detecting motion

The state of motion follows from the speed where a position fix knows it, and otherwise from the
mean magnitude of the last accelerations.
-/
namespace ContextAdvisor

/-- One measurement of acceleration. -/
structure Acceleration (α : Type) where
  x : α
  y : α
  z : α

/-- The length of an acceleration vector. -/
def Acceleration.magnitude {α : Type} [Analytic α] (s : Acceleration α) : α :=
  Analytic.sqrt (s.x * s.x + s.y * s.y + s.z * s.z)

/-- The bounds between the states of motion. -/
structure MotionThresholds (α : Type) where
  stationaryThreshold : α
  walkingThreshold : α
  runningThreshold : α
  drivingSpeed : α
  highSpeed : α
  movingSpeed : α
  history : Nat
  deriving BEq

/-- The usual bounds, in metres per second (squared). -/
def MotionThresholds.standard {α : Type} [Scalar α] : MotionThresholds α where
  stationaryThreshold := 10.5
  walkingThreshold := 12.0
  runningThreshold := 15.0
  drivingSpeed := 5.0
  highSpeed := 20.0
  movingSpeed := 1.5
  history := 5

/-- A detected state of motion, with what it was detected from. -/
structure MotionEstimate (α : Type) where
  state : Movement
  magnitude : α
  speed : Option α
  confidence : α
  changed : Bool

/-- The last magnitudes and the last state. -/
structure MotionClassifier (α : Type) where
  thresholds : MotionThresholds α
  history : List α
  last : Movement

namespace MotionThresholds

variable {α : Type} [Scalar α]

/-- The state that a mean magnitude indicates. -/
def stateOfMagnitude (c : MotionThresholds α) (mean : α) : Movement :=
  if mean < c.stationaryThreshold then .stationary
  else if mean < c.walkingThreshold then .walking
  else if mean < c.runningThreshold then .running
  else .driving

/-- The state that a speed and a mean magnitude indicate, with the confidence in it. -/
def classify (c : MotionThresholds α) (speed : Option α) (mean : α) : Movement × α :=
  match speed with
  | some v =>
    if c.highSpeed < v then (.driving, 0.95)
    else if c.drivingSpeed < v then (.driving, 0.85)
    else if c.movingSpeed < v then
      (if c.walkingThreshold < mean then .running else .walking, 0.75)
    else (c.stateOfMagnitude mean, 0.6)
  | none => (c.stateOfMagnitude mean, 0.5)

end MotionThresholds

namespace MotionClassifier

variable {α : Type}

/-- The classifier before any measurement. -/
def ofThresholds (thresholds : MotionThresholds α) : MotionClassifier α :=
  ⟨thresholds, [], .unknown⟩

/-- Forgets all measurements. -/
def reset (classifier : MotionClassifier α) : MotionClassifier α :=
  ofThresholds classifier.thresholds

variable [Analytic α]

/-- A speed that makes sense: finite and not negative. -/
def soundSpeed (speed : Option α) : Option α :=
  speed.filter fun v => Scalar.isFinite v && 0.0 ≤ v

/-- The magnitudes to average after a measurement; one that is not finite is left out. -/
def remembered (classifier : MotionClassifier α) (magnitude : α) : List α :=
  if Scalar.isFinite magnitude then
    Window.push (max classifier.thresholds.history 1) classifier.history magnitude
  else classifier.history

/-- Takes a measurement into account. -/
def detect (classifier : MotionClassifier α) (sample : Acceleration α) (speed : Option α) :
    MotionEstimate α × MotionClassifier α :=
  let magnitude := sample.magnitude
  let history := classifier.remembered magnitude
  let speed := soundSpeed speed
  let (state, confidence) := classifier.thresholds.classify speed (Scalar.mean history)
  (⟨state, magnitude, speed, confidence, state != classifier.last⟩,
    { classifier with history := history, last := state })

end MotionClassifier

end ContextAdvisor
