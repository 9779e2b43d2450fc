import ContextAdvisor.DecisionTree.Compile
import ContextAdvisor.Engine.Settings
import ContextAdvisor.Handover
import ContextAdvisor.Safeguard.Guard
import ContextAdvisor.Safeguard.Monitor
import ContextAdvisor.Sensing.Places

/-!
# The state of an engine

An engine is one value: its settings, the reading of its clock, and the state of each part. This
module holds the operations that concern a single part, and what is merely looked up.
-/
namespace ContextAdvisor

/-- The rules with the decision tree that was compiled from them. -/
structure CompiledRules (α : Type) [Scalar α] where
  rules : List (Rule α)
  tree : DecisionTree
  exists_tree_eq : ∃ maxKeys, tree = DecisionTree.compile rules maxKeys

namespace CompiledRules

variable {α : Type} [Scalar α]

/-- The table of a rule list. -/
def ofRules (maxKeys : Nat) (rules : List (Rule α)) : CompiledRules α :=
  ⟨rules, DecisionTree.compile rules maxKeys, maxKeys, rfl⟩

/-- The place of the first rule with an identity. -/
def place? (table : CompiledRules α) (id : String) : Option Nat :=
  table.rules.findIdx? fun rule => rule.id == id

end CompiledRules

/-- The learner, what watches over it, and the features under which each action was last chosen. -/
structure WatchedLearner (α : Type) [Scalar α] where
  bandit : Bandit α
  monitor : Monitor (Arms α) α
  lastFeatures : Dictionary (Features α)

/-- The state of an engine. -/
structure Engine (α : Type) [Scalar α] where
  settings : Settings α
  clock : Instant
  schedule : Schedule
  table : CompiledRules α
  events : EventLog
  limiter : Limiter
  queue : DigestQueue
  learner : WatchedLearner α
  guard : Guard α
  tray : Tray α
  motion : MotionClassifier α
  sampler : Sampler
  places : Places

namespace Engine

variable {α : Type} [Scalar α]

/-- An engine that has just been set up, with a given reading of its clock and the generator that
the seed stands for. -/
def start (settings : Settings α) (clock : Instant) (generator : Generator α) : Engine α where
  settings := settings
  clock := clock
  schedule := ⟨settings.installTime.getD clock⟩
  table := .ofRules settings.maxTreeKeys []
  events := .empty EventLog.defaultCapacity settings.eventMaxAge
  limiter := .ofLimits settings.rateLimits
  queue := .ofPolicy settings.digest
  learner := ⟨.ofSettings settings.bandit generator, .ofSettings settings.guard, ∅⟩
  guard := .ofSettings settings.guard
  tray := .ofSettings settings.tray
  motion := .ofThresholds settings.motion
  sampler := .ofPlan settings.sampling
  places := ∅

/-- Puts a rule list in the place of the present one. -/
def loadRules (engine : Engine α) (rules : List (Rule α)) : Engine α :=
  { engine with table := .ofRules engine.settings.maxTreeKeys rules }

/-- Adds a rule, or replaces the first one with its identity. -/
def addRule (engine : Engine α) (rule : Rule α) : Engine α :=
  match engine.table.place? rule.id with
  | some place => engine.loadRules (engine.table.rules.set place rule)
  | none => engine.loadRules (engine.table.rules ++ [rule])

/-- Removes the first rule with an identity and ends its cooldown; the flag says whether there was
one. -/
def removeRule (engine : Engine α) (id : String) : Bool × Engine α :=
  match engine.table.place? id with
  | some place =>
    let engine := engine.loadRules (engine.table.rules.eraseIdx place)
    (true, { engine with limiter := engine.limiter.forget id })
  | none => (false, engine)

/-- Enables or disables the first rule with an identity; the flag says whether there is one. If the
rule is as it should be, the tree is not compiled again. -/
def enableRule (engine : Engine α) (id : String) (enabled : Bool) : Bool × Engine α :=
  match engine.table.place? id with
  | some place =>
    if (engine.table.rules[place]?).map (·.enabled) = some enabled then (true, engine)
    else
      let rules := engine.table.rules.modify place fun rule => { rule with enabled := enabled }
      (true, engine.loadRules rules)
  | none => (false, engine)

/-- Reports an event; without an instant it happens now. -/
def pushEvent (engine : Engine α) (kind : String) (snapshot : Context) (time : Option Instant) :
    Engine α :=
  { engine with events := engine.events.push ⟨kind, snapshot, time.getD engine.clock⟩ }

/-- Writes a sensor value now. -/
def put (engine : Engine α) (key value : String) (quality : α) (source : Option String) :
    Engine α :=
  { engine with tray := engine.tray.put key value quality source engine.clock }

/-- Reads a sensor value now. -/
def get (engine : Engine α) (key : String) : SensorReading α := engine.tray.get key engine.clock

/-- The present context. -/
def snapshot (engine : Engine α) : Context := engine.tray.snapshot engine.clock

/-- Changes how long values of a key stay fresh. -/
def setLifetime (engine : Engine α) (key : String) (lifetime : Duration) : Engine α :=
  { engine with tray := engine.tray.setLifetime key lifetime }

/-- Takes a visit to a place into account; the flag says whether a new name was learned. -/
def learnPlace (engine : Engine α) (place : String) (wifi bluetooth : Option String) :
    Bool × Engine α :=
  let hour := (engine.tray.localHour? engine.clock).getD 0
  let (learned, places) := engine.places.learn place wifi bluetooth engine.clock hour
  (learned, { engine with places := places })

/-- Notes that a network is in reach. If it belongs to exactly one place, the device is there. -/
def observeWifi (engine : Engine α) (ssid : String) : List String × Engine α :=
  let engine := engine.put "wifiSsid" ssid 1.0 (some "wifi")
  let places := engine.places.withWifi ssid
  match places with
  | [place] => (places, engine.put "geofence" place 1.0 (some "wifi"))
  | _ => (places, engine)

/-- Forgets a place; the flag says whether it was known. -/
def forgetPlace (engine : Engine α) (place : String) : Bool × Engine α :=
  let (known, places) := engine.places.forget place
  (known, { engine with places := places })

/-- Passes a result on for delivery, as pressing as its rule. -/
def dispatch (engine : Engine α) (result : RuleMatch α) : Option Delivery × Engine α :=
  let rule := engine.table.rules.find? fun rule => rule.id == result.ruleId
  let urgency := (rule.map fun rule => Urgency.ofWeight rule.priority).getD .normal
  let (delivery, queue) := engine.queue.offer result.ruleId result.action urgency engine.clock
  (delivery, { engine with queue := queue })

/-- Delivers what has waited long enough. -/
def flushPending (engine : Engine α) : Option Delivery × Engine α :=
  let (delivery, queue) := engine.queue.flushDue engine.clock
  (delivery, { engine with queue := queue })

/-- The phase of the hand-over. -/
def phase (engine : Engine α) : Phase := engine.schedule.phase α engine.clock

/-- The weights of the rules and the learner. -/
def weights (engine : Engine α) : Weights α := engine.schedule.weights engine.clock

/-- How often the safeguards stepped in, with what the monitor counted. -/
def guardStats (engine : Engine α) : Interventions :=
  { engine.guard.stats with
    checkpoints := engine.learner.monitor.checkpoints
    rollbacks := engine.learner.monitor.rollbacks }

end Engine

/-- A motion reading, and the sampling intervals if they change with it. -/
structure MotionReport (α : Type) where
  reading : MotionEstimate α
  intervals : Option SamplingIntervals

/-- Takes a measurement of acceleration and speed into account and writes the state of motion. -/
def Engine.observeMotion {α : Type} [Analytic α] (engine : Engine α) (sample : Acceleration α)
    (speed : Option α) : MotionReport α × Engine α :=
  let (reading, motion) := engine.motion.detect sample speed
  let (intervals, sampler) := engine.sampler.update reading.state
  let engine := { engine with motion := motion, sampler := sampler }
  (⟨reading, intervals⟩,
    engine.put "motionState" reading.state.name reading.confidence (some "motion"))

end ContextAdvisor
