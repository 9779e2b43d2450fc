import ContextAdvisor.Engine.Settings
import ContextAdvisor.Json.Parser
import ContextAdvisor.Json.Printer
import ContextAdvisor.Json.Reader

/-!
# Configuration documents

Every group of settings is a JSON object. `toJson` writes all settings of a group, `read?` takes a
group from a document. Settings that a document leaves out keep their usual values; the range of an
input and the intervals of a state have to be given in full.
-/
namespace ContextAdvisor

namespace FiringLimits

def toJson (c : FiringLimits) : Json :=
  .object [("categoryMax", .integer c.categoryMax),
    ("categoryWindowMs", .integer c.categoryWindow),
    ("globalMaxPerHour", .integer c.globalMaxPerHour)]

def read? : Reader FiringLimits := fun tree => do
  let fields ← Fields.read? ["categoryMax", "categoryWindowMs", "globalMaxPerHour"] tree
  let usual := standard
  return {
    categoryMax := ← fields.withDefault "categoryMax" usual.categoryMax Reader.nat
    categoryWindow := ← fields.withDefault "categoryWindowMs" usual.categoryWindow Reader.int
    globalMaxPerHour :=
      ← fields.withDefault "globalMaxPerHour" usual.globalMaxPerHour Reader.nat }

end FiringLimits

namespace DigestPolicy

def toJson (c : DigestPolicy) : Json :=
  .object [("windowMs", .integer c.window), ("threshold", .integer c.threshold)]

def read? : Reader DigestPolicy := fun tree => do
  let fields ← Fields.read? ["windowMs", "threshold"] tree
  return {
    window := ← fields.withDefault "windowMs" standard.window Reader.int
    threshold := ← fields.withDefault "threshold" standard.threshold Reader.nat }

end DigestPolicy

/-- Reads the name of a strategy. -/
def Strategy.read? : Reader Strategy := Reader.choice Strategy.name [.epsilonGreedy, .linUcb]

/-- Reads the name of an inverse mode. -/
def Inversion.read? : Reader Inversion := Reader.choice Inversion.name [.diagonal, .full]

namespace BanditSettings

variable {α : Type} [Scalar α]

def toJson [Recorded α] (c : BanditSettings α) : Json :=
  .object [("strategy", .string c.strategy.name), ("epsilon", Json.ofScalar c.epsilon),
    ("alpha", Json.ofScalar c.alpha), ("gamma", Json.ofScalar c.gamma),
    ("inverse", .string c.inverse.name), ("seed", Json.ofOption (.integer ·) c.seed)]

def read? : Reader (BanditSettings α) := fun tree => do
  let fields ← Fields.read? ["strategy", "epsilon", "alpha", "gamma", "inverse", "seed"] tree
  let usual : BanditSettings α := standard
  return {
    strategy := ← fields.withDefault "strategy" usual.strategy Strategy.read?
    epsilon := ← fields.withDefault "epsilon" usual.epsilon Reader.scalar
    alpha := ← fields.withDefault "alpha" usual.alpha Reader.scalar
    gamma := ← fields.withDefault "gamma" usual.gamma Reader.scalar
    inverse := ← fields.withDefault "inverse" usual.inverse Inversion.read?
    seed := ← fields.withDefault "seed" usual.seed (Reader.nullable Reader.nat) }

end BanditSettings

namespace InputRange

variable {α : Type} [Scalar α]

def toJson [Recorded α] (b : InputRange α) : Json :=
  .object [("key", .string b.key), ("min", Json.ofScalar b.min), ("max", Json.ofScalar b.max),
    ("default", Json.ofScalar b.fallback)]

def fromJson? : Reader (InputRange α) := fun tree => do
  let fields ← Fields.read? ["key", "min", "max", "default"] tree
  return {
    key := ← fields.required "key" Reader.text
    min := ← fields.required "min" Reader.scalar
    max := ← fields.required "max" Reader.scalar
    fallback := ← fields.required "default" Reader.scalar }

end InputRange

namespace GuardSettings

variable {α : Type} [Scalar α]

def toJson [Recorded α] (c : GuardSettings α) : Json :=
  .object [("bounds", .array (c.ranges.map InputRange.toJson)),
    ("rewardHistory", .integer c.rewardHistory),
    ("rewardMinSamples", .integer c.rewardMinSamples),
    ("rewardSigma", Json.ofScalar c.rewardSigma), ("rewardClip", Json.ofScalar c.rewardClip),
    ("paramRate", Json.ofScalar c.paramRate),
    ("uncertaintyThreshold", Json.ofScalar c.uncertaintyThreshold),
    ("monitorWindow", .integer c.monitorWindow),
    ("checkpointInterval", .integer c.checkpointInterval),
    ("rollbackDrop", Json.ofScalar c.rollbackDrop)]

def read? : Reader (GuardSettings α) := fun tree => do
  let fields ← Fields.read? ["bounds", "rewardHistory", "rewardMinSamples", "rewardSigma",
    "rewardClip", "paramRate", "uncertaintyThreshold", "monitorWindow", "checkpointInterval",
    "rollbackDrop"] tree
  let usual : GuardSettings α := standard
  return {
    ranges := ← fields.withDefault "bounds" usual.ranges (Reader.list InputRange.fromJson?)
    rewardHistory := ← fields.withDefault "rewardHistory" usual.rewardHistory Reader.nat
    rewardMinSamples := ← fields.withDefault "rewardMinSamples" usual.rewardMinSamples Reader.nat
    rewardSigma := ← fields.withDefault "rewardSigma" usual.rewardSigma Reader.scalar
    rewardClip := ← fields.withDefault "rewardClip" usual.rewardClip Reader.scalar
    paramRate := ← fields.withDefault "paramRate" usual.paramRate Reader.scalar
    uncertaintyThreshold :=
      ← fields.withDefault "uncertaintyThreshold" usual.uncertaintyThreshold Reader.scalar
    monitorWindow := ← fields.withDefault "monitorWindow" usual.monitorWindow Reader.nat
    checkpointInterval :=
      ← fields.withDefault "checkpointInterval" usual.checkpointInterval Reader.nat
    rollbackDrop := ← fields.withDefault "rollbackDrop" usual.rollbackDrop Reader.scalar }

end GuardSettings

namespace TraySettings

def toJson (c : TraySettings) : Json :=
  .object [
    ("ttlOverrides", .object (c.lifetimes.entries.map fun (key, ttl) => (key, .integer ttl))),
    ("utcOffsetMinutes", Json.ofOption .integer c.utcOffsetMinutes)]

def read? : Reader TraySettings := fun tree => do
  let fields ← Fields.read? ["ttlOverrides", "utcOffsetMinutes"] tree
  return {
    lifetimes := ← fields.withDefault "ttlOverrides" ∅ (Reader.dictionary Reader.int)
    utcOffsetMinutes :=
      ← fields.withDefault "utcOffsetMinutes" none
          (Reader.nullable (Reader.intWithin 2147483648)) }

end TraySettings

namespace MotionThresholds

variable {α : Type} [Scalar α]

def toJson [Recorded α] (c : MotionThresholds α) : Json :=
  .object [("stationaryThreshold", Json.ofScalar c.stationaryThreshold),
    ("walkingThreshold", Json.ofScalar c.walkingThreshold),
    ("runningThreshold", Json.ofScalar c.runningThreshold),
    ("drivingSpeed", Json.ofScalar c.drivingSpeed), ("highSpeed", Json.ofScalar c.highSpeed),
    ("movingSpeed", Json.ofScalar c.movingSpeed), ("history", .integer c.history)]

def read? : Reader (MotionThresholds α) := fun tree => do
  let fields ← Fields.read? ["stationaryThreshold", "walkingThreshold", "runningThreshold",
    "drivingSpeed", "highSpeed", "movingSpeed", "history"] tree
  let usual : MotionThresholds α := standard
  return {
    stationaryThreshold :=
      ← fields.withDefault "stationaryThreshold" usual.stationaryThreshold Reader.scalar
    walkingThreshold :=
      ← fields.withDefault "walkingThreshold" usual.walkingThreshold Reader.scalar
    runningThreshold :=
      ← fields.withDefault "runningThreshold" usual.runningThreshold Reader.scalar
    drivingSpeed := ← fields.withDefault "drivingSpeed" usual.drivingSpeed Reader.scalar
    highSpeed := ← fields.withDefault "highSpeed" usual.highSpeed Reader.scalar
    movingSpeed := ← fields.withDefault "movingSpeed" usual.movingSpeed Reader.scalar
    history := ← fields.withDefault "history" usual.history Reader.nat }

end MotionThresholds

namespace SamplingIntervals

def toJson (i : SamplingIntervals) : Json :=
  .object [("gpsMs", .integer i.gps), ("wifiMs", Json.ofOption .integer i.wifi),
    ("accelMs", .integer i.accel)]

def read? : Reader SamplingIntervals := fun tree => do
  let fields ← Fields.read? ["gpsMs", "wifiMs", "accelMs"] tree
  return {
    gps := ← fields.required "gpsMs" Reader.int
    wifi := ← fields.nullable "wifiMs" Reader.int
    accel := ← fields.required "accelMs" Reader.int }

end SamplingIntervals

namespace SamplingPlan

def toJson (p : SamplingPlan) : Json :=
  .object [("stationary", p.stationary.toJson), ("walking", p.walking.toJson),
    ("running", p.running.toJson), ("driving", p.driving.toJson), ("unknown", p.unknown.toJson)]

def read? : Reader SamplingPlan := fun tree => do
  let fields ← Fields.read? ["stationary", "walking", "running", "driving", "unknown"] tree
  return {
    stationary := ← fields.withDefault "stationary" standard.stationary SamplingIntervals.read?
    walking := ← fields.withDefault "walking" standard.walking SamplingIntervals.read?
    running := ← fields.withDefault "running" standard.running SamplingIntervals.read?
    driving := ← fields.withDefault "driving" standard.driving SamplingIntervals.read?
    unknown := ← fields.withDefault "unknown" standard.unknown SamplingIntervals.read? }

end SamplingPlan

namespace Settings

variable {α : Type} [Scalar α]

def toJson [Recorded α] (c : Settings α) : Json :=
  .object [("maxTreeKeys", .integer c.maxTreeKeys),
    ("minConfidence", Json.ofScalar c.minConfidence),
    ("installTimeMs", Json.ofOption .integer c.installTime),
    ("eventMaxAgeMs", .integer c.eventMaxAge), ("rateLimits", c.rateLimits.toJson),
    ("merge", c.digest.toJson), ("bandit", c.bandit.toJson), ("guard", c.guard.toJson),
    ("tray", c.tray.toJson), ("motion", c.motion.toJson), ("sampling", c.sampling.toJson)]

def read? : Reader (Settings α) := fun tree => do
  let fields ← Fields.read? ["maxTreeKeys", "minConfidence", "installTimeMs", "eventMaxAgeMs",
    "rateLimits", "merge", "bandit", "guard", "tray", "motion", "sampling"] tree
  let usual : Settings α := standard
  return {
    maxTreeKeys := ← fields.withDefault "maxTreeKeys" usual.maxTreeKeys Reader.nat
    minConfidence := ← fields.withDefault "minConfidence" usual.minConfidence Reader.scalar
    installTime :=
      ← fields.withDefault "installTimeMs" usual.installTime (Reader.nullable Reader.int)
    eventMaxAge := ← fields.withDefault "eventMaxAgeMs" usual.eventMaxAge Reader.int
    rateLimits := ← fields.withDefault "rateLimits" usual.rateLimits FiringLimits.read?
    digest := ← fields.withDefault "merge" usual.digest DigestPolicy.read?
    bandit := ← fields.withDefault "bandit" usual.bandit BanditSettings.read?
    guard := ← fields.withDefault "guard" usual.guard GuardSettings.read?
    tray := ← fields.withDefault "tray" usual.tray TraySettings.read?
    motion := ← fields.withDefault "motion" usual.motion MotionThresholds.read?
    sampling := ← fields.withDefault "sampling" usual.sampling SamplingPlan.read? }

/-- The text of all settings. -/
def exportText [Recorded α] (c : Settings α) : String := c.toJson.pretty

/-- Reads settings from their text. -/
def importText (text : String) : Except DocumentFault (Settings α) :=
  match (Syntax.parse? text).bind read? with
  | some settings => .ok settings
  | none => .error .invalidJson

end Settings

end ContextAdvisor
