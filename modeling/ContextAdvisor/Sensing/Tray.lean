import ContextAdvisor.Json.Tree
import ContextAdvisor.Sensing.Calendar
import ContextAdvisor.Vocabulary

/-!
# The latest sensor values

The tray holds the last value written for each key, with the quality that its source claims for it.
A value keeps its quality while it is fresh, loses it evenly during a second time span of the same
length, and has none afterwards.
-/
namespace ContextAdvisor

/-- The settings of a tray. -/
structure TraySettings where
  lifetimes : Dictionary Duration
  utcOffsetMinutes : Option Int
  deriving BEq

/-- No settings of its own. -/
def TraySettings.standard : TraySettings := ⟨∅, none⟩

/-- The last value written for a key. -/
structure TrayEntry (α : Type) where
  value : String
  written : Instant
  lifetime : Option Duration
  quality : α
  source : String

/-- What the tray says about a key. -/
structure SensorReading (α : Type) where
  value : Option String
  quality : α
  fresh : Bool
  age : Duration

/-- A row of the tray's overview. -/
structure TrayRow (α : Type) where
  key : String
  value : String
  age : Duration
  lifetime : Option Duration
  fresh : Bool
  quality : α
  source : String

/-- The latest value of each key. -/
structure Tray (α : Type) where
  slots : Dictionary (TrayEntry α)
  settings : TraySettings

namespace TrayEntry

variable {α : Type} [Scalar α]

/-- The time since the value was written; a value from the future is new. -/
def age (slot : TrayEntry α) (now : Instant) : Duration := max (now - slot.written) 0

/-- Is a value of this age fresh? Without a lifetime it always is. -/
def isFresh (slot : TrayEntry α) (now : Instant) : Bool :=
  match slot.lifetime with
  | some lifetime => slot.age now < lifetime
  | none => true

/-- The share of its quality that a stale value keeps. -/
def decay (lifetime age : Duration) : α :=
  if 0 < lifetime then
    Scalar.max (1.0 - Scalar.ofInt (age - lifetime) / Scalar.ofInt lifetime) 0.0
  else 0.0

/-- The quality of the value at an instant. -/
def qualityAt (slot : TrayEntry α) (now : Instant) : α :=
  match slot.lifetime with
  | some lifetime =>
    if slot.age now < lifetime then slot.quality
    else slot.quality * decay lifetime (slot.age now)
  | none => slot.quality

end TrayEntry

namespace TrayRow

def toJson {α : Type} [Scalar α] [Recorded α] (s : TrayRow α) : Json :=
  .object [("key", .string s.key), ("value", .string s.value), ("ageMs", .integer s.age),
    ("ttlMs", Json.ofOption .integer s.lifetime), ("fresh", .bool s.fresh),
    ("effectiveQuality", Json.ofScalar s.quality), ("source", .string s.source)]

end TrayRow

namespace Tray

variable {α : Type}

/-- The tray before any value is written. -/
def ofSettings (settings : TraySettings) : Tray α := ⟨∅, settings⟩

/-- How long values of a key stay fresh. -/
def lifetime? (tray : Tray α) (key : String) : Option Duration :=
  match tray.settings.lifetimes.get? key with
  | some lifetime => some lifetime
  | none => Vocabulary.lifetime? key

/-- Changes how long values of a key stay fresh, also for the value that is there. -/
def setLifetime (tray : Tray α) (key : String) (lifetime : Duration) : Tray α where
  slots := match tray.slots.get? key with
    | some slot => tray.slots.insert key { slot with lifetime := some lifetime }
    | none => tray.slots
  settings := { tray.settings with lifetimes := tray.settings.lifetimes.insert key lifetime }

/-- Removes all values. -/
def clear (tray : Tray α) : Tray α := { tray with slots := ∅ }

/-- The civil time at an instant. -/
def localTime? (tray : Tray α) (now : Instant) : Option Instant :=
  Calendar.localTime? tray.settings.utcOffsetMinutes now

/-- The hour of the day at an instant. -/
def localHour? (tray : Tray α) (now : Instant) : Option Nat :=
  (tray.localTime? now).map Calendar.hour

/-- The values as a context, with what the calendar says about the instant. -/
def snapshot (tray : Tray α) (now : Instant) : Context :=
  let values := tray.slots.map (·.value)
  match tray.localTime? now with
  | some time => (Calendar.fields time).foldl (fun c (key, value) => c.insert key value) values
  | none => values

variable [Scalar α]

/-- The quality that is on record for a claimed one: limited to `[0, 1]`, and zero if undefined. -/
def admitQuality (quality : α) : α :=
  if Scalar.isUndefined quality then 0.0 else Scalar.clamp quality 0.0 1.0

/-- Writes a value. The source is the key itself if none is named. -/
def put (tray : Tray α) (key value : String) (quality : α) (source : Option String)
    (now : Instant) : Tray α :=
  let slot : TrayEntry α :=
    ⟨value, now, tray.lifetime? key, admitQuality quality, source.getD key⟩
  { tray with slots := tray.slots.insert key slot }

/-- The quality of a key without a value. -/
def missingQuality : α := 0.5

/-- Reads the value of a key. -/
def get (tray : Tray α) (key : String) (now : Instant) : SensorReading α :=
  match tray.slots.get? key with
  | some slot => ⟨some slot.value, slot.qualityAt now, slot.isFresh now, slot.age now⟩
  | none => ⟨none, missingQuality, false, 0⟩

/-- The overview of all keys, in ascending order. -/
def status (tray : Tray α) (now : Instant) : List (TrayRow α) :=
  tray.slots.entries.map fun (key, slot) =>
    ⟨key, slot.value, slot.age now, slot.lifetime, slot.isFresh now, slot.qualityAt now,
      slot.source⟩

end Tray

end ContextAdvisor
