import ContextAdvisor.Time

/-!
# The context keys with a meaning of their own

Any text can be a context key. Those that name the clock, the device or a sensor have a known cost
to obtain and a known time for which a value stays fresh; every other key has the defaults.
-/
namespace ContextAdvisor.Vocabulary

/-- The keys that are read off the clock. -/
def clockKeys : List String := ["hour", "minute", "timeOfDay", "dayOfWeek", "isWeekend"]

/-- The keys that the device reports about itself. -/
def deviceKeys : List String := ["batteryLevel", "isCharging", "networkType"]

/-- The keys that need a location fix or a dedicated sensor. -/
def sensorKeys : List String :=
  ["geofence", "location", "latitude", "longitude", "wifiSsid", "cellId", "heartRate",
    "ambientLight", "noiseLevel"]

/-- How costly it is to obtain the value of a key, from 0 to 3. -/
def cost (key : String) : Nat :=
  if clockKeys.contains key then 0
  else if deviceKeys.contains key then 1
  else if sensorKeys.contains key then 3
  else 2

/-- How long values stay fresh, for the keys that differ from the common two minutes. -/
def lifetimes : List (String × Duration) :=
  [("batteryLevel", 5 * .minute), ("isCharging", 5 * .minute), ("motionState", 30 * .second),
    ("stepCount", 30 * .second), ("geofence", 5 * .minute), ("cellId", 10 * .minute),
    ("heartRate", .minute), ("ambientLight", 30 * .second), ("noiseLevel", 30 * .second)]

/-- How long a value of the key stays fresh; values read off the clock do not age. -/
def lifetime? (key : String) : Option Duration :=
  if clockKeys.contains key then none
  else some ((lifetimes.lookup key).getD (2 * .minute))

end ContextAdvisor.Vocabulary
