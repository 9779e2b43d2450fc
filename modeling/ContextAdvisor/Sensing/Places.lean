import ContextAdvisor.Json.Parser
import ContextAdvisor.Json.Printer
import ContextAdvisor.Json.Reader
import ContextAdvisor.Time

/-!
# Learning places

A place is known by the names of the wireless networks and Bluetooth peers seen there. Each visit
may add names, counts, and leaves its hour among the latest distinct hours of the place.
-/
namespace ContextAdvisor

/-- What is known about a place. -/
structure PlaceProfile where
  wifi : NameSet
  bluetooth : NameSet
  typicalHours : List Nat
  lastSeen : Instant
  visits : Nat

/-- What is known about all places. -/
abbrev Places := Dictionary PlaceProfile

namespace PlaceProfile

/-- A place that has not been visited. -/
def unvisited : PlaceProfile := ⟨∅, ∅, [], 0, 0⟩

/-- How many typical hours are kept. -/
def maxTypicalHours : Nat := 5

/-- The most visits that are counted. -/
def maxVisits : Nat := 4294967295

/-- Adds a name to a set; the flag says whether it is new. No name and the empty name add
nothing. -/
def addName (names : NameSet) : Option String → Bool × NameSet
  | some name =>
    if name.isEmpty || names.contains name then (false, names) else (true, names.insert name ())
  | none => (false, names)

/-- Adds an hour that is not there yet; the oldest gives way. -/
def addHour (hours : List Nat) (hour : Nat) : List Nat :=
  if hours.contains hour then hours
  else
    let hours := hours ++ [hour]
    if maxTypicalHours < hours.length then hours.tail else hours

/-- Takes a visit into account; the flag says whether a new name was learned. -/
def visit (profile : PlaceProfile) (wifi bluetooth : Option String) (now : Instant) (hour : Nat) :
    Bool × PlaceProfile :=
  let (newWifi, wifi) := addName profile.wifi wifi
  let (newPeer, bluetooth) := addName profile.bluetooth bluetooth
  (newWifi || newPeer,
    { wifi := wifi
      bluetooth := bluetooth
      typicalHours := addHour profile.typicalHours hour
      lastSeen := now
      visits := min (profile.visits + 1) maxVisits })

/-- A set of names as an array. -/
def namesJson (names : NameSet) : Json := .array (names.keys.map .string)

def toJson (s : PlaceProfile) : Json :=
  .object [("wifi", namesJson s.wifi), ("bluetooth", namesJson s.bluetooth),
    ("typicalHours", .array (s.typicalHours.map fun hour : Nat => .integer hour)),
    ("lastSeenMs", .integer s.lastSeen), ("visits", .integer s.visits)]

def read? : Reader PlaceProfile := fun tree => do
  let fields ← Fields.read? ["wifi", "bluetooth", "typicalHours", "lastSeenMs", "visits"] tree
  return {
    wifi := ← fields.withDefault "wifi" ∅ Reader.nameSet
    bluetooth := ← fields.withDefault "bluetooth" ∅ Reader.nameSet
    typicalHours :=
      ← fields.withDefault "typicalHours" [] (Reader.list (Reader.natBelow 4294967296))
    lastSeen := ← fields.withDefault "lastSeenMs" 0 Reader.int
    visits := ← fields.withDefault "visits" 0 (Reader.natBelow 4294967296) }

end PlaceProfile

namespace Places

/-- Takes a visit to a place into account; the flag says whether a new name was learned. -/
def learn (places : Places) (place : String) (wifi bluetooth : Option String) (now : Instant)
    (hour : Nat) : Bool × Places :=
  let (learned, profile) :=
    ((places.get? place).getD .unvisited).visit wifi bluetooth now hour
  (learned, places.insert place profile)

/-- Was the network seen at the place? -/
def matchesWifi (places : Places) (place ssid : String) : Bool :=
  match places.get? place with
  | some profile => profile.wifi.contains ssid
  | none => false

/-- The places at which a network was seen, in ascending order. -/
def withWifi (places : Places) (ssid : String) : List String :=
  (places.entries.filter fun (_, profile) => profile.wifi.contains ssid).map (·.1)

/-- Forgets a place; the flag says whether it was known. -/
def forget (places : Places) (place : String) : Bool × Places :=
  (places.contains place, places.erase place)

def toJson (places : Places) : Json :=
  .object (places.entries.map fun (id, profile) => (id, profile.toJson))

/-- The text of all places. -/
def exportText (places : Places) : String := places.toJson.compact

/-- Reads places from their text. -/
def importText (text : String) : Except DocumentFault Places :=
  match (Syntax.parse? text).bind (Reader.dictionary PlaceProfile.read?) with
  | some places => .ok places
  | none => .error .invalidJson

end Places

end ContextAdvisor
