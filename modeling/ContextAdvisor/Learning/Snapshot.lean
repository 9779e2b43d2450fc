import ContextAdvisor.Json.Parser
import ContextAdvisor.Json.Printer
import ContextAdvisor.Json.Reader
import ContextAdvisor.Learning.Bandit

/-!
# Snapshots of what was learned

A snapshot is a JSON object with a format version, the strategy, the number of features and one
record for each arm. The inverse of a design matrix is not written but computed again. When a
snapshot is read, records that are no arms are left out; of records for one action the last counts.
-/
namespace ContextAdvisor

namespace Arms

variable {α : Type} [Scalar α]

/-- The latest format of snapshots. -/
def snapshotVersion : Nat := 1

/-- The strategy to which the arms belong. -/
def strategy : Arms α → Strategy
  | averages _ => .epsilonGreedy
  | linear _ => .linUcb

section

variable [Recorded α]

/-- The record of an arm that keeps an average. -/
def averageRecord (id : String) (arm : AverageArm α) : Json :=
  .object [("avg", Json.ofScalar (if arm.pulls = 0 then 0.0 else arm.average)),
    ("id", .string id), ("pulls", .integer arm.pulls), ("totalReward", Json.ofScalar arm.total)]

/-- A list of scalars as an array. -/
def vectorJson {n : Nat} (v : Vector α n) : Json := .array (v.toList.map Json.ofScalar)

/-- The record of an arm that keeps a design matrix. -/
def linearRecord (id : String) (arm : LinearArm α featureCount) : Json :=
  .object [("a", .array (arm.a.toList.map vectorJson)), ("b", vectorJson arm.b),
    ("id", .string id), ("pulls", .integer arm.pulls)]

/-- The records of all arms, in the order of their actions. -/
def records : Arms α → List Json
  | averages arms => arms.entries.map fun (id, arm) => averageRecord id arm
  | linear arms => arms.entries.map fun (id, arm) => linearRecord id arm

/-- The snapshot of a table. -/
def toJson (table : Arms α) : Json :=
  .object [("version", .integer snapshotVersion), ("strategy", .string table.strategy.name),
    ("dim", .integer featureCount), ("arms", .array table.records)]

/-- The text of a snapshot. -/
def exportText (table : Arms α) : String := table.toJson.compact

end

/-- A list of exactly `n` values as a vector. -/
def vector? {β : Type} (n : Nat) (xs : List β) : Option (Vector β n) :=
  if h : xs.length = n then some ⟨xs.toArray, by simpa using h⟩ else none

/-- Reads the record of an arm that keeps an average. -/
def readAverage? : Reader (String × AverageArm α) := fun tree => do
  let fields ← Fields.read? ["id", "pulls", "totalReward"] tree
  let id ← fields.required "id" Reader.text
  let pulls ← fields.required "pulls" Reader.nat
  let total ← fields.required "totalReward" Reader.scalar
  return (id, ⟨pulls, total⟩)

/-- Reads the record of an arm that keeps a design matrix. -/
def readLinear? (mode : Inversion) : Reader (String × LinearArm α featureCount) := fun tree => do
  let fields ← Fields.read? ["id", "pulls", "a", "b"] tree
  let id ← fields.required "id" Reader.text
  let pulls ← fields.required "pulls" Reader.nat
  let rows ← fields.required "a" (Reader.list (Reader.list Reader.scalar))
  let b ← fields.required "b" (Reader.list Reader.scalar)
  let rows ← rows.mapM (vector? featureCount)
  return (id, .ofParts mode (← vector? featureCount rows) (← vector? featureCount b) pulls)

/-- What a snapshot holds before its records are looked at. -/
structure Header where
  version : Nat
  strategy : String
  dim : Nat
  arms : List Json

/-- Reads a snapshot without looking at its records; these are values two containers deep. -/
def readHeader? : Reader Header := fun tree => do
  let fields ← Fields.read? ["version", "strategy", "dim", "arms"] tree
  return {
    version := ← fields.required "version" (Reader.natBelow 65536)
    strategy := ← fields.required "strategy" Reader.text
    dim := ← fields.required "dim" Reader.nat
    arms := ← fields.required "arms" (Reader.list (Syntax.value? (Syntax.depthLimit - 2))) }

/-- The arms in the records that can be read; of records for one action the last counts. -/
def Header.dictionary {β : Type} (header : Header) (read : Reader (String × β)) : Dictionary β :=
  Dictionary.ofList (header.arms.filterMap fun arm => read arm.toSyntax)

/-- The arms of a snapshot for a learner with a given strategy. -/
def ofHeader (expected : Strategy) (mode : Inversion) (header : Header) :
    Except DocumentFault (Arms α) :=
  if snapshotVersion < header.version then
    .error (.unsupportedVersion header.version snapshotVersion)
  else if header.strategy ≠ expected.name then
    .error (.strategyMismatch expected.name header.strategy)
  else match expected with
    | .epsilonGreedy => .ok (averages (header.dictionary readAverage?))
    | .linUcb =>
      if header.dim ≠ featureCount then .error (.dimensionMismatch featureCount header.dim)
      else .ok (linear (header.dictionary (readLinear? mode)))

/-- Reads a snapshot from its text. -/
def importText (expected : Strategy) (mode : Inversion) (text : String) :
    Except DocumentFault (Arms α) :=
  match (Syntax.parse? text).bind readHeader? with
  | some header => ofHeader expected mode header
  | none => .error .invalidJson

end Arms

end ContextAdvisor
