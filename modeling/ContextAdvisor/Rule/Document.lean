import ContextAdvisor.Json.Parser
import ContextAdvisor.Json.Printer
import ContextAdvisor.Json.Reader
import ContextAdvisor.Rule.Basic

/-!
# Rule documents

A rule set is a JSON array of objects. Reading is lenient where a document written by hand tends to
differ: a condition's value may be any scalar or a list of scalars, most fields have defaults, and
an entry that is no rule is left out without harm to the others. Writing uses one form only: for
each record `toJson` writes every field and `read?` takes them back.
-/
namespace ContextAdvisor

namespace Json

/-- The text of a single value: a string as it is, nothing for `null`, else its JSON text. -/
def scalarText : Json → String
  | .string s => s
  | .null => ""
  | other => other.compact

/-- The text of a condition's value: a list is written with commas between its entries. -/
def lenientText : Json → String
  | .array items => String.intercalate "," (items.map scalarText)
  | other => other.scalarText

end Json

/-- Reads any value as a text. -/
def Reader.lenientText : Reader String := fun tree =>
  (Syntax.value? Syntax.depthLimit tree).map Json.lenientText

namespace Condition

def toJson (c : Condition) : Json :=
  .object [("key", .string c.key), ("op", .string c.op.name), ("value", .string c.value)]

def read? : Reader Condition := fun tree => do
  let fields ← Fields.read? ["key", "op", "value"] tree
  return {
    key := ← fields.required "key" Reader.text
    op := Operator.ofName (← fields.required "op" Reader.text)
    value := ← fields.withDefault "value" "" Reader.lenientText }

end Condition

namespace Action

def toJson (a : Action) : Json :=
  .object [("id", .string a.id), ("type", .string a.kind), ("payload", .string a.payload)]

def read? : Reader Action := fun tree => do
  let fields ← Fields.read? ["id", "type", "payload"] tree
  return {
    id := ← fields.withDefault "id" "" Reader.text
    kind := ← fields.withDefault "type" "" Reader.text
    payload := ← fields.withDefault "payload" "" Reader.text }

end Action

namespace Rule

variable {α : Type} [Scalar α]

def toJson [Recorded α] (r : Rule α) : Json :=
  .object [("id", .string r.id), ("name", .string r.name),
    ("conditions", .array (r.conditions.map Condition.toJson)), ("action", r.action.toJson),
    ("priority", Json.ofScalar r.priority), ("cooldownMs", .integer r.cooldown),
    ("enabled", .bool r.enabled)]

def read? : Reader (Rule α) := fun tree => do
  let fields ← Fields.read?
    ["id", "name", "conditions", "action", "priority", "cooldownMs", "enabled"] tree
  return {
    id := ← fields.required "id" Reader.text
    name := ← fields.withDefault "name" "" Reader.text
    conditions := ← fields.withDefault "conditions" [] (Reader.list Condition.read?)
    action := ← fields.withDefault "action" default Action.read?
    priority := ← fields.withDefault "priority" 1.0 Reader.scalar
    cooldown := ← fields.withDefault "cooldownMs" 0 Reader.int
    enabled := ← fields.withDefault "enabled" true Reader.bool }

/-- The JSON array of a rule set. -/
def listToJson [Recorded α] (rules : List (Rule α)) : Json := .array (rules.map toJson)

/-- The text of a rule set. -/
def exportText [Recorded α] (rules : List (Rule α)) : String := (listToJson rules).compact

/-- The rules in a list of entries, those that are none left out. -/
def ofEntries (entries : List Json) : List (Rule α) :=
  entries.filterMap fun entry => read? entry.toSyntax

/-- Reads a rule set from its text. -/
def importText (text : String) : Except DocumentFault (List (Rule α)) :=
  match Json.parse? text with
  | none => .error .invalidJson
  | some (.array entries) => .ok (ofEntries entries)
  | some _ => .error (.notAnArray "rules")

end Rule

namespace RuleMatch

variable {α : Type} [Scalar α]

def toJson [Recorded α] (m : RuleMatch α) : Json :=
  .object [("ruleId", .string m.ruleId), ("confidence", Json.ofScalar m.confidence),
    ("action", m.action.toJson)]

def read? : Reader (RuleMatch α) := fun tree => do
  let fields ← Fields.read? ["ruleId", "confidence", "action"] tree
  return {
    ruleId := ← fields.required "ruleId" Reader.text
    confidence := ← fields.required "confidence" Reader.scalar
    action := ← fields.required "action" Action.read? }

end RuleMatch

end ContextAdvisor
