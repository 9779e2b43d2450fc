import ContextAdvisor.Json.Tree

/-!
# Reading records from JSON

A `Reader` takes the value of one type from a syntax tree, or nothing if the tree has another shape.
It looks only at what it reads: members it does not know may hold anything, readable or not.

A record is read from an object by the names of its fields, or from an array by their order. Read
by name, a field may not occur twice; read by position, only the last fields may be left out.

Each way in which loading a whole document fails is one `DocumentFault`.
-/
namespace ContextAdvisor

/-- Why a document was refused. -/
inductive DocumentFault where
  /-- The text is no JSON, or its JSON does not have the shape of the record. -/
  | invalidJson
  /-- The text is JSON but no array of the named things. -/
  | notAnArray (things : String)
  /-- The document was written in a later format. -/
  | unsupportedVersion (found supported : Nat)
  /-- The document belongs to a learner with another strategy. -/
  | strategyMismatch (expected found : String)
  /-- The document's feature vectors have another length. -/
  | dimensionMismatch (expected found : Nat)
  deriving DecidableEq

/-- The text that explains a fault. -/
def DocumentFault.message : DocumentFault → String
  | invalidJson => "invalid json"
  | notAnArray things => "expected a json array of " ++ things
  | unsupportedVersion found supported =>
    "unsupported snapshot version " ++ toString found ++
      " (max supported " ++ toString supported ++ ")"
  | strategyMismatch expected found =>
    "bandit snapshot is for strategy '" ++ found ++ "', engine runs '" ++ expected ++ "'"
  | dimensionMismatch expected found =>
    "feature dimension mismatch: expected " ++ toString expected ++
      ", found " ++ toString found

/-- Takes a value from a syntax tree. -/
abbrev Reader (α : Type) := Syntax → Option α

namespace Reader

variable {α : Type}

/-- A string. -/
def text : Reader String
  | .string s => s
  | _ => none

/-- A truth value. -/
def bool : Reader Bool
  | .bool b => some b
  | _ => none

/-- A natural number below a bound. -/
def natBelow (bound : Nat) : Reader Nat
  | .integer n => if 0 ≤ n && n < bound then some n.toNat else none
  | _ => none

/-- A natural number of at most 64 bits. -/
def nat : Reader Nat := natBelow 18446744073709551616

/-- An integer from `-bound` to `bound - 1`. -/
def intWithin (bound : Nat) : Reader Int
  | .integer n => if -bound ≤ n && n < bound then some n else none
  | _ => none

/-- A signed integer of at most 64 bits. -/
def int : Reader Int := intWithin 9223372036854775808

/-- A scalar, written as an integer or as a decimal; it has to be finite. -/
def scalar [Scalar α] : Reader α
  | .integer n => (Scalar.ofNumeral? (.finite ⟨n < 0, n.natAbs, 0⟩)).filter Scalar.isFinite
  | .decimal d => (Scalar.ofNumeral? (.finite d)).filter Scalar.isFinite
  | _ => none

/-- `null` or a value. -/
def nullable (read : Reader α) : Reader (Option α)
  | .null => some none
  | tree => (read tree).map some

/-- An array of values. -/
def list (read : Reader α) : Reader (List α)
  | .array items => items.mapM read
  | _ => none

/-- An object with arbitrary keys; of repeated keys the last one counts. -/
def dictionary (read : Reader α) : Reader (Dictionary α)
  | .object members => do
    let entries ← members.mapM fun (key, tree) => do
      let k ← key
      let v ← read tree
      return (k, v)
    return Dictionary.ofList entries
  | _ => none

/-- An array of distinct or repeated names, as a set. -/
def nameSet (tree : Syntax) : Option NameSet :=
  (list text tree).map fun names => Dictionary.ofList (names.map (·, ()))

/-- One of some named alternatives: its name, or an object with the name as its only key and `null`
under it. -/
def choice (name : α → String) (alternatives : List α) : Reader α
  | .string (some word) => alternatives.find? (name · == word)
  | .object [(some word, .null)] => alternatives.find? (name · == word)
  | _ => none

end Reader

/-- The fields found in a record. -/
structure Fields where
  slots : List (String × Syntax)
  /-- Were the fields given by position? -/
  positional : Bool

namespace Fields

variable {α : Type}

/-- The members of an object under the given names, none of which may be repeated. -/
def named? (names : List String) (members : List (Option String × Syntax)) :
    Option (List (String × Syntax)) := do
  let members ← members.mapM fun (key, tree) => key.map (·, tree)
  let known := members.filter fun member => names.contains member.1
  if (names.all fun name => (known.filter (·.1 == name)).length ≤ 1) then some known else none

/-- Reads the fields with the given names from an object or, in this order, from an array. -/
def read? (names : List String) : Reader Fields
  | .object members => (named? names members).map (⟨·, false⟩)
  | .array items =>
    if items.length ≤ names.length then some ⟨names.zip items, true⟩ else none
  | _ => none

/-- A field that has to be present. -/
def required (fields : Fields) (name : String) (read : Reader α) : Option α :=
  (fields.slots.lookup name).bind read

/-- A field with a default for its absence. -/
def withDefault (fields : Fields) (name : String) (default : α) (read : Reader α) : Option α :=
  match fields.slots.lookup name with
  | some tree => read tree
  | none => some default

/-- A field that may be `null`, and absent too when fields are given by name. -/
def nullable (fields : Fields) (name : String) (read : Reader α) : Option (Option α) :=
  match fields.slots.lookup name with
  | some tree => Reader.nullable read tree
  | none => if fields.positional then none else some none

end Fields

end ContextAdvisor
