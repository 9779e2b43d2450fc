import ContextAdvisor.Arithmetic.Scalar
import ContextAdvisor.Dictionary

/-!
# JSON trees

One tree type serves the text of a document and the values it stands for. A `Syntax` tree is what
was written: members in their order, repeated keys kept, numbers unrounded, and `none` for a string
whose escapes name an unpaired surrogate. A `Json` tree is a value: every string is a text, the
members of an object ascend by key, and every number is an integer of at most 64 bits or a binary64
number in its shortest form.

`value?` turns syntax into a value. It fails at an unreadable string, at a number beyond the range
of binary64 and below a given depth; of repeated keys the last one counts.
-/
namespace ContextAdvisor

/-- JSON with strings of type `σ`. -/
inductive Tree (σ : Type) where
  | null
  | bool (b : Bool)
  | integer (n : Int)
  | decimal (d : Decimal)
  | string (s : σ)
  | array (items : List (Tree σ))
  | object (members : List (σ × Tree σ))
  deriving Inhabited

/-- A JSON value. -/
abbrev Json := Tree String

/-- A JSON text as it was written. -/
abbrev Syntax := Tree (Option String)

namespace Json

mutual

/-- The syntax that writes a value. -/
def toSyntax : Json → Syntax
  | .null => .null
  | .bool b => .bool b
  | .integer n => .integer n
  | .decimal d => .decimal d
  | .string s => .string (some s)
  | .array items => .array (itemsToSyntax items)
  | .object members => .object (membersToSyntax members)

/-- The syntax of each item. -/
def itemsToSyntax : List Json → List Syntax
  | [] => []
  | item :: rest => toSyntax item :: itemsToSyntax rest

/-- The syntax of each member. -/
def membersToSyntax : List (String × Json) → List (Option String × Syntax)
  | [] => []
  | (key, value) :: rest => (some key, toSyntax value) :: membersToSyntax rest

end

/-- Does the integer fit a signed or an unsigned 64-bit word? -/
def fitsWord (n : Int) : Bool := -9223372036854775808 ≤ n && n < 18446744073709551616

/-- The value of a decimal: the nearest binary64 number in its shortest form. -/
def ofDecimal? (d : Decimal) : Option Json :=
  let x := Binary64.ofDecimal d
  if x.isFinite then some (.decimal (Recorded.decimal x)) else none

/-- The value of an integer. One that fits no word is rounded like a decimal. -/
def ofInteger? (n : Int) : Option Json :=
  if fitsWord n then some (.integer n) else ofDecimal? ⟨n < 0, n.natAbs, 0⟩

/-- The document form of a scalar. What is not a finite number becomes `null`. -/
def ofScalar {α : Type} [Scalar α] [Recorded α] (x : α) : Json :=
  if Scalar.isFinite x then .decimal (Recorded.decimal x) else .null

/-- The document form of an optional value. -/
def ofOption {α : Type} (write : α → Json) : Option α → Json
  | some x => write x
  | none => .null

end Json

namespace Syntax

/-- How deep containers may nest in a document. -/
def depthLimit : Nat := 127

mutual

/-- The value of a syntax tree whose containers nest at most `depth` deep. -/
def value? : (depth : Nat) → Syntax → Option Json
  | _, .null => some .null
  | _, .bool b => some (.bool b)
  | _, .integer n => Json.ofInteger? n
  | _, .decimal d => Json.ofDecimal? d
  | _, .string s => s.map .string
  | 0, .array _ => none
  | depth + 1, .array items => (values? depth items).map .array
  | 0, .object _ => none
  | depth + 1, .object members =>
    (memberValues? depth members).map fun ms => .object (Dictionary.ofList ms).entries

/-- The values of all items. -/
def values? : (depth : Nat) → List Syntax → Option (List Json)
  | _, [] => some []
  | depth, item :: rest => do
    let v ← value? depth item
    let vs ← values? depth rest
    return v :: vs

/-- The keys and values of all members, in the order of writing. -/
def memberValues? : (depth : Nat) → List (Option String × Syntax) → Option (List (String × Json))
  | _, [] => some []
  | depth, (key, item) :: rest => do
    let k ← key
    let v ← value? depth item
    let vs ← memberValues? depth rest
    return (k, v) :: vs

end

end Syntax

end ContextAdvisor
