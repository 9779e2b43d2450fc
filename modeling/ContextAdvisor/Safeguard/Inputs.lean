import ContextAdvisor.Arithmetic.Scalar
import ContextAdvisor.Dictionary
import ContextAdvisor.Text.Words

/-!
# Trustworthy inputs

The learner is fed numbers taken from the context. Each of them has a range in which it makes
sense; a value that is missing, no number or out of range is replaced by a default, and the
replacements are counted.
-/
namespace ContextAdvisor

/-- The range of a numeric context value, and what stands in for values outside. -/
structure InputRange (α : Type) where
  key : String
  min : α
  max : α
  fallback : α
  deriving BEq

/-- The numbers taken from a context. -/
structure SoundInputs (α : Type) where
  values : Dictionary α
  /-- How many of them are defaults. -/
  replaced : Nat

namespace InputRange

variable {α : Type} [Scalar α]

/-- The ranges of the values that the learner looks at. -/
def standard : List (InputRange α) :=
  [⟨"hour", 0.0, 24.0, 12.0⟩, ⟨"batteryLevel", 0.0, 100.0, 50.0⟩, ⟨"isCharging", 0.0, 1.0, 0.0⟩,
    ⟨"isWeekend", 0.0, 1.0, 0.0⟩]

/-- The number in a context value; truth values count as 1 and 0. -/
def read? (raw : String) : Option α :=
  let word := Text.trim raw.toList
  if word = "true".toList then some 1.0
  else if word = "false".toList then some 0.0
  else ((Numeral.read? word).bind Scalar.ofNumeral?).filter (!Scalar.isUndefined ·)

/-- The value of the range's key in a context, if it is a number in range. -/
def value? (range : InputRange α) (context : Context) : Option α :=
  ((context.get? range.key).bind read?).filter fun v => range.min ≤ v ∧ v ≤ range.max

end InputRange

namespace SoundInputs

variable {α : Type} [Scalar α]

/-- Inputs that are known to be sound; of repeated keys the last one counts. -/
def ofList (pairs : List (String × α)) : SoundInputs α := ⟨Dictionary.ofList pairs, 0⟩

/-- The number for a key. -/
def get? (inputs : SoundInputs α) (key : String) : Option α := inputs.values.get? key

/-- Takes the number of one more range. -/
def add (context : Context) (inputs : SoundInputs α) (range : InputRange α) :
    SoundInputs α :=
  match range.value? context with
  | some v => { inputs with values := inputs.values.insert range.key v }
  | none => ⟨inputs.values.insert range.key range.fallback, inputs.replaced + 1⟩

/-- The numbers that the ranges take from a context. -/
def ofContext (ranges : List (InputRange α)) (context : Context) : SoundInputs α :=
  ranges.foldl (add context) ⟨∅, 0⟩

end SoundInputs

end ContextAdvisor
