import ContextAdvisor.Rule.Basic
import ContextAdvisor.Dictionary
import ContextAdvisor.Text.Words

/-!
# How well a context fits

A condition scores between 0 and 1. A comparison that holds scores 1, one that just fails scores
less the further the value lies beyond the bound, and a missing value scores one half. Questions
about past events are put to whoever knows the history, and score 0 or 1.

The confidence of a rule is the product of its scores, taken in order and cut short once it has
become negligible.
-/
namespace ContextAdvisor

/-- A question about past events. -/
inductive Question where
  /-- Was there an event of this kind within the window? -/
  | recent (kind : String) (window : Int)
  /-- Did the first kind occur before the latest of the second, both within the window? -/
  | sequence (first second : String) (window : Int)
  deriving DecidableEq

/-- Who answers questions about past events. -/
abbrev History := Question → Bool

/-- The history in which nothing has happened. -/
def History.nothing : History := fun _ => false

namespace Score

variable {α : Type} [Scalar α]

/-- The score of a condition whose key has no value. -/
def missing : α := 0.5

/-- The product below which a rule is not examined further. -/
def negligible : α := 0.01

/-- Falls linearly from 1 at distance 0 to 0 at the margin, and stays there. -/
def decay (distance margin : α) : α := Scalar.max (1.0 - distance / margin) 0.0

/-- A tenth of a size, but at least 1. -/
def margin (size : α) : α := Scalar.max (size * 0.1) 1.0

end Score

/-- The number in a text, blanks around it aside, if it is finite. -/
def readNumber? {α : Type} [Scalar α] (text : String) : Option α :=
  Scalar.readFinite? (Text.trim text.toList)

namespace Condition

variable {α : Type} [Scalar α]

/-- Does the comparison hold? Only the four orders compare numbers. -/
def holds (op : Operator) (actual threshold : α) : Bool :=
  match op with
  | .gt => threshold < actual
  | .gte => threshold ≤ actual
  | .lt => actual < threshold
  | _ => actual ≤ threshold

/-- The score of an order comparison. Values that are no numbers compare as texts, for equality. -/
def thresholdScore (op : Operator) (actual threshold : String) : α :=
  match readNumber? (α := α) actual, readNumber? (α := α) threshold with
  | some a, some t =>
    if holds op a t then 1.0 else Score.decay (Scalar.abs (a - t)) (Score.margin (Scalar.abs t))
  | _, _ => Scalar.ofBool (actual == threshold)

/-- The score of a number against `low,high`. Anything but two bounds scores 0. -/
def rangeScore (actual bounds : String) : α :=
  match readNumber? (α := α) actual, (Text.listed bounds.toList).map Scalar.readFinite? with
  | some a, [some low, some high] =>
    if low ≤ a ∧ a ≤ high then 1.0
    else Score.decay (if a < low then low - a else a - high) (Score.margin (high - low))
  | _, _ => 0.0

/-- The score of a condition on a value; questions about events score 0 here. -/
def scoreOf (c : Condition) (actual : String) : α :=
  match c.op with
  | .eq => Scalar.ofBool (actual == c.value)
  | .neq => Scalar.ofBool (actual != c.value)
  | .oneOf => Scalar.ofBool ((Text.listed c.value.toList).contains actual.toList)
  | .gt | .gte | .lt | .lte => thresholdScore c.op actual c.value
  | .range => rangeScore actual c.value
  | .recent | .within | .unknown _ => 0.0

/-- The score of a condition against a context, without a history. -/
def softScore (c : Condition) (context : Context) : α :=
  match context.get? c.key with
  | some actual => c.scoreOf actual
  | none => if c.op.isTemporal || c.op.isUnknown then 0.0 else Score.missing

/-- The window of a temporal condition: a whole number of milliseconds, not negative. -/
def window? (c : Condition) : Option Int :=
  (Text.readInteger? (Text.trim c.value.toList)).filter (0 ≤ ·)

/-- The question that a temporal condition puts: `event:kind` for a recent event,
`sequence:first,second` for two events in order. Malformed conditions put none. -/
def question? (c : Condition) : Option Question :=
  match c.op with
  | .recent => do
    let kind ← Text.afterLabel? "event:".toList c.key.toList
    let window ← c.window?
    if kind.isEmpty then none else some (.recent (String.ofList kind) window)
  | .within => do
    let names ← Text.afterLabel? "sequence:".toList c.key.toList
    let window ← c.window?
    let (first, second) ← Text.cutAtComma? names
    let first := Text.trim first
    let second := Text.trim second
    if first.isEmpty || second.isEmpty then none
    else some (.sequence (String.ofList first) (String.ofList second) window)
  | _ => none

/-- The score of a condition against a context and a history. -/
def score (history : History) (context : Context) (c : Condition) : α :=
  if c.op.isTemporal then
    match c.question? with
    | some question => Scalar.ofBool (history question)
    | none => 0.0
  else c.softScore context

end Condition

namespace Score

variable {α : Type} [Scalar α]

/-- Multiplies scores onto a product until it is negligible. -/
def productFrom (product : α) : List α → α
  | [] => product
  | score :: rest =>
    let next := product * score
    if next < negligible then next else productFrom next rest

/-- How many scores `productFrom` takes into account. -/
def examinedFrom (product : α) : List α → Nat
  | [] => 0
  | score :: rest =>
    let next := product * score
    if next < negligible then 1 else examinedFrom next rest + 1

end Score

namespace Rule

variable {α : Type} [Scalar α]

/-- The confidence of a list of conditions; 1 if there are none. -/
def confidence (history : History) (context : Context) (conditions : List Condition) : α :=
  Score.productFrom 1.0 (conditions.map (Condition.score history context))

/-- The conditions that were examined before the product became negligible. -/
def examined (α : Type) [Scalar α] (history : History) (context : Context)
    (conditions : List Condition) : List Condition :=
  conditions.take
    (Score.examinedFrom (1.0 : α) (conditions.map (Condition.score history context)))

end Rule

end ContextAdvisor
