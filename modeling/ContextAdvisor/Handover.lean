import ContextAdvisor.Arithmetic.Scalar
import ContextAdvisor.Json.Reader
import ContextAdvisor.Time

/-!
# Handing over from rules to learning

At first only the rules decide. Over the weeks after installation the learner gains weight, along a
continuous piecewise linear curve, until it has nine tenths. A choice weighs the rules' proposal
against the learner's; a learner that is unsure leaves the choice to the rules, and half its weight
with it.
-/
namespace ContextAdvisor

/-- The stages of the hand-over. -/
inductive Phase where
  | bootstrap
  | rampUp
  | transition
  | stable
  deriving DecidableEq

/-- The weights of the two sides. -/
structure Weights (α : Type) where
  rule : α
  learned : α
  deriving BEq

/-- Reads the two weights. -/
def Weights.read? {α : Type} [Scalar α] : Reader (Weights α) := fun tree => do
  let fields ← Fields.read? ["rule", "learned"] tree
  return {
    rule := ← fields.required "rule" Reader.scalar
    learned := ← fields.required "learned" Reader.scalar }

namespace Handover

variable {α : Type} [Scalar α]

/-- The day on which the learner starts to count. -/
def rampUpStart : α := 14.0

/-- The day on which the rules start to recede. -/
def transitionStart : α := 28.0

/-- The day on which the learner leads. -/
def stableStart : α := 56.0

/-- The day from which the weights stay as they are. -/
def settled : α := 70.0

/-- The learner's confidence below which the rules decide. -/
def lowConfidence : α := 0.3

/-- Rises linearly from 0 to 1 over a span; a span that is not positive is over at once. -/
def ramp (elapsed span : α) : α :=
  if span ≤ 0.0 then 1.0 else Scalar.clamp (elapsed / span) 0.0 1.0

end Handover

namespace Phase

/-- The phase some days after installation. -/
def ofDays {α : Type} [Scalar α] (days : α) : Phase :=
  if days < Handover.rampUpStart then bootstrap
  else if days < Handover.transitionStart then rampUp
  else if days < Handover.stableStart then transition
  else stable

/-- The name of a phase. -/
def name : Phase → String
  | bootstrap => "bootstrap"
  | rampUp => "rampup"
  | transition => "transition"
  | stable => "stable"

end Phase

open Handover in
/-- The weights some days after installation; they add up to one. -/
def Weights.atDays {α : Type} [Scalar α] (days : α) : Weights α :=
  let d := Scalar.max days 0.0
  let learned : α := match Phase.ofDays d with
    | .bootstrap => 0.0
    | .rampUp => 0.3 * ramp (d - rampUpStart) (transitionStart - rampUpStart)
    | .transition => 0.3 + 0.4 * ramp (d - transitionStart) (stableStart - transitionStart)
    | .stable => 0.7 + (0.9 - 0.7) * ramp (d - stableStart) (settled - stableStart)
  ⟨1.0 - learned, learned⟩

/-- The hand-over that starts at an installation. -/
structure Schedule where
  install : Instant
  deriving DecidableEq

namespace Schedule

variable {α : Type} [Scalar α]

/-- The days since installation; none before it. -/
def days (schedule : Schedule) (now : Instant) : α :=
  Scalar.max (Scalar.ofInt (now - schedule.install) / Scalar.ofInt Duration.day) 0.0

/-- The phase at an instant. -/
def phase (α : Type) [Scalar α] (schedule : Schedule) (now : Instant) : Phase :=
  Phase.ofDays (schedule.days now : α)

/-- The weights at an instant. -/
def weights (schedule : Schedule) (now : Instant) : Weights α :=
  .atDays (schedule.days now)

end Schedule

/-- Whose proposal was taken. -/
inductive Source where
  | rule
  | learned
  /-- The rules', because the learner was not sure enough. -/
  | ruleFallback
  deriving DecidableEq

/-- The name of a source. -/
def Source.name : Source → String
  | rule => "rule"
  | learned => "learned"
  | ruleFallback => "rule_fallback"

/-- What one side proposes. -/
structure Proposal (ι α : Type) where
  item : ι
  confidence : α

/-- The proposal that was taken, and the weights under which it was. -/
structure Choice (ι α : Type) where
  item : ι
  confidence : α
  source : Source
  weights : Weights α

open Handover in
/-- Chooses between the proposals of the rules and of the learner. -/
def arbitrate {ι α : Type} [Scalar α] (rule learned : Option (Proposal ι α))
    (weights : Weights α) : Option (Choice ι α) :=
  match rule, learned with
  | none, none => none
  | some r, none => some ⟨r.item, r.confidence, .rule, weights⟩
  | none, some l => some ⟨l.item, l.confidence, .learned, weights⟩
  | some r, some l =>
    if l.confidence < lowConfidence then
      let moved := weights.learned / 2.0
      some ⟨r.item, r.confidence, .ruleFallback, ⟨weights.rule + moved, weights.learned - moved⟩⟩
    else if l.confidence * weights.learned ≤ r.confidence * weights.rule then
      some ⟨r.item, r.confidence, .rule, weights⟩
    else some ⟨l.item, l.confidence, .learned, weights⟩

end ContextAdvisor
