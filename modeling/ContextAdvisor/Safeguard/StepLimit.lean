import ContextAdvisor.Arithmetic.Scalar

/-!
# Limits on how fast a parameter moves

One update moves a learned parameter by at most a fixed share of its size, or by the share itself
where the parameter is smaller than one. An update that is not a finite number changes nothing.
-/
namespace ContextAdvisor

/-- The share by which a parameter may move. -/
structure StepLimit (α : Type) where
  rate : α

namespace StepLimit

variable {α : Type} [Scalar α]

/-- The limit for a rate, whose sign does not matter. -/
def ofRate (rate : α) : StepLimit α := ⟨Scalar.abs rate⟩

/-- A twentieth. -/
def standard : StepLimit α := ofRate 0.05

/-- How far a parameter may move from its old value. -/
def maxStep (limit : StepLimit α) (old : α) : α :=
  Scalar.max (Scalar.abs old * limit.rate) limit.rate

/-- The value to take instead of a proposed one, and whether it differs from what was proposed. -/
def apply (limit : StepLimit α) (old proposed : α) : α × Bool :=
  if !Scalar.isFinite proposed then (old, true)
  else
    let step := limit.maxStep old
    let delta := proposed - old
    if Scalar.abs delta ≤ step then (proposed, false)
    else (old + Scalar.signum delta * step, true)

end StepLimit

end ContextAdvisor
