import ContextAdvisor.Arithmetic.Scalar

/-!
# What a selection rests on

A learner picks a candidate by what it knows, and is the surer of it the more rewards it has seen,
or it picks one at random. Random draws are not computed here. A generator is whatever answers them:
its answers may depend on all earlier draws, and only what holds of every draw is required of them.
-/
namespace ContextAdvisor

/-- The number of pulls that makes half the full confidence. -/
def halfEvidencePulls {α : Type} [Scalar α] : α := 10.0

/-- Grows from 0 towards 1 with the number of pulls. -/
def evidence {α : Type} [Scalar α] (pulls : Nat) : α :=
  Scalar.ofNat pulls / (Scalar.ofNat pulls + halfEvidencePulls)

/-- The candidate that a learner picked. -/
structure Selection (α : Type) where
  index : Nat
  actionId : String
  score : α
  confidence : α
  /-- Was it picked at random? -/
  explored : Bool
  deriving BEq

/-- What a generator is asked for. -/
inductive Draw (α : Type) where
  /-- Something that happens with a probability. -/
  | chance (probability : α)
  /-- A number below `n`, all of them alike. -/
  | place (n : Nat)

/-- A random generator with the draws that were made, the latest first. -/
structure Generator (α : Type) [Scalar α] where
  chance : List (Draw α) → α → Bool
  place : List (Draw α) → Nat → Nat
  drawn : List (Draw α)
  chance_zero : ∀ drawn, chance drawn 0.0 = false
  chance_one : ∀ drawn, chance drawn 1.0 = true
  place_lt : ∀ drawn n, 0 < n → place drawn n < n

namespace Generator

variable {α : Type} [Scalar α]

/-- The generator with one more draw made. -/
def noting (g : Generator α) (draw : Draw α) : Generator α := { g with drawn := draw :: g.drawn }

/-- A draw that succeeds with a given probability. -/
def succeeds (g : Generator α) (probability : α) : Bool × Generator α :=
  (g.chance g.drawn probability, g.noting (.chance probability))

/-- A draw from the numbers below `n`. -/
def below (g : Generator α) (n : Nat) : Nat × Generator α :=
  (g.place g.drawn n, g.noting (.place n))

/-- The generator that takes no chances: only what is certain happens, and the first place is
drawn. -/
def steadyOf (not_one_le_zero : ¬ (1.0 : α) ≤ 0.0) (one_le_one : (1.0 : α) ≤ 1.0) :
    Generator α where
  chance _ probability := decide (1.0 ≤ probability)
  place _ _ := 0
  drawn := []
  chance_zero _ := decide_eq_false not_one_le_zero
  chance_one _ := decide_eq_true one_le_one
  place_lt _ _ h := h

/-- The same with floating-point probabilities. -/
def steadyFloat : Generator Float := .steadyOf (by decide) (by decide)

end Generator

end ContextAdvisor
