import ContextAdvisor.Dictionary
import ContextAdvisor.Learning.Selection
import ContextAdvisor.Safeguard.StepLimit

/-!
# Learning the average reward of an action

An arm keeps the number of its rewards and their total. An arm without rewards has an optimistic
average, so it is tried before any arm that does worse. With a small probability the learner picks
any candidate at random, otherwise the one with the best average.
-/
namespace ContextAdvisor

/-- What is known about one action. -/
structure AverageArm (α : Type) where
  pulls : Nat
  total : α
  deriving BEq

namespace AverageArm

variable {α : Type} [Scalar α]

/-- The average of an arm that has not been tried. -/
def optimisticAverage : α := 1.0

/-- An arm that has not been tried. -/
def fresh : AverageArm α := ⟨0, 0.0⟩

/-- The average reward. -/
def average (arm : AverageArm α) : α :=
  if arm.pulls = 0 then optimisticAverage else arm.total / Scalar.ofNat arm.pulls

/-- How much evidence the average rests on. -/
def confidence (arm : AverageArm α) : α := evidence arm.pulls

/-- Takes a reward into account. After the first reward there is a limit to how far the average
moves; the flag says whether it was reached. -/
def update (limit : StepLimit α) (arm : AverageArm α) (reward : α) : AverageArm α × Bool :=
  if arm.pulls = 0 then (⟨1, reward⟩, false)
  else
    let pulls := arm.pulls + 1
    let raw := (arm.total + reward) / Scalar.ofNat pulls
    let (average, clamped) := limit.apply arm.average raw
    (⟨pulls, average * Scalar.ofNat pulls⟩, clamped)

end AverageArm

/-- The learner that keeps averages only. -/
structure EpsilonGreedy (α : Type) [Scalar α] where
  arms : Dictionary (AverageArm α)
  epsilon : α
  generator : Generator α

namespace EpsilonGreedy

variable {α : Type} [Scalar α]

/-- The learner before any reward. -/
def ofEpsilon (epsilon : α) (generator : Generator α) : EpsilonGreedy α :=
  ⟨∅, Scalar.clamp epsilon 0.0 1.0, generator⟩

/-- The arm of an action. -/
def arm (learner : EpsilonGreedy α) (id : String) : AverageArm α :=
  (learner.arms.get? id).getD .fresh

/-- Is a value better than the best one so far? Without a best one, any value that exceeds all
infinitely bad ones is. -/
def isBetter (value : α) : Option (Nat × α) → Bool
  | some (_, best) => best < value
  | none => !Scalar.isUndefined value && !Scalar.isNegativeInfinity value

/-- The place of the first of the best values; the first place if no value is good enough. -/
def bestPlace (values : List α) : Nat :=
  let best := values.zipIdx.foldl (fun best (value, place) =>
    if isBetter value best then some (place, value) else best) none
  (best.map (·.1)).getD 0

/-- Picks the place of a candidate, and says whether it was picked at random. -/
def pick (learner : EpsilonGreedy α) (candidates : List String) :
    Nat × Bool × EpsilonGreedy α :=
  let greedy := bestPlace (candidates.map fun id => (learner.arm id).average)
  if 0.0 < learner.epsilon then
    let (explores, generator) := learner.generator.succeeds learner.epsilon
    if explores then
      let (place, generator) := generator.below candidates.length
      (place, true, { learner with generator := generator })
    else (greedy, false, { learner with generator := generator })
  else (greedy, false, learner)

/-- Selects one of the candidates. -/
def select (learner : EpsilonGreedy α) (candidates : List String) :
    Option (Selection α) × EpsilonGreedy α :=
  let (place, explored, next) := learner.pick candidates
  match candidates[place]? with
  | none => (none, learner)
  | some id =>
    (some ⟨place, id, (learner.arm id).average, (learner.arm id).confidence, explored⟩, next)

/-- Takes a reward for an action into account; the number says how many parameters were held
back. -/
def update (limit : StepLimit α) (learner : EpsilonGreedy α) (id : String) (reward : α) :
    Nat × EpsilonGreedy α :=
  let (arm, clamped) := (learner.arm id).update limit reward
  (clamped.toNat, { learner with arms := learner.arms.insert id arm })

/-- Forgets all rewards. -/
def reset (learner : EpsilonGreedy α) : EpsilonGreedy α := { learner with arms := ∅ }

end EpsilonGreedy

end ContextAdvisor
