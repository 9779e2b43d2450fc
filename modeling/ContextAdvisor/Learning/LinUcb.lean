import ContextAdvisor.Dictionary
import ContextAdvisor.Learning.Selection
import ContextAdvisor.Learning.Matrix
import ContextAdvisor.Safeguard.StepLimit

/-!
# Learning the reward of an action in its context

An arm keeps a regularised design matrix `a` of the contexts in which its action was rewarded, and
the vector `b` of rewards along each feature. Its estimate of the reward is linear in the features;
to it is added a width that shrinks with experience, so that what is little known is tried. Older
experience fades by a factor, and there is a limit to how far an update moves each parameter.
-/
namespace ContextAdvisor

/-- How the design matrix is inverted. -/
inductive Inversion where
  | diagonal
  | full
  deriving DecidableEq

/-- The name of an inverse mode. -/
def Inversion.name : Inversion → String
  | diagonal => "diagonal"
  | full => "full"

/-- The inverse that a mode computes. A matrix without inverse is inverted by its diagonal. -/
def Square.inverseBy {α : Type} [Scalar α] {d : Nat} (mode : Inversion) (m : Square α d) :
    Square α d :=
  match mode with
  | .diagonal => m.diagonalInverse
  | .full => m.inverse?.getD m.diagonalInverse

/-- What is known about one action. -/
structure LinearArm (α : Type) (d : Nat) where
  a : Square α d
  b : Vector α d
  pulls : Nat
  inverse : Square α d

namespace LinearArm

variable {α : Type} {d : Nat}

section

variable [Scalar α]

/-- The least entry on the diagonal of a design matrix. -/
def ridge : α := 1.0

/-- An arm that has not been tried. -/
def fresh : LinearArm α d := ⟨.identity, Vector.replicate d 0.0, 0, .identity⟩

/-- The arm with given parameters. -/
def ofParts (mode : Inversion) (a : Square α d) (b : Vector α d) (pulls : Nat) : LinearArm α d :=
  ⟨a, b, pulls, a.inverseBy mode⟩

/-- The estimated coefficients. -/
def theta (arm : LinearArm α d) : Vector α d := arm.inverse.mulVec arm.b

/-- The design matrix after an update, each entry with a flag that says whether it was held back. -/
def updatedDesign (limit : StepLimit α) (fade : α) (arm : LinearArm α d) (x : Vector α d) :
    Square (α × Bool) d :=
  .ofFn fun i j =>
    let old := arm.a.entry i j
    let (value, cut) := limit.apply old (fade * old + x.get i * x.get j)
    (if i = j then Scalar.max value ridge else value, cut)

/-- The reward vector after an update, each entry with a flag that says whether it was held back. -/
def updatedRewards (limit : StepLimit α) (fade : α) (arm : LinearArm α d) (x : Vector α d)
    (reward : α) : Vector (α × Bool) d :=
  Vector.ofFn fun i =>
    let old := arm.b.get i
    limit.apply old (fade * old + reward * x.get i)

/-- Takes a reward into account that was given for features `x`; the number says how many
parameters were held back. -/
def update (limit : StepLimit α) (fade : α) (mode : Inversion) (arm : LinearArm α d)
    (x : Vector α d) (reward : α) : Nat × LinearArm α d :=
  let design := arm.updatedDesign limit fade x
  let rewards := arm.updatedRewards limit fade x reward
  let held := (design.toList.flatMap Vector.toList ++ rewards.toList).countP (·.2)
  (held, ofParts mode (design.map (·.map (·.1))) (rewards.map (·.1)) (arm.pulls + 1))

end

section

variable [Analytic α]

/-- How little is known about the features. -/
def width (arm : LinearArm α d) (x : Vector α d) : α :=
  Analytic.sqrt (Scalar.max (dot x (arm.inverse.mulVec x)) 0.0)

/-- The estimated reward, raised by a multiple of the width. -/
def score (arm : LinearArm α d) (alpha : α) (x : Vector α d) : α :=
  dot arm.theta x + alpha * arm.width x

/-- How much evidence the estimate rests on. -/
def confidence (arm : LinearArm α d) (x : Vector α d) : α :=
  evidence arm.pulls / (1.0 + arm.width x)

end

end LinearArm

/-- The learner that looks at the context. -/
structure LinUcb (α : Type) (d : Nat) where
  arms : Dictionary (LinearArm α d)
  /-- How much the width counts. -/
  alpha : α
  /-- The factor by which experience fades. -/
  gamma : α
  mode : Inversion

namespace LinUcb

variable {α : Type} {d : Nat}

section

variable [Scalar α]

/-- The spacing of binary64 numbers at one, the least factor by which experience may fade. -/
def leastGamma : α := 1.0 / 4503599627370496.0

/-- The learner before any reward. -/
def ofParameters (alpha gamma : α) (mode : Inversion) : LinUcb α d :=
  ⟨∅, Scalar.max alpha 0.0, Scalar.clamp gamma leastGamma 1.0, mode⟩

/-- The arm of an action. -/
def arm (learner : LinUcb α d) (id : String) : LinearArm α d :=
  (learner.arms.get? id).getD .fresh

/-- Takes a reward for an action into account; the number says how many parameters were held
back. -/
def update (limit : StepLimit α) (learner : LinUcb α d) (id : String) (x : Vector α d)
    (reward : α) : Nat × LinUcb α d :=
  let (held, arm) := (learner.arm id).update limit learner.gamma learner.mode x reward
  (held, { learner with arms := learner.arms.insert id arm })

/-- Forgets all rewards. -/
def reset (learner : LinUcb α d) : LinUcb α d := { learner with arms := ∅ }

end

section

variable [Analytic α]

/-- The score of an action for some features. -/
def score (learner : LinUcb α d) (id : String) (x : Vector α d) : α :=
  (learner.arm id).score learner.alpha x

/-- The better of the best selection so far and a candidate, which has to be strictly better. -/
def better (learner : LinUcb α d) (x : Vector α d) (best : Option (Selection α))
    (candidate : String × Nat) : Option (Selection α) :=
  let score := learner.score candidate.1 x
  let selection : Selection α :=
    ⟨candidate.2, candidate.1, score, (learner.arm candidate.1).confidence x, false⟩
  match best with
  | some b => if b.score < score then some selection else some b
  | none => some selection

/-- Selects the first of the candidates with the best score. -/
def select (learner : LinUcb α d) (candidates : List String) (x : Vector α d) :
    Option (Selection α) :=
  candidates.zipIdx.foldl (learner.better x) none

end

end LinUcb

end ContextAdvisor
