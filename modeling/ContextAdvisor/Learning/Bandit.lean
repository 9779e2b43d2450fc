import ContextAdvisor.Learning.EpsilonGreedy
import ContextAdvisor.Learning.LinUcb

/-!
# The learner of an engine

The engine learns with one of two strategies. Both select among candidates, take rewards into
account and can be copied, restored and reset; only one of them looks at features.
-/
namespace ContextAdvisor

/-- The number of features of a context. -/
def featureCount : Nat := 10

/-- The features of a context. -/
abbrev Features (α : Type) := Vector α featureCount

/-- How the engine learns. -/
inductive Strategy where
  | epsilonGreedy
  | linUcb
  deriving DecidableEq

/-- The name of a strategy. -/
def Strategy.name : Strategy → String
  | epsilonGreedy => "epsilon_greedy"
  | linUcb => "lin_ucb"

/-- The settings of the learner. -/
structure BanditSettings (α : Type) where
  strategy : Strategy
  epsilon : α
  alpha : α
  gamma : α
  inverse : Inversion
  seed : Option Nat
  deriving BEq

/-- The usual settings. -/
def BanditSettings.standard {α : Type} [Scalar α] : BanditSettings α where
  strategy := .epsilonGreedy
  epsilon := 0.1
  alpha := 1.0
  gamma := 0.99
  inverse := .diagonal
  seed := none

/-- The arms of a learner, apart from its settings. -/
inductive Arms (α : Type) where
  | averages (arms : Dictionary (AverageArm α))
  | linear (arms : Dictionary (LinearArm α featureCount))

/-- The number of arms. -/
def Arms.size {α : Type} : Arms α → Nat
  | averages arms => arms.size
  | linear arms => arms.size

/-- A learner with one of the strategies. -/
inductive Bandit (α : Type) [Scalar α] where
  | epsilonGreedy (learner : EpsilonGreedy α)
  | linUcb (learner : LinUcb α featureCount)

namespace Bandit

variable {α : Type} [Scalar α]

/-- The learner before any reward, with the generator that its seed stands for. -/
def ofSettings (settings : BanditSettings α) (generator : Generator α) : Bandit α :=
  match settings.strategy with
  | .epsilonGreedy => .epsilonGreedy (.ofEpsilon settings.epsilon generator)
  | .linUcb => .linUcb (.ofParameters settings.alpha settings.gamma settings.inverse)

/-- The strategy of a learner. -/
def strategy : Bandit α → Strategy
  | epsilonGreedy _ => .epsilonGreedy
  | linUcb _ => .linUcb

/-- Selects one of the candidates. -/
def select {α : Type} [Analytic α] (bandit : Bandit α) (candidates : List String) (x : Features α) :
    Option (Selection α) × Bandit α :=
  match bandit with
  | epsilonGreedy learner =>
    let (selection, learner) := learner.select candidates
    (selection, epsilonGreedy learner)
  | linUcb learner => (learner.select candidates x, linUcb learner)

/-- Takes a reward into account. The strategy that looks at features cannot do so without any. The
number says how many parameters were held back. -/
def update? (limit : StepLimit α) (bandit : Bandit α) (id : String) (reward : α)
    (features : Option (Features α)) : Option (Nat × Bandit α) :=
  match bandit with
  | epsilonGreedy learner =>
    let (held, learner) := learner.update limit id reward
    some (held, epsilonGreedy learner)
  | linUcb learner =>
    features.map fun x =>
      let (held, learner) := learner.update limit id x reward
      (held, linUcb learner)

/-- The arms. -/
def arms : Bandit α → Arms α
  | epsilonGreedy learner => .averages learner.arms
  | linUcb learner => .linear learner.arms

/-- Puts other arms in the place of the present ones; they have to fit the strategy. -/
def restore? (bandit : Bandit α) (table : Arms α) : Option (Bandit α) :=
  match bandit, table with
  | epsilonGreedy learner, .averages arms => some (epsilonGreedy { learner with arms := arms })
  | linUcb learner, .linear arms => some (linUcb { learner with arms := arms })
  | _, _ => none

/-- Forgets all rewards. -/
def reset : Bandit α → Bandit α
  | epsilonGreedy learner => epsilonGreedy learner.reset
  | linUcb learner => linUcb learner.reset

/-- The number of arms. -/
def armCount (bandit : Bandit α) : Nat := bandit.arms.size

end Bandit

end ContextAdvisor
