import ContextAdvisor.Engine.Feedback
import ContextAdvisor.Proofs.Arithmetic.Exact
import ContextAdvisor.Proofs.DecisionTree.Bounds
import ContextAdvisor.Proofs.Engine.Decide
import ContextAdvisor.Proofs.Learning.Selection

/-!
# Operations that may fault

Each operation is told again with the places at which it could go wrong: a place outside an array or
a list, or a clamp whose range has no points, leaves it without an answer. Over a compiled table and
with a clip range that is not empty, all of them have an answer, and it is that of the operation.
-/
namespace ContextAdvisor

variable {α : Type}

namespace Scalar

/-- What the bounds of clamps rely on. Binary64 numbers have it as well as exact ones. -/
structure SignLaws (α : Type) [Scalar α] : Prop where
  zero_le_one : (0.0 : α) ≤ 1.0
  neg_le_self : ∀ x : α, 0.0 ≤ x → -x ≤ x

theorem signLaws_exact {K : Type} [Field K] [LinearOrder K] [IsStrictOrderedRing K] :
    SignLaws K where
  zero_le_one := by norm_num
  neg_le_self x hx := by
    rw [exact_zero] at hx
    exact neg_le_self hx

/-- The nearest point of `[low, high]`, if the range has any. -/
def clamp? [Scalar α] (x low high : α) : Option α :=
  if low ≤ high then some (clamp x low high) else none

theorem SignLaws.clamp?_unit [Scalar α] (h : SignLaws α) (x : α) :
    clamp? x 0.0 1.0 = some (clamp x 0.0 1.0) := if_pos h.zero_le_one

end Scalar

open Scalar (SignLaws)

/-- The rise of a weight, with a clamp that may fault. -/
def Handover.ramp? [Scalar α] (elapsed span : α) : Option α :=
  if span ≤ 0.0 then some 1.0 else Scalar.clamp? (elapsed / span) 0.0 1.0

theorem Handover.ramp?_eq [Scalar α] (h : SignLaws α) (elapsed span : α) :
    ramp? elapsed span = some (ramp elapsed span) := by
  unfold ramp? ramp
  split_ifs
  · rfl
  · exact h.clamp?_unit _

open Handover in
/-- The weights some days after installation, with ramps that may fault. -/
def Weights.atDays? [Scalar α] (days : α) : Option (Weights α) := do
  let d := Scalar.max days 0.0
  let learned ← match Phase.ofDays d with
    | .bootstrap => some 0.0
    | .rampUp => (ramp? (d - rampUpStart) (transitionStart - rampUpStart)).map (0.3 * ·)
    | .transition =>
      (ramp? (d - transitionStart) (stableStart - transitionStart)).map (0.3 + 0.4 * ·)
    | .stable => (ramp? (d - stableStart) (settled - stableStart)).map (0.7 + (0.9 - 0.7) * ·)
  return ⟨1.0 - learned, learned⟩

theorem Weights.atDays?_eq [Scalar α] (h : SignLaws α) (days : α) :
    atDays? days = some (atDays days) := by
  unfold atDays? atDays
  simp only [Handover.ramp?_eq h, Option.map_some]
  cases Phase.ofDays (Scalar.max days 0.0) <;> rfl

/-- The features of a situation, with a clamp that may fault. -/
def Situation.features? [Analytic α] (s : Situation α) : Option (Features α) :=
  (Scalar.clamp? (s.batteryLevel / 100.0) 0.0 1.0).map fun level => s.features.set 2 level

theorem Situation.features?_eq [Analytic α] (h : SignLaws α) (s : Situation α) :
    s.features? = some s.features := by
  rw [features?, h.clamp?_unit]
  rfl

namespace Engine

section

variable [Scalar α] {engine : Engine α}

/-- The candidates that score high enough, read from the tree and the table with places that may be
missing. -/
def scored? (engine : Engine α) (context : Context) : Option (List (ScoredRule α)) := do
  let places ← engine.table.tree.candidates? context
  let rules ← places.mapM (engine.table.rules[·]?)
  return rules.filterMap (engine.score? context)

/-- An evaluation that may fault. -/
def evaluate? (engine : Engine α) (context : Context) (limit : Option Nat) :
    Option (List (RuleMatch α) × Engine α) :=
  if limit = some 0 then some ([], engine)
  else (engine.scored? context).map (engine.report · limit)

/-- Over a compiled table no place is missing. -/
theorem scored?_eq {maxKeys : Nat} (h : engine.table = .ofRules maxKeys engine.table.rules)
    (context : Context) : engine.scored? context = some (engine.scored context) := by
  have hcandidates : engine.table.tree.candidates? context =
      some (engine.table.tree.candidates context) := by
    rw [h]
    exact DecisionTree.candidates?_compile _ _ _
  have hrules : ∀ place ∈ engine.table.tree.candidates context,
      (engine.table.rules[place]?).isSome := by
    intro place hp
    rw [h] at hp
    obtain ⟨rule, hr, -⟩ := DecisionTree.mem_enabledPlaces.mp
      (DecisionTree.mem_enabledPlaces_of_mem_candidates hp)
    exact Option.isSome_of_eq_some hr
  simp only [scored?, hcandidates, Option.bind_eq_bind, Option.bind_some,
    mapM_eq_filterMap hrules, List.filterMap_filterMap, Option.pure_def, scored]

theorem evaluate?_eq {maxKeys : Nat} (h : engine.table = .ofRules maxKeys engine.table.rules)
    (context : Context) (limit : Option Nat) :
    engine.evaluate? context limit = some (engine.evaluate context limit) := by
  unfold evaluate? evaluate
  split_ifs
  · rfl
  · rw [scored?_eq h, Option.map_some]

end

section

variable [Analytic α] {engine : Engine α}

/-- The features of a context, with a clamp that may fault. -/
def observeFeatures? (engine : Engine α) (context : Context) :
    Option (Features α × Engine α) :=
  let (inputs, guard) := engine.guard.admitInputs context
  (Situation.ofInputs inputs context).features?.map fun features =>
    (features, { engine with guard := guard })

/-- A selection that may fault. -/
def select? (engine : Engine α) (candidates : List String) (context : Context) :
    Option (Option (Selection α) × Engine α) := do
  let (features, engine) ← engine.observeFeatures? context
  let (selection, bandit) ← engine.learner.bandit.select? candidates features
  let lastFeatures := match selection with
    | some s => engine.learner.lastFeatures.insert s.actionId features
    | none => engine.learner.lastFeatures
  let learner := { engine.learner with bandit := bandit, lastFeatures := lastFeatures }
  return (selection, { engine with learner := learner })

/-- A choice that may fault. -/
def choose? (engine : Engine α) (top : RuleMatch α) (results : List (RuleMatch α))
    (context : Context) : Option (Option (Decision α) × Engine α) := do
  let (selection, engine) ← engine.select? (actionIds results) context
  let weights ← Weights.atDays? (engine.schedule.days engine.clock)
  match arbitrate (some ⟨top, top.confidence⟩) (learnedProposal results selection) weights with
  | none => return (none, engine)
  | some choice =>
    let (choice, engine) := engine.gate top choice
    return (some ⟨choice.item, choice.source, choice.confidence, engine.phase, choice.weights⟩,
      engine)

/-- A decision that may fault. -/
def decide? (engine : Engine α) (context : Context) : Option (Option (Decision α) × Engine α) := do
  let (results, engine) ← engine.evaluate? context none
  match results with
  | [] => return (none, engine)
  | top :: _ => engine.choose? top results context

/-- A reward in a context, with a clamp that may fault. -/
def rewardIn? (engine : Engine α) (id : String) (reward : α) (context : Context) :
    Option (Except RewardFault (RewardOutcome α) × Engine α) := do
  let (features, engine) ← engine.observeFeatures? context
  return engine.applyReward id reward (some features)

theorem observeFeatures?_eq (h : SignLaws α) (engine : Engine α) (context : Context) :
    engine.observeFeatures? context = some (engine.observeFeatures context) := by
  simp only [observeFeatures?, Situation.features?_eq h, Option.map_some, observeFeatures]

theorem select?_eq (h : SignLaws α) (engine : Engine α) (candidates : List String)
    (context : Context) :
    engine.select? candidates context = some (engine.select candidates context) := by
  simp only [select?, observeFeatures?_eq h, Bandit.select?_eq, Option.bind_eq_bind,
    Option.bind_some, Option.pure_def]
  rfl

theorem choose?_eq (h : SignLaws α) (engine : Engine α) (top : RuleMatch α)
    (results : List (RuleMatch α)) (context : Context) :
    engine.choose? top results context = some (engine.choose top results context) := by
  have hweights : ∀ engine : Engine α,
      Weights.atDays? (engine.schedule.days engine.clock) = some engine.weights :=
    fun _ => Weights.atDays?_eq h _
  simp only [choose?, select?_eq h, hweights, Option.bind_eq_bind, Option.bind_some,
    Option.pure_def, choose]
  cases arbitrate (some ⟨top, top.confidence⟩)
    (learnedProposal results (engine.select (actionIds results) context).1)
    (engine.select (actionIds results) context).2.weights <;> rfl

theorem decide?_eq (h : SignLaws α) {maxKeys : Nat}
    (ht : engine.table = .ofRules maxKeys engine.table.rules) (context : Context) :
    engine.decide? context = some (engine.decide context) := by
  simp only [decide?, evaluate?_eq ht, Option.bind_eq_bind, Option.bind_some]
  cases hresults : (engine.evaluate context none).1 with
  | nil => simp only [decide, hresults, Option.pure_def]
  | cons top rest =>
    rw [decide_of_cons hresults]
    exact choose?_eq h _ _ _ _

/-- A reward is judged if the range to clip it to has points. -/
theorem exists_ok_applyReward (h : -engine.guard.rewards.clip ≤ engine.guard.rewards.clip)
    (id : String) (reward : α) (features : Option (Features α)) :
    ∃ outcome, (engine.applyReward id reward features).1 = .ok outcome := by
  have hjudged : ∃ verdict guard, engine.guard.judgeReward reward = .ok (verdict, guard) := by
    unfold Guard.judgeReward RewardFilter.judge
    by_cases hout : (!Scalar.isFinite reward || engine.guard.rewards.isOutlier reward) = true
    · exact ⟨_, _, by rw [if_pos hout]⟩
    · exact ⟨_, _, by rw [if_neg hout, if_pos h]⟩
  obtain ⟨verdict, guard, hj⟩ := hjudged
  simp only [applyReward, hj]
  cases verdict.value? with
  | none => exact ⟨_, rfl⟩
  | some applied =>
    dsimp only
    split <;> exact ⟨_, rfl⟩

end

end Engine

end ContextAdvisor
