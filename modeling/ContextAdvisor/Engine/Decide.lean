import ContextAdvisor.Engine.Evaluate

/-!
# Deciding on one action

A decision weighs the best rule against the learner's choice among the actions of all results. A
learned choice that is not sure enough is turned down in favour of the best rule.
-/
namespace ContextAdvisor

/-- The result that was decided on. -/
structure Decision (α : Type) where
  result : RuleMatch α
  source : Source
  confidence : α
  phase : Phase
  weights : Weights α

namespace Engine

variable {α : Type} [Analytic α]

/-- The features of a context, with the inputs sanitized and counted. -/
def observeFeatures (engine : Engine α) (context : Context) : Features α × Engine α :=
  let (inputs, guard) := engine.guard.admitInputs context
  ((Situation.ofInputs inputs context).features, { engine with guard := guard })

/-- Lets the learner select among candidates and remembers the features of the selected one. -/
def select (engine : Engine α) (candidates : List String) (context : Context) :
    Option (Selection α) × Engine α :=
  let (features, engine) := engine.observeFeatures context
  let (selection, bandit) := engine.learner.bandit.select candidates features
  let lastFeatures := match selection with
    | some s => engine.learner.lastFeatures.insert s.actionId features
    | none => engine.learner.lastFeatures
  let learner := { engine.learner with bandit := bandit, lastFeatures := lastFeatures }
  (selection, { engine with learner := learner })

/-- The distinct actions of some results, in their order. -/
def actionIds (results : List (RuleMatch α)) : List String :=
  results.foldl (fun ids result =>
    if ids.contains result.action.id then ids else ids ++ [result.action.id]) []

/-- The first result with the selected action. -/
def learnedProposal (results : List (RuleMatch α)) (selection : Option (Selection α)) :
    Option (Proposal (RuleMatch α) α) := do
  let s ← selection
  let result ← results.find? fun result => result.action.id == s.actionId
  return ⟨result, s.confidence⟩

/-- Turns a learned choice down if it is not sure enough. -/
def gate (engine : Engine α) (top : RuleMatch α) (choice : Choice (RuleMatch α) α) :
    Choice (RuleMatch α) α × Engine α :=
  if choice.source = .learned then
    match engine.guard.rejects choice.confidence with
    | (true, guard) =>
      (⟨top, top.confidence, .ruleFallback, choice.weights⟩, { engine with guard := guard })
    | (false, guard) => (choice, { engine with guard := guard })
  else (choice, engine)

/-- Weighs the first of some results against the learner's choice among all of them. -/
def choose (engine : Engine α) (top : RuleMatch α) (results : List (RuleMatch α))
    (context : Context) : Option (Decision α) × Engine α :=
  let (selection, engine) := engine.select (actionIds results) context
  let learned := learnedProposal results selection
  match arbitrate (some ⟨top, top.confidence⟩) learned engine.weights with
  | none => (none, engine)
  | some choice =>
    let (choice, engine) := engine.gate top choice
    (some ⟨choice.item, choice.source, choice.confidence, engine.phase, choice.weights⟩, engine)

/-- Decides on an action for a context; there is none if no rule fits. -/
def decide (engine : Engine α) (context : Context) : Option (Decision α) × Engine α :=
  let (results, engine) := engine.evaluate context none
  match results with
  | [] => (none, engine)
  | top :: _ => engine.choose top results context

end Engine

end ContextAdvisor
