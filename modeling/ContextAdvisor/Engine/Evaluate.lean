import ContextAdvisor.Engine.State

/-!
# Evaluating the rules

The candidates of the decision tree are scored, those above the least confidence are put to the
limiter, and what it lets pass is ranked by confidence times priority. Of several rules with one
identity the most confident stands for all. Only the first of the results counts as a firing.
-/
namespace ContextAdvisor

/-- A rule with the confidence of its fit. -/
structure ScoredRule (α : Type) where
  rule : Rule α
  confidence : α

namespace ScoredRule

variable {α : Type} [Scalar α]

/-- What the ranking goes by. -/
def weight (s : ScoredRule α) : α := s.confidence * s.rule.priority

/-- May one result stand before another? -/
def precedes (a b : ScoredRule α) : Bool := (Scalar.order b.weight a.weight).isLE

/-- The result that an evaluation reports. -/
def toMatch (s : ScoredRule α) : RuleMatch α := ⟨s.rule.id, s.confidence, s.rule.action⟩

/-- Adds a result to the best ones of each identity. -/
def addBest (best : Dictionary (ScoredRule α)) (s : ScoredRule α) : Dictionary (ScoredRule α) :=
  match best.get? s.rule.id with
  | some held => if held.confidence < s.confidence then best.insert s.rule.id s else best
  | none => best.insert s.rule.id s

/-- Ranks results; of one identity the first most confident is kept, and results of equal weight
stand in the order of their identities. -/
def ranking (results : List (ScoredRule α)) : List (ScoredRule α) :=
  ((results.foldl addBest ∅).entries.map (·.2)).mergeSort precedes

/-- The results that the limiter lets pass, in order. -/
def admitted (limiter : Limiter) (now : Instant) :
    List (ScoredRule α) → List (ScoredRule α) × Limiter
  | [] => ([], limiter)
  | s :: rest =>
    match limiter.check s.rule.id s.rule.cooldown s.rule.action.kind now with
    | (none, limiter) =>
      let (passed, limiter) := admitted limiter now rest
      (s :: passed, limiter)
    | (some _, limiter) => admitted limiter now rest

end ScoredRule

namespace Engine

variable {α : Type} [Scalar α]

/-- A rule with its confidence, if that exceeds the least one. -/
def score? (engine : Engine α) (context : Context) (rule : Rule α) : Option (ScoredRule α) :=
  let confidence := Rule.confidence (engine.events.history engine.clock) context rule.conditions
  if engine.settings.minConfidence < confidence then some ⟨rule, confidence⟩ else none

/-- The candidates of the decision tree that score high enough, in the order of the table. -/
def scored (engine : Engine α) (context : Context) : List (ScoredRule α) :=
  (engine.table.tree.candidates context).filterMap fun place =>
    engine.table.rules[place]?.bind (engine.score? context)

/-- Reports at most `limit` of the results that the limiter lets pass, all of them if there is no
limit, and counts the first as a firing. -/
def report (engine : Engine α) (scored : List (ScoredRule α)) (limit : Option Nat) :
    List (RuleMatch α) × Engine α :=
  let (passed, limiter) := ScoredRule.admitted engine.limiter engine.clock scored
  let ranked := ScoredRule.ranking passed
  let results := match limit with
    | some n => ranked.take n
    | none => ranked
  let limiter := match results with
    | top :: _ => limiter.record top.rule.id top.rule.action.kind engine.clock
    | [] => limiter
  (results.map ScoredRule.toMatch, { engine with limiter := limiter })

/-- Evaluates the rules; with a limit of no results nothing is even asked. -/
def evaluate (engine : Engine α) (context : Context) (limit : Option Nat) :
    List (RuleMatch α) × Engine α :=
  if limit = some 0 then ([], engine) else engine.report (engine.scored context) limit

end Engine

end ContextAdvisor
