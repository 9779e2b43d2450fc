import ContextAdvisor.Json.Printer
import ContextAdvisor.Json.Reader
import ContextAdvisor.Rule.Basic
import ContextAdvisor.Time

/-!
# Merging minor actions

Actions of high priority are delivered at once. Minor ones wait in a queue until enough have come
together or the oldest has waited long enough, and are then delivered as one summary that names
them all. An action that waited alone is delivered as it is. How long an action has waited is a
difference that wraps around, so one that has waited longer than a word can tell may go on waiting.
-/
namespace ContextAdvisor

/-- How pressing an action is. -/
inductive Urgency where
  | low
  | normal
  | high
  | urgent
  deriving DecidableEq

namespace Urgency

/-- The tier of a rule's priority; whatever is not below 3 is urgent. -/
def ofWeight {α : Type} [Scalar α] (weight : α) : Urgency :=
  if weight < 1.0 then low else if weight < 2.0 then normal else if weight < 3.0 then high
  else urgent

/-- May the action wait? -/
def mayWait : Urgency → Bool
  | low => true
  | normal => true
  | high => false
  | urgent => false

/-- The place of a tier, the least pressing first. -/
def rank : Urgency → Nat
  | low => 0
  | normal => 1
  | high => 2
  | urgent => 3

/-- The more pressing of two tiers. -/
def highest (a b : Urgency) : Urgency := if a.rank ≤ b.rank then b else a

/-- The name of a tier. -/
def name : Urgency → String
  | low => "low"
  | normal => "normal"
  | high => "high"
  | urgent => "urgent"

/-- Reads the name of a tier. -/
def read? : Reader Urgency := Reader.choice name [low, normal, high, urgent]

end Urgency

/-- When waiting actions are delivered. -/
structure DigestPolicy where
  window : Duration
  threshold : Nat
  deriving DecidableEq

/-- Three actions, or five minutes. -/
def DigestPolicy.standard : DigestPolicy := ⟨5 * .minute, 3⟩

/-- A minor action that waits. -/
structure WaitingAction where
  ruleId : String
  action : Action
  urgency : Urgency
  queuedAt : Instant

/-- An action to carry out, for the rules that proposed it. -/
structure Delivery where
  action : Action
  urgency : Urgency
  ruleIds : List String
  deriving DecidableEq

namespace Delivery

/-- The identity and kind of a summary. -/
def summaryName : String := "merged_summary"

/-- The number of rules that the delivery stands for. -/
def count (d : Delivery) : Nat := d.ruleIds.length

/-- Is the delivery a summary? -/
def isSummary (d : Delivery) : Bool := d.action.id == summaryName

/-- The delivery of a single action. -/
def single (p : WaitingAction) : Delivery := ⟨p.action, p.urgency, [p.ruleId]⟩

/-- What a summary says: how many actions it stands for, and which. -/
def summaryPayload (pending : List WaitingAction) : Json :=
  .object [("count", .integer pending.length),
    ("ids", .array (pending.map fun p => .string p.action.id))]

/-- The summary of several actions, as pressing as the most pressing of them. -/
def summary (pending : List WaitingAction) : Delivery where
  action := ⟨summaryName, summaryName, Json.compact (summaryPayload pending)⟩
  urgency := (pending.map (·.urgency)).foldl Urgency.highest .low
  ruleIds := pending.map (·.ruleId)

end Delivery

/-- The minor actions that wait, oldest offer first. -/
structure DigestQueue where
  policy : DigestPolicy
  pending : List WaitingAction

namespace DigestQueue

/-- The queue in which nothing waits. -/
def ofPolicy (policy : DigestPolicy) : DigestQueue := ⟨policy, []⟩

/-- Delivers whatever waits. -/
def flush (queue : DigestQueue) : Option Delivery × DigestQueue :=
  let delivery := match queue.pending with
    | [] => none
    | [p] => some (.single p)
    | pending => some (.summary pending)
  (delivery, { queue with pending := [] })

/-- Has the action that was queued earliest waited for the whole window? -/
def isDue (queue : DigestQueue) (now : Instant) : Bool :=
  match (queue.pending.map (·.queuedAt)).min? with
  | some oldest => queue.policy.window ≤ wrappedDifference now oldest
  | none => false

/-- Delivers what waits if it is time to. -/
def flushDue (queue : DigestQueue) (now : Instant) : Option Delivery × DigestQueue :=
  if queue.isDue now then queue.flush else (none, queue)

/-- Offers an action: a pressing one is delivered, a minor one waits. -/
def offer (queue : DigestQueue) (ruleId : String) (action : Action) (urgency : Urgency)
    (now : Instant) : Option Delivery × DigestQueue :=
  if urgency.mayWait then
    let queue := { queue with pending := queue.pending ++ [⟨ruleId, action, urgency, now⟩] }
    if queue.policy.threshold ≤ queue.pending.length ∨ queue.isDue now then queue.flush
    else (none, queue)
  else (some ⟨action, urgency, [ruleId]⟩, queue)

/-- The number of actions that wait. -/
def size (queue : DigestQueue) : Nat := queue.pending.length

end DigestQueue

end ContextAdvisor
