import ContextAdvisor.Arithmetic.Scalar

/-!
# Rules

A rule proposes an action when its conditions fit the context. A condition compares the value of one
context key, or asks about past events; an operator that is not known is kept with its name.
-/
namespace ContextAdvisor

/-- How a condition relates a key to a value. -/
inductive Operator where
  | eq
  | neq
  | oneOf
  | gt
  | gte
  | lt
  | lte
  | range
  | recent
  | within
  | unknown (name : String)
  deriving DecidableEq

namespace Operator

/-- The operators with their names, except for unknown ones. -/
def named : List (String × Operator) :=
  [("eq", eq), ("neq", neq), ("in", oneOf), ("gt", gt), ("gte", gte), ("lt", lt), ("lte", lte),
    ("range", range), ("recent", recent), ("within", within)]

/-- The operator with a name; a name that is not listed makes an unknown operator. -/
def ofName (name : String) : Operator := (named.lookup name).getD (unknown name)

/-- The name of an operator. -/
def name : Operator → String
  | eq => "eq"
  | neq => "neq"
  | oneOf => "in"
  | gt => "gt"
  | gte => "gte"
  | lt => "lt"
  | lte => "lte"
  | range => "range"
  | recent => "recent"
  | within => "within"
  | unknown name => name

/-- Does the operator ask about past events? -/
def isTemporal : Operator → Bool
  | recent => true
  | within => true
  | _ => false

/-- Is the operator one that has no meaning here? -/
def isUnknown : Operator → Bool
  | unknown _ => true
  | _ => false

end Operator

/-- A demand on the value of one key, or on past events. -/
structure Condition where
  key : String
  op : Operator
  value : String
  deriving DecidableEq

/-- What is proposed: an identity, a kind for pacing, and a payload for whoever carries it out. -/
structure Action where
  id : String
  kind : String
  payload : String
  deriving DecidableEq, Inhabited

/-- An action proposed under conditions. -/
structure Rule (α : Type) where
  id : String
  name : String
  conditions : List Condition
  action : Action
  priority : α
  /-- How long the rule stays silent after it fired; nothing if not positive. -/
  cooldown : Int
  enabled : Bool
  deriving BEq

/-- An enabled rule without conditions, with priority 1 and no cooldown. -/
def Rule.unconditional {α : Type} [Scalar α] (id : String) (action : Action) : Rule α where
  id := id
  name := ""
  conditions := []
  action := action
  priority := 1.0
  cooldown := 0
  enabled := true

/-- A rule that fits a context, with the confidence of the fit. -/
structure RuleMatch (α : Type) where
  ruleId : String
  confidence : α
  action : Action
  deriving BEq, Inhabited

end ContextAdvisor
