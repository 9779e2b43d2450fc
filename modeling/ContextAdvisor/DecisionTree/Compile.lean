import ContextAdvisor.DecisionTree.Basic
import ContextAdvisor.Rule.Basic
import ContextAdvisor.Vocabulary

/-!
# Growing a decision tree

A set of more than two rules is split by a key that many of them fix and that is cheap to obtain.
The branch of a value keeps the rules that fix the key to this value and those that leave the key
open; the latter also form the default. No key is tested twice on a path, and the number of keys on
a path is limited.

The tree is grown as nested data first and then laid out in an array: the children of a node take
consecutive places when the node is laid out, and the last of them is laid out first.
-/
namespace ContextAdvisor

/-- A decision tree as nested data. -/
inductive Growth where
  | leaf (rules : List Nat)
  | split (key : String) (branches : List (String × Growth)) (fallback : Option Growth)
  deriving Inhabited

namespace Rule

variable {α : Type}

/-- The value to which the rule's first equality on the key fixes it. -/
def fixed? (key : String) (rule : Rule α) : Option String :=
  (rule.conditions.find? fun c => c.op = .eq ∧ c.key = key).map (·.value)

/-- The keys that some equality of the rule fixes. -/
def fixedKeys (rule : Rule α) : List String :=
  (rule.conditions.filter fun c => c.op = .eq).map (·.key)

end Rule

namespace DecisionTree

variable {α : Type}

/-- Sets with this many rules or fewer are not split. -/
def leafSize : Nat := 2

/-- The value to which the rule at a place fixes a key. -/
def fixedAt? (rules : Array (Rule α)) (key : String) (place : Nat) : Option String :=
  rules[place]?.bind (Rule.fixed? key)

/-- The distinct texts of a list in ascending order. -/
def ascendingTexts (texts : List String) : List String :=
  (Dictionary.ofList (texts.map (·, ()))).keys

/-- The keys that the rules at some places fix, without those that are used already. -/
def openKeys (rules : Array (Rule α)) (used : List String) (places : List Nat) : List String :=
  let keys := places.flatMap fun place => (rules[place]?.map Rule.fixedKeys).getD []
  ascendingTexts (keys.filter fun key => !used.contains key)

/-- How much a test of the key promises: the share of the rules that fix it, over its cost. -/
def promise [Scalar α] (rules : Array (Rule α)) (places : List Nat) (key : String) : α :=
  let fixing := places.filter fun place => (fixedAt? rules key place).isSome
  Scalar.ofNat fixing.length / Scalar.ofNat places.length /
    (1.0 + Scalar.ofNat (Vocabulary.cost key))

/-- The key to split by: the most promising one, of equals the first in ascending order. -/
def splitKey? [Scalar α] (rules : Array (Rule α)) (used : List String) (places : List Nat) :
    Option String :=
  let better (best : Option (String × α)) (key : String) : Option (String × α) :=
    let value := promise rules places key
    match best with
    | some (bestKey, bestValue) =>
      if value ≤ bestValue then some (bestKey, bestValue) else some (key, value)
    | none => some (key, value)
  ((openKeys rules used places).foldl better none).map (·.1)

/-- The rules that stay in play where the key has a given value. -/
def compatible (rules : Array (Rule α)) (key value : String) (places : List Nat) : List Nat :=
  places.filter fun place =>
    match fixedAt? rules key place with
    | some required => required == value
    | none => true

/-- The rules that leave a key open. -/
def indifferent (rules : Array (Rule α)) (key : String) (places : List Nat) : List Nat :=
  places.filter fun place => (fixedAt? rules key place).isNone

/-- Grows the tree for some rules; `budget` keys may still be tested. -/
def grow [Scalar α] (rules : Array (Rule α)) :
    (budget : Nat) → (used : List String) → (places : List Nat) → Growth
  | 0, _, places => .leaf places
  | budget + 1, used, places =>
    if places.length ≤ leafSize then .leaf places
    else match splitKey? rules used places with
      | none => .leaf places
      | some key =>
        let values := ascendingTexts (places.filterMap (fixedAt? rules key))
        let indifferent := indifferent rules key places
        .split key
          (values.map fun value =>
            (value, grow rules budget (key :: used) (compatible rules key value places)))
          (if indifferent.isEmpty then none
            else some (grow rules budget (key :: used) indifferent))

/-- The references to children whose places start at `first`. -/
def references (first : Nat) : List (String × Growth) → List (String × Nat)
  | [] => []
  | (value, _) :: rest => (value, first) :: references (first + 1) rest

/-- The array with room for `count` more nodes, and a node at a place that it has already. -/
def withRoom (nodes : Array Node) (count place : Nat) (node : Node) : Array Node :=
  (nodes ++ Array.replicate count (Node.leaf [])).setIfInBounds place node

mutual

/-- Lays a tree out, its root at a place that is taken already, its other nodes at the end. -/
def layOut (nodes : Array Node) (place : Nat) : Growth → Array Node
  | .leaf rules => nodes.setIfInBounds place (.leaf rules)
  | .split key branches none =>
    layOutBranches
      (withRoom nodes branches.length place (.split key (references nodes.size branches) none))
      nodes.size branches
  | .split key branches (some fallback) =>
    layOutBranches
      (layOut
        (withRoom nodes (branches.length + 1) place
          (.split key (references nodes.size branches) (some (nodes.size + branches.length))))
        (nodes.size + branches.length) fallback)
      nodes.size branches

/-- Lays out the children at consecutive places, the last one first. -/
def layOutBranches (nodes : Array Node) (place : Nat) :
    List (String × Growth) → Array Node
  | [] => nodes
  | (_, child) :: rest => layOut (layOutBranches nodes (place + 1) rest) place child

end

/-- The places of the enabled rules. -/
def enabledPlaces (rules : List (Rule α)) : List Nat :=
  rules.zipIdx.filterMap fun (rule, place) => if rule.enabled then some place else none

/-- The decision tree of a rule list, which tests at most `maxKeys` keys on a path. -/
def compile [Scalar α] (rules : List (Rule α)) (maxKeys : Nat) : DecisionTree :=
  match enabledPlaces rules with
  | [] => ⟨#[]⟩
  | places => ⟨layOut #[.leaf []] 0 (grow rules.toArray maxKeys [] places)⟩

end DecisionTree

end ContextAdvisor
