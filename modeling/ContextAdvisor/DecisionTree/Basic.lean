import ContextAdvisor.Dictionary

/-!
# Decision trees over context keys

A decision tree narrows a rule list down to the rules that a context may fit. Its nodes lie in an
array with the root first; an inner node tests one key and refers to its children by their places.

`candidates` walks from the root. Where the context has a value for the tested key, one child is
entered: the branch of that value, or the default. Where it has none, all children are entered, so a
missing value hides no rule.
-/
namespace ContextAdvisor

/-- A node of the array: rules by their places in the rule list, or a test of a key. -/
inductive DecisionTree.Node where
  | leaf (rules : List Nat)
  | split (key : String) (branches : List (String × Nat)) (fallback : Option Nat)
  deriving DecidableEq, Inhabited

namespace DecisionTree.Node

/-- The places of all children, branches before the default. -/
def children : DecisionTree.Node → List Nat
  | leaf _ => []
  | split _ branches fallback => branches.map (·.2) ++ fallback.toList

/-- The children that a context leads to. -/
def follow (context : Context) : DecisionTree.Node → List Nat
  | leaf _ => []
  | split key branches fallback =>
    match context.get? key with
    | some value => (branches.lookup value <|> fallback).toList
    | none => branches.map (·.2) ++ fallback.toList

/-- The rules that the node itself holds. -/
def held : DecisionTree.Node → List Nat
  | leaf rules => rules
  | split _ _ _ => []

end DecisionTree.Node

/-- The nodes of a decision tree, the root first; no nodes if there are no rules. -/
structure DecisionTree where
  nodes : Array DecisionTree.Node
  deriving DecidableEq, Inhabited

namespace DecisionTree

/-- Puts a number into its place in an ascending list, unless the list holds it already. -/
def insertPlace (n : Nat) : List Nat → List Nat
  | [] => [n]
  | m :: rest =>
    if n < m then n :: m :: rest else if n = m then m :: rest else m :: insertPlace n rest

/-- The numbers of a list in ascending order, each once. -/
def ascendingPlaces (places : List Nat) : List Nat := places.foldr insertPlace []

/-- The rules in the leaves that a context leads to from a place. A path never repeats a node, so
`fuel` suffices if it is at least the number of nodes. -/
def visit (nodes : Array Node) (context : Context) : (fuel : Nat) → (place : Nat) → List Nat
  | 0, _ => []
  | fuel + 1, place =>
    match nodes[place]? with
    | none => []
    | some node => node.held ++ (node.follow context).flatMap (visit nodes context fuel)

/-- The rules that a context may fit, in ascending order. -/
def candidates (tree : DecisionTree) (context : Context) : List Nat :=
  ascendingPlaces (visit tree.nodes context tree.nodes.size 0)

/-- The rules that some leaf holds, in ascending order. -/
def reachable (tree : DecisionTree) : List Nat :=
  ascendingPlaces (tree.nodes.toList.flatMap Node.held)

/-- The largest number of tests on a way down from a place. -/
def depthFrom (nodes : Array Node) : (fuel : Nat) → (place : Nat) → Nat
  | 0, _ => 0
  | fuel + 1, place =>
    match nodes[place]? with
    | none => 0
    | some (.leaf _) => 0
    | some node => (node.children.map (depthFrom nodes fuel)).foldl max 0 + 1

/-- The largest number of tests on a way from the root to a leaf. -/
def depth (tree : DecisionTree) : Nat := depthFrom tree.nodes tree.nodes.size 0

/-- The number of nodes. -/
def size (tree : DecisionTree) : Nat := tree.nodes.size

/-- Has the tree no nodes? -/
def isEmpty (tree : DecisionTree) : Bool := tree.nodes.isEmpty

end DecisionTree

end ContextAdvisor
