import ContextAdvisor.Proofs.DecisionTree.Candidates

/-!
# The walk stays in the array

Below a stored tree lie stored trees, further and further back. So the walk through a compiled tree
never refers to a place outside the array and never goes in circles. A walk that gives no answer if
it reads beside the array or runs out of fuel therefore gives the same answer as the walk itself.
-/
namespace ContextAdvisor

/-- If something is found for each element, it is found for the whole list. -/
theorem mapM_eq_filterMap {β γ : Type} {f : β → Option γ} {xs : List β}
    (h : ∀ x ∈ xs, (f x).isSome) : xs.mapM f = some (xs.filterMap f) := by
  induction xs with
  | nil => rfl
  | cons x rest ih =>
    obtain ⟨hx, hrest⟩ := List.forall_mem_cons.mp h
    obtain ⟨y, hy⟩ := Option.isSome_iff_exists.mp hx
    rw [List.mapM_cons, List.filterMap_cons, hy, ih hrest]
    rfl

namespace DecisionTree

variable {nodes : Array Node} {place : Nat} {tree : Growth} {context : Context}

/-- A child of a stored tree is stored further back. -/
theorem Stored.child {child : Nat} (h : Stored nodes place tree) (hc : Child nodes place child) :
    place < child ∧ ∃ below, Stored nodes child below := by
  obtain ⟨node, hn, hc⟩ := hc
  cases h with
  | leaf here =>
    rw [here] at hn
    obtain rfl := Option.some.inj hn
    simp [Node.children] at hc
  | @split _ first _ branches fallback behind here inner last =>
    rw [here] at hn
    obtain rfl := Option.some.inj hn
    simp only [Node.children, List.mem_append, List.mem_map, Option.mem_toList] at hc
    rcases hc with ⟨⟨value, _⟩, hc, rfl⟩ | hc
    · obtain ⟨i, below, hi, rfl⟩ := mem_references.mp hc
      exact ⟨by omega, below, inner i _ hi⟩
    · obtain ⟨below, hbelow, rfl⟩ := Option.map_eq_some_iff.mp hc
      exact ⟨by omega, below, last below hbelow⟩

theorem Stored.descendant (h : Stored nodes place tree) {other : Nat}
    (hr : Relation.ReflTransGen (Child nodes) place other) : ∃ below, Stored nodes other below := by
  induction hr with
  | refl => exact ⟨tree, h⟩
  | tail _ hc ih =>
    obtain ⟨parent, hp⟩ := ih
    exact (hp.child hc).2

section

variable {α : Type} [Scalar α] (rules : List (Rule α)) (maxKeys : Nat)

/-- A compiled tree has no nodes, or a tree is stored from its first one on. -/
theorem compile_cases : (compile rules maxKeys).nodes = #[] ∨
    ∃ tree, Stored (compile rules maxKeys).nodes 0 tree := by
  by_cases he : enabledPlaces rules = []
  · exact .inl (by rw [compile_of_none_enabled he])
  · exact .inr ⟨_, by rw [compile_of_enabled he]; exact stored_layOut _⟩

/-- Below the root of a compiled tree, every child lies in the array. -/
theorem child_lt_size {parent child : Nat}
    (hr : Relation.ReflTransGen (Child (compile rules maxKeys).nodes) 0 parent)
    (hc : Child (compile rules maxKeys).nodes parent child) :
    child < (compile rules maxKeys).nodes.size := by
  rcases compile_cases rules maxKeys with hempty | ⟨tree, h⟩
  · obtain ⟨node, hn, -⟩ := hc
    simp [hempty] at hn
  · obtain ⟨below, hp⟩ := h.descendant hr
    obtain ⟨-, last, hl⟩ := hp.child hc
    exact hl.lt_size

end

/-- The walk from a place, without an answer if it leaves the array or runs out of fuel. -/
def visit? (nodes : Array Node) (context : Context) :
    (fuel : Nat) → (place : Nat) → Option (List Nat)
  | 0, _ => none
  | fuel + 1, place => do
    let node ← nodes[place]?
    let below ← (node.follow context).mapM (visit? nodes context fuel)
    return node.held ++ below.flatten

/-- The rules that a context may fit, without an answer if the walk fails. -/
def candidates? (tree : DecisionTree) (context : Context) : Option (List Nat) :=
  if tree.isEmpty then some []
  else (visit? tree.nodes context tree.nodes.size 0).map ascendingPlaces

/-- The walk from a stored tree does not fail. -/
theorem visit?_eq {fuel : Nat} (h : Stored nodes place tree) (hf : nodes.size ≤ place + fuel) :
    visit? nodes context fuel place = some (visit nodes context fuel place) := by
  induction fuel generalizing place tree with
  | zero =>
    have := h.lt_size
    omega
  | succ fuel ih =>
    obtain ⟨node, here⟩ : ∃ node, nodes[place]? = some node :=
      ⟨_, Array.getElem?_eq_getElem h.lt_size⟩
    have hbelow : ∀ child ∈ node.follow context,
        visit? nodes context fuel child = some (visit nodes context fuel child) := by
      intro child hc
      obtain ⟨hlt, below, hb⟩ := h.child ⟨node, here, follow_subset_children context node hc⟩
      exact ih hb (by omega)
    have hmap : (node.follow context).filterMap (visit? nodes context fuel) =
        (node.follow context).map (visit nodes context fuel) := by
      rw [← List.filterMap_eq_map]
      exact List.filterMap_congr hbelow
    have hsome := mapM_eq_filterMap fun child hc => Option.isSome_of_eq_some (hbelow child hc)
    simp only [visit?, visit, here, Option.bind_eq_bind, Option.bind_some, hsome, hmap,
      List.flatMap_def, Option.pure_def]

/-- The walk through a compiled tree does not fail. -/
theorem candidates?_compile {α : Type} [Scalar α] (rules : List (Rule α)) (maxKeys : Nat)
    (context : Context) : (compile rules maxKeys).candidates? context =
      some ((compile rules maxKeys).candidates context) := by
  rcases compile_cases rules maxKeys with hempty | ⟨tree, h⟩
  · simp [candidates?, candidates, isEmpty, hempty, visit, ascendingPlaces]
  · have hsome : (compile rules maxKeys).isEmpty = false := by
      have hsize := h.lt_size
      rw [isEmpty, Array.isEmpty_eq_false_iff_exists_mem]
      exact ⟨_, Array.getElem_mem hsize⟩
    rw [candidates?, hsome, if_neg (by simp), visit?_eq h (Nat.zero_add _).ge]
    rfl

end DecisionTree

end ContextAdvisor
