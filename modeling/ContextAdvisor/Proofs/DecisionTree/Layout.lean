import ContextAdvisor.DecisionTree.Compile
import Mathlib.Tactic

/-!
# Trees laid out in an array

`Stored nodes place tree` says that a tree lies in an array with its root at a place and all its
other nodes further back. A layout writes only the place of the root and places behind the end of
the array it is given, so what was laid out earlier stays as it is.
-/
namespace ContextAdvisor.DecisionTree

/-- A tree lies in an array: its root at a place, the children of each node at consecutive places
behind it, the default last. -/
inductive Stored (nodes : Array Node) : (place : Nat) → Growth → Prop where
  | leaf {place : Nat} {rules : List Nat} (here : nodes[place]? = some (.leaf rules)) :
      Stored nodes place (.leaf rules)
  | split {place first : Nat} {key : String} {branches : List (String × Growth)}
      {fallback : Option Growth} (behind : place < first)
      (here : nodes[place]? = some (.split key (references first branches)
        (fallback.map fun _ => first + branches.length)))
      (inner : ∀ i branch, branches[i]? = some branch → Stored nodes (first + i) branch.2)
      (last : ∀ tree, fallback = some tree → Stored nodes (first + branches.length) tree) :
      Stored nodes place (.split key branches fallback)

theorem getElem?_references (first : Nat) (branches : List (String × Growth)) (i : Nat) :
    (references first branches)[i]? = branches[i]?.map fun branch => (branch.1, first + i) := by
  induction branches generalizing first i with
  | nil => simp [references]
  | cons branch rest ih =>
    cases i with
    | zero => simp [references]
    | succ i => simp [references, ih, Nat.add_assoc, Nat.add_comm 1]

/-- The references name the values of the branches and the places from `first` on. -/
theorem mem_references {first : Nat} {branches : List (String × Growth)} {value : String}
    {place : Nat} : (value, place) ∈ references first branches ↔
      ∃ i tree, branches[i]? = some (value, tree) ∧ place = first + i := by
  rw [List.mem_iff_getElem?]
  constructor
  · rintro ⟨i, h⟩
    rw [getElem?_references, Option.map_eq_some_iff] at h
    obtain ⟨⟨v, tree⟩, hi, he⟩ := h
    obtain ⟨rfl, rfl⟩ := Prod.mk.inj he
    exact ⟨i, tree, hi, rfl⟩
  · rintro ⟨i, tree, hi, rfl⟩
    exact ⟨i, by rw [getElem?_references, hi]; rfl⟩

theorem size_withRoom (nodes : Array Node) (count place : Nat) (root : Node) :
    (withRoom nodes count place root).size = nodes.size + count := by simp [withRoom]

theorem getElem?_withRoom_self {nodes : Array Node} {place : Nat} (h : place < nodes.size)
    (count : Nat) (root : Node) : (withRoom nodes count place root)[place]? = some root := by
  rw [withRoom, Array.getElem?_setIfInBounds_self_of_lt]
  simp only [Array.size_append]
  omega

theorem getElem?_withRoom_ne {nodes : Array Node} {place i : Nat} (h : i < nodes.size)
    (hi : i ≠ place) (count : Nat) (root : Node) :
    (withRoom nodes count place root)[i]? = nodes[i]? := by
  rw [withRoom, Array.getElem?_setIfInBounds_ne (Ne.symm hi), Array.getElem?_append_left h]

/-- A layout makes the array longer, and of its old places changes only those of the roots. -/
theorem layOut_frame :
    (∀ nodes place tree, nodes.size ≤ (layOut nodes place tree).size ∧
      ∀ i < nodes.size, i ≠ place → (layOut nodes place tree)[i]? = nodes[i]?) ∧
    (∀ nodes place branches, nodes.size ≤ (layOutBranches nodes place branches).size ∧
      ∀ i < nodes.size, ¬ (place ≤ i ∧ i < place + branches.length) →
        (layOutBranches nodes place branches)[i]? = nodes[i]?) := by
  apply layOut.mutual_induct
    (fun nodes place tree => nodes.size ≤ (layOut nodes place tree).size ∧
      ∀ i < nodes.size, i ≠ place → (layOut nodes place tree)[i]? = nodes[i]?)
    (fun nodes place branches => nodes.size ≤ (layOutBranches nodes place branches).size ∧
      ∀ i < nodes.size, ¬ (place ≤ i ∧ i < place + branches.length) →
        (layOutBranches nodes place branches)[i]? = nodes[i]?)
  case case1 =>
    intro nodes place rules
    rw [layOut]
    refine ⟨by simp, fun i _ hi => ?_⟩
    exact Array.getElem?_setIfInBounds_ne (Ne.symm hi)
  case case2 =>
    intro nodes place key branches ih
    rw [layOut]
    have hs := size_withRoom nodes branches.length place
      (.split key (references nodes.size branches) none)
    refine ⟨by omega, fun i h hi => ?_⟩
    rw [ih.2 i (by omega) (by omega)]
    exact getElem?_withRoom_ne h hi _ _
  case case3 =>
    intro nodes place key branches fallback ihf ihb
    rw [layOut]
    have hs := size_withRoom nodes (branches.length + 1) place
      (.split key (references nodes.size branches) (some (nodes.size + branches.length)))
    have hf := ihf.1
    refine ⟨by omega, fun i h hi => ?_⟩
    rw [ihb.2 i (by omega) (by omega), ihf.2 i (by omega) (by omega)]
    exact getElem?_withRoom_ne h hi _ _
  case case4 =>
    intro nodes place
    exact ⟨le_rfl, fun _ _ _ => rfl⟩
  case case5 =>
    intro nodes place value tree rest ihr iht
    rw [layOutBranches]
    have hr := ihr.1
    refine ⟨by omega, fun i h hi => ?_⟩
    simp only [List.length_cons] at hi
    rw [iht.2 i (by omega) (by omega), ihr.2 i h (by omega)]

theorem size_le_layOut (nodes : Array Node) (place : Nat) (tree : Growth) :
    nodes.size ≤ (layOut nodes place tree).size := (layOut_frame.1 nodes place tree).1

theorem getElem?_layOut {nodes : Array Node} {place i : Nat} (h : i < nodes.size)
    (hi : i ≠ place) (tree : Growth) : (layOut nodes place tree)[i]? = nodes[i]? :=
  (layOut_frame.1 nodes place tree).2 i h hi

theorem size_le_layOutBranches (nodes : Array Node) (place : Nat)
    (branches : List (String × Growth)) :
    nodes.size ≤ (layOutBranches nodes place branches).size :=
  (layOut_frame.2 nodes place branches).1

theorem getElem?_layOutBranches {nodes : Array Node} {place i : Nat}
    {branches : List (String × Growth)} (h : i < nodes.size)
    (hi : ¬ (place ≤ i ∧ i < place + branches.length)) :
    (layOutBranches nodes place branches)[i]? = nodes[i]? :=
  (layOut_frame.2 nodes place branches).2 i h hi

/-- A layout stores its tree. An array that agrees with the result on the places that were written
stores it too: later layouts write elsewhere. -/
theorem layOut_stores :
    (∀ nodes place tree, place < nodes.size → ∀ final : Array Node,
      (∀ i, i = place ∨ nodes.size ≤ i ∧ i < (layOut nodes place tree).size →
        final[i]? = (layOut nodes place tree)[i]?) → Stored final place tree) ∧
    (∀ nodes place branches, place + branches.length ≤ nodes.size → ∀ final : Array Node,
      (∀ i, place ≤ i ∧ i < place + branches.length ∨
          nodes.size ≤ i ∧ i < (layOutBranches nodes place branches).size →
        final[i]? = (layOutBranches nodes place branches)[i]?) →
      ∀ i branch, branches[i]? = some branch → Stored final (place + i) branch.2) := by
  apply layOut.mutual_induct
    (fun nodes place tree => place < nodes.size → ∀ final : Array Node,
      (∀ i, i = place ∨ nodes.size ≤ i ∧ i < (layOut nodes place tree).size →
        final[i]? = (layOut nodes place tree)[i]?) → Stored final place tree)
    (fun nodes place branches => place + branches.length ≤ nodes.size → ∀ final : Array Node,
      (∀ i, place ≤ i ∧ i < place + branches.length ∨
          nodes.size ≤ i ∧ i < (layOutBranches nodes place branches).size →
        final[i]? = (layOutBranches nodes place branches)[i]?) →
      ∀ i branch, branches[i]? = some branch → Stored final (place + i) branch.2)
  case case1 =>
    intro nodes place rules h final hf
    refine .leaf ?_
    rw [hf place (.inl rfl), layOut]
    exact Array.getElem?_setIfInBounds_self_of_lt h
  case case2 =>
    intro nodes place key branches ih h final hf
    rw [layOut] at hf
    have hs := size_withRoom nodes branches.length place
      (.split key (references nodes.size branches) none)
    have here := hf place (.inl rfl)
    rw [getElem?_layOutBranches (by omega) (by omega), getElem?_withRoom_self h] at here
    refine .split h here (ih (by omega) final fun i hi => hf i (.inr ?_)) (by simp)
    have := size_le_layOutBranches (withRoom nodes branches.length place
      (.split key (references nodes.size branches) none)) nodes.size branches
    omega
  case case3 =>
    intro nodes place key branches fallback ihf ihb h final hf
    rw [layOut] at hf
    have hs := size_withRoom nodes (branches.length + 1) place
      (.split key (references nodes.size branches) (some (nodes.size + branches.length)))
    have hl := size_le_layOut (withRoom nodes (branches.length + 1) place
      (.split key (references nodes.size branches) (some (nodes.size + branches.length))))
      (nodes.size + branches.length) fallback
    have hb := size_le_layOutBranches (layOut (withRoom nodes (branches.length + 1) place
      (.split key (references nodes.size branches) (some (nodes.size + branches.length))))
      (nodes.size + branches.length) fallback) nodes.size branches
    have here := hf place (.inl rfl)
    rw [getElem?_layOutBranches (by omega) (by omega), getElem?_layOut (by omega) (by omega),
      getElem?_withRoom_self h] at here
    refine .split h here (ihb (by omega) final fun i hi => hf i (.inr (by omega))) ?_
    rintro tree ⟨⟩
    refine ihf (by omega) final fun i hi => ?_
    rw [hf i (.inr (by omega)), getElem?_layOutBranches (by omega) (by omega)]
  case case4 =>
    intro nodes place _ final _ i branch hi
    simp at hi
  case case5 =>
    intro nodes place value tree rest ihr iht h final hf i branch hi
    simp only [List.length_cons, layOutBranches] at h hf
    have hr := size_le_layOutBranches nodes (place + 1) rest
    have ht := size_le_layOut (layOutBranches nodes (place + 1) rest) place tree
    cases i with
    | zero =>
      obtain rfl : (value, tree) = branch := by simpa using hi
      exact iht (by omega) final fun j hj => hf j (by omega)
    | succ i =>
      rw [← Nat.add_assoc, Nat.add_right_comm]
      refine ihr (by omega) final (fun j hj => ?_) i branch (by simpa using hi)
      rw [hf j (by omega), getElem?_layOut (by omega) (by omega)]

/-- A tree laid out from the root of a new array is stored there. -/
theorem stored_layOut (tree : Growth) : Stored (layOut #[.leaf []] 0 tree) 0 tree :=
  layOut_stores.1 _ _ _ (by simp) _ fun _ _ => rfl

/-- All rules in the leaves of a tree have a property. -/
inductive Holds (p : Nat → Prop) : Growth → Prop where
  | leaf {rules : List Nat} (all : ∀ i ∈ rules, p i) : Holds p (.leaf rules)
  | split {key : String} {branches : List (String × Growth)} {fallback : Option Growth}
      (inner : ∀ branch ∈ branches, Holds p branch.2)
      (last : ∀ tree, fallback = some tree → Holds p tree) : Holds p (.split key branches fallback)

/-- All rules in the nodes of an array have a property. -/
def AllHeld (p : Nat → Prop) (nodes : Array Node) : Prop :=
  ∀ node ∈ nodes, ∀ i ∈ node.held, p i

theorem AllHeld.setIfInBounds {p : Nat → Prop} {nodes : Array Node} (h : AllHeld p nodes)
    (place : Nat) {node : Node} (hn : ∀ i ∈ node.held, p i) :
    AllHeld p (nodes.setIfInBounds place node) := by
  intro m hm
  rcases Array.mem_or_eq_of_mem_setIfInBounds hm with hm | rfl
  · exact h m hm
  · exact hn

theorem AllHeld.withRoom {p : Nat → Prop} {nodes : Array Node} (h : AllHeld p nodes)
    (count place : Nat) {node : Node} (hn : ∀ i ∈ node.held, p i) :
    AllHeld p (withRoom nodes count place node) := by
  refine AllHeld.setIfInBounds (fun m hm => ?_) place hn
  rcases Array.mem_append.mp hm with hm | hm
  · exact h m hm
  · obtain ⟨-, rfl⟩ := Array.mem_replicate.mp hm
    simp [Node.held]

/-- A layout adds no rules but those of its tree. -/
theorem allHeld_layOut (p : Nat → Prop) :
    (∀ nodes place tree, AllHeld p nodes → Holds p tree → AllHeld p (layOut nodes place tree)) ∧
    (∀ nodes place branches, AllHeld p nodes → (∀ branch ∈ branches, Holds p branch.2) →
      AllHeld p (layOutBranches nodes place branches)) := by
  apply layOut.mutual_induct
    (fun nodes place tree => AllHeld p nodes → Holds p tree → AllHeld p (layOut nodes place tree))
    (fun nodes place branches => AllHeld p nodes → (∀ branch ∈ branches, Holds p branch.2) →
      AllHeld p (layOutBranches nodes place branches))
  case case1 =>
    rintro nodes place rules h (all | -)
    rw [layOut]
    exact h.setIfInBounds place all
  case case2 =>
    rintro nodes place key branches ih h (- | ⟨inner, last⟩)
    rw [layOut]
    exact ih (h.withRoom _ _ (by simp [Node.held])) inner
  case case3 =>
    rintro nodes place key branches fallback ihf ihb h (- | ⟨inner, last⟩)
    rw [layOut]
    exact ihb (ihf (h.withRoom _ _ (by simp [Node.held])) (last fallback rfl)) inner
  case case4 =>
    intro nodes place h _
    exact h
  case case5 =>
    intro nodes place value tree rest ihr iht h hb
    rw [layOutBranches]
    obtain ⟨ht, hr⟩ := List.forall_mem_cons.mp hb
    exact iht (ihr h hr) ht

end ContextAdvisor.DecisionTree
