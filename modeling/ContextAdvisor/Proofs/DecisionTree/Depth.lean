import ContextAdvisor.Proofs.DecisionTree.Arena
import ContextAdvisor.Proofs.DecisionTree.Bounds
import ContextAdvisor.Proofs.DecisionTree.Narrowing

/-!
# The keys on a way through a compiled tree

A tree is split only by a key that some rule of the set fixes and that was not used above. So no way
from the root tests a key twice, and the ways are no longer than the number of keys that enabled
rules fix, whatever the limit is. The depth is the length of the longest way to a leaf.
-/
namespace ContextAdvisor.DecisionTree

/-- A way from the root to a place, with the keys that it tests, the last one first. -/
inductive Way (nodes : Array Node) : (place : Nat) → (keys : List String) → Prop where
  | root : Way nodes 0 []
  | down {place child : Nat} {key : String} {branches : List (String × Nat)}
      {fallback : Option Nat} {keys : List String} (above : Way nodes place keys)
      (here : nodes[place]? = some (.split key branches fallback))
      (entered : child ∈ (Node.split key branches fallback).children) :
      Way nodes child (key :: keys)

variable {α : Type}

/-- The keys that equalities of enabled rules fix. -/
def testableKeys (rules : List (Rule α)) : Finset String :=
  ((rules.filter (·.enabled)).flatMap Rule.fixedKeys).toFinset

theorem mem_testableKeys {rules : List (Rule α)} {key : String} :
    key ∈ testableKeys rules ↔
      ∃ place ∈ enabledPlaces rules, (fixedAt? rules.toArray key place).isSome := by
  simp only [testableKeys, List.mem_toFinset, List.mem_flatMap, List.mem_filter,
    Rule.mem_fixedKeys, mem_enabledPlaces, fixedAt?, List.getElem?_toArray]
  constructor
  · rintro ⟨rule, ⟨hmem, henabled⟩, hkey⟩
    obtain ⟨place, hplace⟩ := List.mem_iff_getElem?.mp hmem
    exact ⟨place, ⟨rule, hplace, henabled⟩, by rwa [hplace]⟩
  · rintro ⟨place, ⟨rule, hplace, henabled⟩, hkey⟩
    rw [hplace] at hkey
    exact ⟨rule, ⟨List.mem_of_getElem? hplace, henabled⟩, hkey⟩

variable [Scalar α] {rules : List (Rule α)} {maxKeys : Nat} {nodes : Array Node} {place : Nat}
  {used : List String} {key : String} {branches : List (String × Nat)} {fallback : Option Nat}

/-- A set of rules is split by an unused key that one of them fixes. -/
theorem exists_fixing_of_splitKey? {rules : Array (Rule α)} {places : List Nat}
    (h : splitKey? rules used places = some key) :
    key ∉ used ∧ ∃ i ∈ places, (fixedAt? rules key i).isSome := by
  have hopen : key ∈ openKeys rules used places := by
    cases hkeys : openKeys rules used places with
    | nil => simp [splitKey?_eq, hkeys] at h
    | cons first rest =>
      have hfirst : first ∈ openKeys rules used places := hkeys ▸ List.mem_cons_self
      obtain ⟨best, hbest, hsplit⟩ := exists_splitKey hfirst
      obtain rfl := Option.some.inj (hsplit.symm.trans h)
      rwa [hkeys] at hbest
  exact mem_openKeys.mp hopen

/-- A split by a key that some rule fixes has a branch, so it has a child. -/
theorem children_ne_nil_of_fixed {rules : Array (Rule α)} {places : List Nat} {i : Nat}
    (hi : i ∈ places) (h : (fixedAt? rules key i).isSome) (budget : Nat) (used : List String)
    (first : Nat) (fallback : Option Nat) :
    (Node.split key (references first (branchesOf rules budget used places key))
      fallback).children ≠ [] := by
  obtain ⟨value, hvalue⟩ := Option.isSome_iff_exists.mp h
  have hbranch : (value, grow rules budget (key :: used) (compatible rules key value places)) ∈
      branchesOf rules budget used places key := mem_branchesOf.mpr ⟨⟨i, hi, hvalue⟩, rfl⟩
  obtain ⟨j, hj⟩ := List.mem_iff_getElem?.mp hbranch
  have href : (value, first + j) ∈ references first (branchesOf rules budget used places key) :=
    mem_references.mpr ⟨j, _, hj, rfl⟩
  exact List.append_ne_nil_of_left_ne_nil
    (List.ne_nil_of_mem (List.mem_map_of_mem (f := (·.2)) href)) _

/-- Below a split lie trees that were grown from some of its rules, with one key more. -/
theorem Stored.exists_grown {rules : Array (Rule α)} {budget : Nat} {places : List Nat}
    {child : Nat}
    (h : Stored nodes place (.split key (branchesOf rules budget used places key)
      (fallbackOf rules budget used places key))) (hc : Child nodes place child) :
    ∃ others ⊆ places, Stored nodes child (grow rules budget (key :: used) others) := by
  obtain ⟨node, hnode, hc⟩ := hc
  obtain - | @⟨_, first, _, _, _, behind, here, inner, last⟩ := h
  rw [here] at hnode
  obtain rfl := Option.some.inj hnode
  simp only [Node.children, List.mem_append, List.mem_map, Option.mem_toList] at hc
  rcases hc with ⟨⟨value, _⟩, hr, rfl⟩ | hr
  · obtain ⟨j, tree, hj, rfl⟩ := mem_references.mp hr
    have hbranch := inner j _ hj
    rw [(mem_branchesOf.mp (List.mem_of_getElem? hj)).2] at hbranch
    exact ⟨_, fun _ hm => (mem_compatible.mp hm).1, hbranch⟩
  · obtain ⟨tree, ht, rfl⟩ := Option.map_eq_some_iff.mp hr
    have hlast := last tree ht
    rw [fallbackOf_eq_some ht] at hlast
    exact ⟨_, fun _ hm => (mem_indifferent.mp hm).1, hlast⟩

/-- At a place lies a tree that was grown from enabled rules after some keys were used. -/
structure Grown (rules : List (Rule α)) (maxKeys : Nat) (nodes : Array Node) (place : Nat)
    (used : List String) : Prop where
  stored : ∃ budget places, budget + used.length = maxKeys ∧ places ⊆ enabledPlaces rules ∧
    Stored nodes place (grow rules.toArray budget used places)
  distinct : used.Nodup
  testable : ∀ key ∈ used, key ∈ testableKeys rules

theorem grown_root (h : enabledPlaces rules ≠ []) (maxKeys : Nat) :
    Grown rules maxKeys (compile rules maxKeys).nodes 0 [] where
  stored := by
    rw [compile_of_enabled h]
    exact ⟨maxKeys, enabledPlaces rules, rfl, List.Subset.refl _, stored_layOut _⟩
  distinct := List.nodup_nil
  testable _ hkey := absurd hkey List.not_mem_nil

/-- A split has children, at which lie trees that were grown with one key more, an unused one that
some enabled rule fixes. -/
theorem Grown.down (h : Grown rules maxKeys nodes place used)
    (here : nodes[place]? = some (.split key branches fallback)) :
    (Node.split key branches fallback).children ≠ [] ∧
      ∀ child ∈ (Node.split key branches fallback).children,
        Grown rules maxKeys nodes child (key :: used) := by
  obtain ⟨⟨budget, places, hbudget, hplaces, hstored⟩, hdistinct, htestable⟩ := h
  rcases grow_cases rules.toArray budget used places with hg | ⟨n, k, rfl, hk, hg⟩
  · rw [hg] at hstored
    obtain ⟨hleaf⟩ := hstored
    rw [here] at hleaf
    cases hleaf
  · rw [hg] at hstored
    obtain ⟨hunused, i, hi, hfixed⟩ := exists_fixing_of_splitKey? hk
    have hsplit := hstored
    obtain - | @⟨_, first, _, _, _, -, hsplit, -, -⟩ := hsplit
    obtain ⟨rfl, rfl, rfl⟩ := Node.split.inj (Option.some.inj (here.symm.trans hsplit))
    refine ⟨children_ne_nil_of_fixed hi hfixed _ _ _ _, fun child hchild => ?_⟩
    obtain ⟨others, hothers, hchild⟩ := hstored.exists_grown ⟨_, here, hchild⟩
    refine ⟨⟨n, others, ?_, List.Subset.trans hothers hplaces, hchild⟩,
      List.nodup_cons.mpr ⟨hunused, hdistinct⟩,
      List.forall_mem_cons.mpr ⟨mem_testableKeys.mpr ⟨i, hplaces hi, hfixed⟩, htestable⟩⟩
    rw [List.length_cons]
    omega

/-- Along each way through a compiled tree, trees were grown with the keys that the way tests. -/
theorem Way.grown (h : enabledPlaces rules ≠ [])
    (way : Way (compile rules maxKeys).nodes place used) :
    Grown rules maxKeys (compile rules maxKeys).nodes place used := by
  induction way with
  | root => exact grown_root h maxKeys
  | down _ here entered ih => exact (ih.down here).2 _ entered

theorem Grown.length_le (h : Grown rules maxKeys nodes place used) : used.length ≤ maxKeys := by
  obtain ⟨budget, -, hbudget, -⟩ := h.stored
  omega

theorem Grown.length_le_card (h : Grown rules maxKeys nodes place used) :
    used.length ≤ (testableKeys rules).card := by
  rw [← List.toFinset_card_of_nodup h.distinct]
  exact Finset.card_le_card fun key hkey => h.testable key (List.mem_toFinset.mp hkey)

omit [Scalar α] in
theorem depthFrom_split (here : nodes[place]? = some (.split key branches fallback)) (fuel : Nat) :
    depthFrom nodes (fuel + 1) place =
      ((Node.split key branches fallback).children.map (depthFrom nodes fuel)).foldl max 0 + 1 := by
  rw [depthFrom, here]

omit [Scalar α] in
theorem depthFrom_leaf {held : List Nat} (here : nodes[place]? = some (.leaf held)) (fuel : Nat) :
    depthFrom nodes fuel place = 0 := by
  cases fuel with
  | zero => rfl
  | succ fuel => rw [depthFrom, here]

omit [Scalar α] in
/-- A child is less deep. -/
theorem depthFrom_child_lt (here : nodes[place]? = some (.split key branches fallback))
    {child : Nat} (hc : child ∈ (Node.split key branches fallback).children) (fuel : Nat) :
    depthFrom nodes fuel child < depthFrom nodes (fuel + 1) place := by
  have hmem := List.mem_map_of_mem (f := depthFrom nodes fuel) hc
  rw [depthFrom_split here, List.foldl_max_eq_max (List.ne_nil_of_mem hmem)]
  have := List.le_max_of_mem hmem
  omega

omit [Scalar α] in
/-- Some child is only one less deep. -/
theorem exists_child_depthFrom (here : nodes[place]? = some (.split key branches fallback))
    (hne : (Node.split key branches fallback).children ≠ []) (fuel : Nat) :
    ∃ child ∈ (Node.split key branches fallback).children,
      depthFrom nodes (fuel + 1) place = depthFrom nodes fuel child + 1 := by
  have hmap : (Node.split key branches fallback).children.map (depthFrom nodes fuel) ≠ [] :=
    mt List.map_eq_nil_iff.mp hne
  obtain ⟨child, hchild, hmax⟩ := List.mem_map.mp (List.max_mem hmap)
  refine ⟨child, hchild, ?_⟩
  rw [depthFrom_split here, List.foldl_max_eq_max hmap, hmax, Nat.zero_max]

omit [Scalar α] in
theorem depthFrom_le_succ (nodes : Array Node) (fuel place : Nat) :
    depthFrom nodes fuel place ≤ depthFrom nodes (fuel + 1) place := by
  induction fuel generalizing place with
  | zero => exact Nat.zero_le _
  | succ fuel ih =>
    match here : nodes[place]? with
    | none => simp [depthFrom, here]
    | some (.leaf held) => rw [depthFrom_leaf here, depthFrom_leaf here]
    | some (.split key branches fallback) =>
      by_cases hne : (Node.split key branches fallback).children = []
      · rw [depthFrom_split here, depthFrom_split here, hne, List.map_nil, List.map_nil]
      · obtain ⟨child, hchild, hdepth⟩ := exists_child_depthFrom here hne fuel
        rw [hdepth]
        exact (ih child).trans_lt (depthFrom_child_lt here hchild (fuel + 1))

omit [Scalar α] in
/-- What a way tests comes on top of the depth of the place that it leads to. Every child lies
further back, so the fuel still reaches to the end of the array. -/
theorem Way.length_add_depthFrom_le {keys : List String} (way : Way nodes place keys)
    (behind : ∀ parent child, Child nodes parent child → parent < child) :
    keys.length + depthFrom nodes (nodes.size - place) place ≤ depthFrom nodes nodes.size 0 := by
  induction way with
  | root => simp
  | @down place child key branches fallback keys _ here entered ih =>
    have hlt := behind place child ⟨_, here, entered⟩
    have hplace := (Array.getElem?_eq_some_iff.mp here).1
    obtain ⟨fuel, hfuel⟩ : ∃ fuel, nodes.size - place = fuel + 1 :=
      ⟨nodes.size - place - 1, by omega⟩
    have hmono := monotone_nat_of_le_succ (f := fun n => depthFrom nodes n child)
      (fun n => depthFrom_le_succ nodes n child)
    have hless : depthFrom nodes (nodes.size - child) child ≤ depthFrom nodes fuel child :=
      hmono (by omega)
    have hdeeper := depthFrom_child_lt here entered fuel
    rw [hfuel] at ih
    rw [List.length_cons]
    omega

/-- From where a tree was grown, some way goes on to a leaf, as far as the tree is deep. -/
theorem exists_way_of_grown (h : Grown rules maxKeys nodes place used) (way : Way nodes place used)
    (fuel : Nat) (hf : nodes.size ≤ place + fuel)
    (behind : ∀ parent child, Child nodes parent child → parent < child) :
    ∃ leaf held keys, Way nodes leaf keys ∧ nodes[leaf]? = some (.leaf held) ∧
      keys.length = used.length + depthFrom nodes fuel place := by
  induction fuel generalizing place used with
  | zero =>
    obtain ⟨_, _, -, -, hstored⟩ := h.stored
    have := hstored.lt_size
    omega
  | succ fuel ih =>
    obtain ⟨_, _, -, -, hstored⟩ := h.stored
    match here : nodes[place]? with
    | none => exact absurd hstored.lt_size (not_lt.mpr (Array.getElem?_eq_none_iff.mp here))
    | some (.leaf held) =>
      exact ⟨place, held, used, way, here, by rw [depthFrom_leaf here, Nat.add_zero]⟩
    | some (.split key branches fallback) =>
      obtain ⟨hne, hbelow⟩ := h.down here
      obtain ⟨child, hchild, hdepth⟩ := exists_child_depthFrom here hne fuel
      have hlt := behind place child ⟨_, here, hchild⟩
      obtain ⟨leaf, held, keys, hway, hleaf, hlength⟩ :=
        ih (hbelow child hchild) (way.down here hchild) (by omega)
      refine ⟨leaf, held, keys, hway, hleaf, ?_⟩
      rw [hlength, hdepth, List.length_cons]
      omega

/-- Compiling ends, after as many rounds of the work list as the tree has nodes. If any rule is
enabled, the tree has a root, every other place is referred to once, from a node before it, and the
values of each split ascend, so a search by halving finds the branch of a value. No way from the
root tests a key twice. The depth is the length of the longest way to a leaf; neither the limit nor
the number of keys that enabled rules fix is below it. -/
theorem compile_wellFormed (rules : List (Rule α)) (maxKeys : Nat) :
    let tree := compile rules maxKeys
    (WorkList.step rules.toArray maxKeys)^[tree.size] (WorkList.start rules) = ⟨tree.nodes, []⟩ ∧
      ((∃ rule ∈ rules, rule.enabled) →
        0 < tree.size ∧ WellFormed tree.nodes ∧
        (∀ key branches fallback, .split key branches fallback ∈ tree.nodes →
          ∀ value, bisect branches value 0 branches.length = branches.lookup value) ∧
        (∀ place keys, Way tree.nodes place keys → keys.Nodup ∧ keys.length ≤ tree.depth) ∧
        (∃ leaf held keys, Way tree.nodes leaf keys ∧ tree.nodes[leaf]? = some (.leaf held) ∧
          keys.length = tree.depth) ∧
        tree.depth ≤ maxKeys ∧ tree.depth ≤ (testableKeys rules).card) := by
  intro tree
  refine ⟨WorkList.iterate_step_start rules maxKeys, ?_⟩
  rintro ⟨rule, hmem, henabled⟩
  have he : enabledPlaces rules ≠ [] := by
    obtain ⟨place, hplace⟩ := List.mem_iff_getElem?.mp hmem
    exact List.ne_nil_of_mem (mem_enabledPlaces.mpr ⟨rule, hplace, henabled⟩)
  have hwell : WellFormed tree.nodes := wellFormed_compile rules maxKeys
  have hroot : Grown rules maxKeys tree.nodes 0 [] := grown_root he maxKeys
  obtain ⟨_, _, -, -, hstored⟩ := hroot.stored
  obtain ⟨leaf, held, keys, hway, hleaf, hlength⟩ :=
    exists_way_of_grown hroot .root tree.nodes.size (Nat.zero_add _).ge hwell.behind
  have hdepth : keys.length = tree.depth := by
    rw [hlength, List.length_nil, Nat.zero_add, depth]
  have hend : Grown rules maxKeys tree.nodes leaf keys := hway.grown he
  refine ⟨hstored.lt_size, hwell, ?_, ?_, ⟨leaf, held, keys, hway, hleaf, hdepth⟩, ?_, ?_⟩
  · intro key branches fallback hsplit value
    exact bisect_eq_lookup (hwell.ascending _ hsplit) value
  · intro place keys way
    have hlong := way.length_add_depthFrom_le hwell.behind
    exact ⟨(way.grown he).distinct, by rw [depth]; omega⟩
  · exact hdepth ▸ hend.length_le
  · exact hdepth ▸ hend.length_le_card

/-- Of two rules for different hours and one for any hour, a tree with one split is compiled. -/
theorem compile_wellFormed_hours :
    let hourly (hour : String) : Rule Float :=
      { Rule.unconditional hour ⟨hour, "alarm", ""⟩ with conditions := [⟨"hour", .eq, hour⟩] }
    let rules := [hourly "6", hourly "7", Rule.unconditional "any" ⟨"any", "alarm", ""⟩]
    (compile rules 5).nodes =
        #[.split "hour" [("6", 1), ("7", 2)] (some 3), .leaf [0, 2], .leaf [1, 2], .leaf [2]] ∧
      WellFormed (compile rules 5).nodes ∧ (compile rules 5).depth = 1 ∧
      (compile rules 5).depth ≤ (testableKeys rules).card := by
  intro hourly rules
  have hcompiled := (compile_wellFormed rules 5).2 ⟨hourly "6", List.mem_cons_self, rfl⟩
  exact ⟨by decide +kernel, hcompiled.2.1, by decide +kernel, hcompiled.2.2.2.2.2.2⟩

end ContextAdvisor.DecisionTree
