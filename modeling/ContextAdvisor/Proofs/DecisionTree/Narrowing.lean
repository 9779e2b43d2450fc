import ContextAdvisor.Proofs.DecisionTree.Candidates

/-!
# The walk without the nodes

A walk through a compiled tree takes the same decisions as the growth of the tree, at the values
that the context has. So it can be told without any nodes: a set of rules is narrowed down key by
key, to those that are compatible with the value of the context or, if no rule asks for this value,
to those that leave the key open.
-/
namespace ContextAdvisor

theorem Rule.mem_fixedKeys {α : Type} {rule : Rule α} {key : String} :
    key ∈ rule.fixedKeys ↔ (rule.fixed? key).isSome := by
  rw [fixed?, Option.isSome_map, List.find?_isSome]
  simp [fixedKeys, and_assoc, and_comm]

namespace DecisionTree

variable {α : Type} [Scalar α] {rules : Array (Rule α)} {context : Context} {used : List String}
  {places : List Nat}

/-- The better of the best key so far and another one. -/
def morePromising (rules : Array (Rule α)) (places : List Nat) (best : Option (String × α))
    (key : String) : Option (String × α) :=
  match best with
  | some (bestKey, bestValue) =>
    if promise rules places key ≤ bestValue then some (bestKey, bestValue)
    else some (key, promise rules places key)
  | none => some (key, promise rules places key)

theorem splitKey?_eq (rules : Array (Rule α)) (used : List String) (places : List Nat) :
    splitKey? rules used places =
      ((openKeys rules used places).foldl (morePromising rules places) none).map (·.1) := rfl

/-- The search for a key starts with any key and goes on with better ones. -/
theorem exists_of_foldl_morePromising (key : String) (value : α) (keys : List String) :
    ∃ best ∈ key :: keys, (keys.foldl (morePromising rules places) (some (key, value))).map (·.1) =
      some best := by
  induction keys generalizing key value with
  | nil => exact ⟨key, List.mem_cons_self, rfl⟩
  | cons next rest ih =>
    rw [List.foldl_cons, morePromising]
    split_ifs
    · obtain ⟨best, hbest, h⟩ := ih key value
      exact ⟨best,
        List.mem_cons.mpr ((List.mem_cons.mp hbest).imp_right (List.mem_cons_of_mem _)), h⟩
    · obtain ⟨best, hbest, h⟩ := ih next (promise rules places next)
      exact ⟨best, List.mem_cons_of_mem _ hbest, h⟩

/-- If a key is open, a set of rules is split by one that is. -/
theorem exists_splitKey {key : String} (h : key ∈ openKeys rules used places) :
    ∃ best ∈ openKeys rules used places, splitKey? rules used places = some best := by
  rw [splitKey?_eq]
  cases hk : openKeys rules used places with
  | nil => simp [hk] at h
  | cons first rest => exact exists_of_foldl_morePromising _ _ _

omit [Scalar α] in
/-- The open keys are those that some rule fixes and that are not used yet. -/
theorem mem_openKeys {key : String} : key ∈ openKeys rules used places ↔
    key ∉ used ∧ ∃ place ∈ places, (fixedAt? rules key place).isSome := by
  have hfixed : ∀ place, key ∈ (rules[place]?.map Rule.fixedKeys).getD [] ↔
      (fixedAt? rules key place).isSome := by
    intro place
    cases hr : rules[place]? with
    | none => simp [fixedAt?, hr]
    | some rule => simp [fixedAt?, hr, Rule.mem_fixedKeys]
  simp only [openKeys, mem_ascendingTexts, List.mem_filter, List.mem_flatMap, hfixed]
  rw [and_comm]
  simp

/-- Without a default, no rule leaves the key open. -/
theorem indifferent_eq_nil_of_fallbackOf {budget : Nat} {key : String}
    (h : fallbackOf rules budget used places key = none) : indifferent rules key places = [] := by
  by_contra hne
  obtain ⟨i, hi⟩ := List.exists_mem_of_ne_nil _ hne
  simp [fallbackOf_of_mem hi] at h

/-- The rules that are left of some rules after the walk through their tree. -/
def narrowed (rules : Array (Rule α)) (context : Context) :
    (budget : Nat) → (used : List String) → (places : List Nat) → List Nat
  | 0, _, places => places
  | budget + 1, used, places =>
    if places.length ≤ leafSize then places
    else match splitKey? rules used places with
      | none => places
      | some key =>
        let values := ascendingTexts (places.filterMap (fixedAt? rules key))
        let branch (value : String) : List Nat :=
          narrowed rules context budget (key :: used) (compatible rules key value places)
        let fallback := narrowed rules context budget (key :: used) (indifferent rules key places)
        match context.get? key with
        | some value => if value ∈ values then branch value else fallback
        | none => values.flatMap branch ++ fallback

theorem narrowed_nil (rules : Array (Rule α)) (context : Context) (budget : Nat)
    (used : List String) : narrowed rules context budget used [] = [] := by
  cases budget <;> simp [narrowed, leafSize]

omit [Scalar α] in
/-- What holds of each child holds of all references to children together. -/
theorem flatMap_references {first : Nat} {branches : List (String × Growth)}
    {f : Nat → List Nat} {g : String × Growth → List Nat}
    (h : ∀ i branch, branches[i]? = some branch → f (first + i) = g branch) :
    ((references first branches).map (·.2)).flatMap f = branches.flatMap g := by
  induction branches generalizing first with
  | nil => rfl
  | cons branch rest ih =>
    have hrest : ∀ i b, rest[i]? = some b → f (first + 1 + i) = g b := by
      intro i b hb
      rw [Nat.add_assoc, Nat.add_comm 1]
      exact h (i + 1) b hb
    have hfirst : f first = g branch := h 0 branch rfl
    rw [references, List.map_cons, List.flatMap_cons, List.flatMap_cons, ih hrest, hfirst]

omit [Scalar α] in
theorem visit_of_leaf {nodes : Array Node} {place : Nat} {held : List Nat}
    (h : nodes[place]? = some (.leaf held)) (context : Context) (fuel : Nat) :
    visit nodes context (fuel + 1) place = held := by
  simp [visit, h, Node.held, Node.follow]

omit [Scalar α] in
theorem visit_of_split {nodes : Array Node} {place : Nat} {key : String}
    {branches : List (String × Nat)} {fallback : Option Nat}
    (h : nodes[place]? = some (.split key branches fallback)) (context : Context) (fuel : Nat) :
    visit nodes context (fuel + 1) place =
      ((Node.split key branches fallback).follow context).flatMap (visit nodes context fuel) := by
  simp [visit, h, Node.held]

/-- There is a branch for each value to which some rule fixes the key. -/
theorem exists_branch_iff {budget : Nat} {key value : String} :
    (∃ tree, (value, tree) ∈ branchesOf rules budget used places key) ↔
      value ∈ ascendingTexts (places.filterMap (fixedAt? rules key)) := by
  simp only [mem_branchesOf, exists_and_left, exists_eq, and_true, mem_ascendingTexts,
    List.mem_filterMap]

/-- Where the context has a value, the walk enters the branch of this value or the default. -/
theorem flatMap_follow_of_value {f : Nat → List Nat} {g : String → List Nat} {budget first : Nat}
    {key value : String} {fallback : Option Nat} (hv : context.get? key = some value)
    (h : ∀ i branch, (branchesOf rules budget used places key)[i]? = some branch →
      f (first + i) = g branch.1) :
    ((Node.split key (references first (branchesOf rules budget used places key)) fallback).follow
        context).flatMap f =
      if value ∈ ascendingTexts (places.filterMap (fixedAt? rules key)) then g value
      else fallback.toList.flatMap f := by
  rw [follow_of_value hv]
  cases hl : (references first (branchesOf rules budget used places key)).lookup value with
  | none =>
    rw [if_neg]
    · rfl
    · intro hm
      obtain ⟨tree, hb⟩ : ∃ tree, (value, tree) ∈ branchesOf rules budget used places key :=
        exists_branch_iff.mpr hm
      obtain ⟨i, hi⟩ := List.mem_iff_getElem?.mp hb
      have hne := List.lookup_eq_none_iff.mp hl _ (mem_references.mpr ⟨i, _, hi, rfl⟩)
      simp at hne
  | some child =>
    obtain ⟨i, tree, hi, rfl⟩ := mem_references.mp (Dictionary.mem_of_lookup hl)
    rw [if_pos (exists_branch_iff.mp ⟨tree, List.mem_of_getElem? hi⟩)]
    simpa using h i _ hi

/-- One step of the walk: at a split it finds what is left, if the walks from the children, which
lie further back, do. -/
theorem visit_split_eq_narrowed {nodes : Array Node} {fuel n place : Nat} {key : String}
    (h : Stored nodes place (.split key (branchesOf rules n used places key)
      (fallbackOf rules n used places key)))
    (below : ∀ child used' places', place < child →
      Stored nodes child (grow rules n used' places') →
        visit nodes context fuel child = narrowed rules context n used' places') :
    visit nodes context (fuel + 1) place =
      match context.get? key with
      | some value =>
        if value ∈ ascendingTexts (places.filterMap (fixedAt? rules key)) then
          narrowed rules context n (key :: used) (compatible rules key value places)
        else narrowed rules context n (key :: used) (indifferent rules key places)
      | none =>
        (ascendingTexts (places.filterMap (fixedAt? rules key))).flatMap (fun value =>
          narrowed rules context n (key :: used) (compatible rules key value places)) ++
            narrowed rules context n (key :: used) (indifferent rules key places) := by
  obtain - | @⟨_, first, _, _, _, behind, here, inner, last⟩ := h
  have hbranch : ∀ i branch, (branchesOf rules n used places key)[i]? = some branch →
      visit nodes context fuel (first + i) =
        narrowed rules context n (key :: used) (compatible rules key branch.1 places) := by
    rintro i ⟨value, tree⟩ hi
    have stored := inner i _ hi
    rw [(mem_branchesOf.mp (List.mem_of_getElem? hi)).2] at stored
    exact below _ _ _ (by omega) stored
  have hfallback :
      ((fallbackOf rules n used places key).map fun _ =>
        first + (branchesOf rules n used places key).length).toList.flatMap
          (visit nodes context fuel) =
        narrowed rules context n (key :: used) (indifferent rules key places) := by
    cases hfb : fallbackOf rules n used places key with
    | none =>
      rw [indifferent_eq_nil_of_fallbackOf hfb, narrowed_nil]
      rfl
    | some tree =>
      have stored := last tree hfb
      rw [fallbackOf_eq_some hfb] at stored
      simpa using below _ _ _ (by omega) stored
  rw [visit_of_split here]
  cases hc : context.get? key with
  | none =>
    rw [follow_of_no_value hc, Node.children, List.flatMap_append, hfallback,
      flatMap_references hbranch]
    simp [branchesOf, List.flatMap_map]
  | some value =>
    exact (flatMap_follow_of_value
      (g := fun v => narrowed rules context n (key :: used) (compatible rules key v places))
      hc hbranch).trans (by rw [hfallback])

/-- The walk through a stored tree finds what is left of the rules for which the tree was grown. -/
theorem visit_eq_narrowed {nodes : Array Node} {fuel budget place : Nat}
    (h : Stored nodes place (grow rules budget used places)) (hf : nodes.size ≤ place + fuel) :
    visit nodes context fuel place = narrowed rules context budget used places := by
  -- every child lies further back, so the fuel still reaches to the end of the array
  induction fuel generalizing budget used places place with
  | zero =>
    have := h.lt_size
    omega
  | succ fuel ih =>
    cases budget with
    | zero =>
      obtain ⟨here⟩ := h
      exact visit_of_leaf here _ _
    | succ n =>
      simp only [grow, narrowed] at h ⊢
      split_ifs at h ⊢
      · obtain ⟨here⟩ := h
        exact visit_of_leaf here _ _
      cases hk : splitKey? rules used places with
      | none =>
        rw [hk] at h
        obtain ⟨here⟩ := h
        exact visit_of_leaf here _ _
      | some key =>
        rw [hk] at h
        exact visit_split_eq_narrowed h fun child used' places' hlt hc => ih hc (by omega)

/-- The candidates of a compiled tree are what is left of the enabled rules. -/
theorem mem_candidates_compile {rules : List (Rule α)} {maxKeys place : Nat} :
    place ∈ (compile rules maxKeys).candidates context ↔
      place ∈ narrowed rules.toArray context maxKeys [] (enabledPlaces rules) := by
  rw [mem_candidates]
  by_cases he : enabledPlaces rules = []
  · simp [compile_of_none_enabled he, he, visit, narrowed_nil]
  · rw [compile_of_enabled he, visit_eq_narrowed (stored_layOut _) (Nat.zero_add _).ge]

end DecisionTree

end ContextAdvisor
