import ContextAdvisor.Dictionary.Lemmas
import ContextAdvisor.Proofs.DecisionTree.Layout

/-!
# What the walk through a compiled tree finds

A rule fixes a key by its first equality on it, and a context rules it out if it has another value
for such a key. The candidates of a compiled tree are enabled rules, and every enabled rule that is
not ruled out is among them. With fewer keys in the context the walk enters more nodes, so it loses
no candidate.
-/
namespace ContextAdvisor

/-- No value of the context contradicts the first equality of the rule on its key. -/
def Rule.MayFit {α : Type} (rule : Rule α) (context : Context) : Prop :=
  ∀ key required, rule.fixed? key = some required →
    context.get? key = none ∨ context.get? key = some required

theorem Rule.mayFit_empty {α : Type} (rule : Rule α) : rule.MayFit ∅ := fun _ _ _ => .inl rfl

namespace DecisionTree

variable {α : Type}

@[simp] theorem mem_insertPlace {n m : Nat} {places : List Nat} :
    m ∈ insertPlace n places ↔ m = n ∨ m ∈ places := by
  induction places with
  | nil => simp [insertPlace]
  | cons p rest ih =>
    unfold insertPlace
    split_ifs with hlt heq
    · simp
    · simp [heq]
    · simp only [List.mem_cons, ih]
      exact or_left_comm

theorem pairwise_insertPlace (n : Nat) {places : List Nat} (h : places.Pairwise (· < ·)) :
    (insertPlace n places).Pairwise (· < ·) := by
  induction places with
  | nil => simp [insertPlace]
  | cons p rest ih =>
    obtain ⟨hp, hr⟩ := List.pairwise_cons.mp h
    unfold insertPlace
    split_ifs with hlt heq
    · refine List.pairwise_cons.mpr ⟨fun m hm => ?_, h⟩
      rcases List.mem_cons.mp hm with rfl | hm
      · exact hlt
      · exact hlt.trans (hp m hm)
    · exact h
    · refine List.pairwise_cons.mpr ⟨fun m hm => ?_, ih hr⟩
      rcases mem_insertPlace.mp hm with rfl | hm
      · omega
      · exact hp m hm

@[simp] theorem mem_ascendingPlaces {n : Nat} {places : List Nat} :
    n ∈ ascendingPlaces places ↔ n ∈ places := by
  induction places with
  | nil => simp [ascendingPlaces]
  | cons p rest ih => simp [ascendingPlaces, ← ih]

theorem pairwise_ascendingPlaces (places : List Nat) :
    (ascendingPlaces places).Pairwise (· < ·) := by
  induction places with
  | nil => simp [ascendingPlaces]
  | cons p rest ih => exact pairwise_insertPlace p ih

/-- Strictly ascending lists with the same members are equal. -/
theorem eq_of_mem_iff {a b : List Nat} (ha : a.Pairwise (· < ·)) (hb : b.Pairwise (· < ·))
    (h : ∀ n, n ∈ a ↔ n ∈ b) : a = b := by
  have hp : a.Perm b := (List.perm_ext_iff_of_nodup (ha.imp ne_of_lt) (hb.imp ne_of_lt)).mpr h
  exact hp.eq_of_pairwise (fun _ _ _ _ h h' => absurd (h.trans h') (lt_irrefl _)) ha hb

@[simp] theorem mem_enabledPlaces {rules : List (Rule α)} {place : Nat} :
    place ∈ enabledPlaces rules ↔ ∃ rule, rules[place]? = some rule ∧ rule.enabled := by
  simp [enabledPlaces, List.mem_filterMap, List.mem_zipIdx_iff_getElem?]

theorem pairwise_enabledPlaces (rules : List (Rule α)) :
    (enabledPlaces rules).Pairwise (· < ·) := by
  have hz : rules.zipIdx.Pairwise fun a b => a.2 < b.2 := by
    rw [← List.pairwise_map, List.zipIdx_map_snd]
    exact List.pairwise_lt_range'
  refine List.Pairwise.filterMap _ (fun a b hab n hn m hm => ?_) hz
  simp only [Option.ite_none_right_eq_some, Option.some.injEq] at hn hm
  omega

@[simp] theorem mem_ascendingTexts {text : String} {texts : List String} :
    text ∈ ascendingTexts texts ↔ text ∈ texts := by
  simp [ascendingTexts]

/-- The branches of a split by a key. -/
def branchesOf [Scalar α] (rules : Array (Rule α)) (budget : Nat) (used : List String)
    (places : List Nat) (key : String) : List (String × Growth) :=
  (ascendingTexts (places.filterMap (fixedAt? rules key))).map fun value =>
    (value, grow rules budget (key :: used) (compatible rules key value places))

/-- The default of a split by a key. -/
def fallbackOf [Scalar α] (rules : Array (Rule α)) (budget : Nat) (used : List String)
    (places : List Nat) (key : String) : Option Growth :=
  if (indifferent rules key places).isEmpty then none
  else some (grow rules budget (key :: used) (indifferent rules key places))

/-- A tree is a leaf with all its rules, or a split by a key with a smaller budget. -/
theorem grow_cases [Scalar α] (rules : Array (Rule α)) (budget : Nat) (used : List String)
    (places : List Nat) : grow rules budget used places = .leaf places ∨
      ∃ n key, budget = n + 1 ∧ splitKey? rules used places = some key ∧
        grow rules budget used places =
          .split key (branchesOf rules n used places key) (fallbackOf rules n used places key) := by
  cases budget with
  | zero => exact .inl rfl
  | succ n =>
    rw [grow]
    split_ifs
    · exact .inl rfl
    · cases hk : splitKey? rules used places with
      | none => exact .inl rfl
      | some key => exact .inr ⟨n, key, rfl, rfl, rfl⟩

theorem mem_branchesOf [Scalar α] {rules : Array (Rule α)} {budget : Nat} {used : List String}
    {places : List Nat} {key value : String} {tree : Growth} :
    (value, tree) ∈ branchesOf rules budget used places key ↔
      (∃ place ∈ places, fixedAt? rules key place = some value) ∧
        tree = grow rules budget (key :: used) (compatible rules key value places) := by
  simp only [branchesOf, List.mem_map, mem_ascendingTexts, List.mem_filterMap, Prod.mk.injEq]
  constructor
  · rintro ⟨v, hv, rfl, rfl⟩
    exact ⟨hv, rfl⟩
  · rintro ⟨hv, rfl⟩
    exact ⟨value, hv, rfl, rfl⟩

theorem fallbackOf_eq_some [Scalar α] {rules : Array (Rule α)} {budget : Nat}
    {used : List String} {places : List Nat} {key : String} {tree : Growth}
    (h : fallbackOf rules budget used places key = some tree) :
    tree = grow rules budget (key :: used) (indifferent rules key places) := by
  unfold fallbackOf at h
  split_ifs at h
  exact (Option.some.inj h).symm

theorem mem_compatible {rules : Array (Rule α)} {key value : String} {places : List Nat}
    {i : Nat} : i ∈ compatible rules key value places ↔
      i ∈ places ∧ ∀ required, fixedAt? rules key i = some required → required = value := by
  rw [compatible, List.mem_filter]
  cases fixedAt? rules key i <;> simp

theorem mem_indifferent {rules : Array (Rule α)} {key : String} {places : List Nat} {i : Nat} :
    i ∈ indifferent rules key places ↔ i ∈ places ∧ fixedAt? rules key i = none := by
  simp [indifferent, List.mem_filter]

/-- A rule that leaves a key open is a reason for a default. -/
theorem fallbackOf_of_mem [Scalar α] {rules : Array (Rule α)} {places : List Nat} {key : String}
    {i : Nat} (h : i ∈ indifferent rules key places) (budget : Nat) (used : List String) :
    fallbackOf rules budget used places key =
      some (grow rules budget (key :: used) (indifferent rules key places)) := by
  refine if_neg ?_
  rw [List.isEmpty_iff]
  exact List.ne_nil_of_mem h

theorem follow_of_value {context : Context} {key value : String}
    (h : context.get? key = some value) (branches : List (String × Nat)) (fallback : Option Nat) :
    (Node.split key branches fallback).follow context =
      (branches.lookup value <|> fallback).toList := by
  simp only [Node.follow, h]

/-- Without a value for the key, all children are entered. -/
theorem follow_of_no_value {context : Context} {key : String} (h : context.get? key = none)
    (branches : List (String × Nat)) (fallback : Option Nat) :
    (Node.split key branches fallback).follow context =
      (Node.split key branches fallback).children := by
  simp only [Node.follow, Node.children, h]

theorem follow_subset_children (context : Context) (node : Node) :
    node.follow context ⊆ node.children := by
  cases node with
  | leaf rules => simp [Node.follow]
  | split key branches fallback =>
    cases hc : context.get? key with
    | none => rw [follow_of_no_value hc]; exact fun _ h => h
    | some value =>
      rw [follow_of_value hc]
      intro place h
      cases hb : branches.lookup value with
      | none => exact List.mem_append_right _ (by simpa [hb] using h)
      | some p =>
        obtain rfl : place = p := by simpa [hb] using h
        exact List.mem_append_left _
          (List.mem_map_of_mem (f := (·.2)) (Dictionary.mem_of_lookup hb))

/-- With fewer keys in the context, no fewer children are entered. -/
theorem follow_subset_of_fewer {context fewer : Context}
    (h : ∀ key value, fewer.get? key = some value → context.get? key = some value)
    (node : Node) : node.follow context ⊆ node.follow fewer := by
  cases node with
  | leaf rules => simp [Node.follow]
  | split key branches fallback =>
    cases hf : fewer.get? key with
    | none => rw [follow_of_no_value hf]; exact follow_subset_children context _
    | some value => rw [follow_of_value hf, follow_of_value (h key value hf)]; exact fun _ h => h

theorem visit_subset_of_fewer {context fewer : Context}
    (h : ∀ key value, fewer.get? key = some value → context.get? key = some value)
    (nodes : Array Node) (fuel place : Nat) :
    visit nodes context fuel place ⊆ visit nodes fewer fuel place := by
  induction fuel generalizing place with
  | zero => simp [visit]
  | succ fuel ih =>
    intro i hi
    rw [visit] at hi ⊢
    cases hn : nodes[place]? with
    | none => simp [hn] at hi
    | some node =>
      simp only [hn, List.mem_append, List.mem_flatMap] at hi ⊢
      refine hi.imp_right ?_
      rintro ⟨child, hc, hi⟩
      exact ⟨child, follow_subset_of_fewer h node hc, ih child hi⟩

/-- One node refers to another. -/
def Child (nodes : Array Node) (parent child : Nat) : Prop :=
  ∃ node, nodes[parent]? = some node ∧ child ∈ node.children

/-- A rule that the walk finds is held by a leaf below the place from which the walk started. -/
theorem exists_leaf_of_mem_visit {nodes : Array Node} {context : Context} {fuel place i : Nat}
    (h : i ∈ visit nodes context fuel place) :
    ∃ leaf held, Relation.ReflTransGen (Child nodes) place leaf ∧
      nodes[leaf]? = some (.leaf held) ∧ i ∈ held := by
  induction fuel generalizing place with
  | zero => simp [visit] at h
  | succ fuel ih =>
    rw [visit] at h
    cases hn : nodes[place]? with
    | none => simp [hn] at h
    | some node =>
      simp only [hn, List.mem_append, List.mem_flatMap] at h
      rcases h with h | ⟨child, hc, hi⟩
      · cases node with
        | leaf held => exact ⟨place, held, .refl, hn, h⟩
        | split => simp [Node.held] at h
      · obtain ⟨leaf, held, hr, hl, hm⟩ := ih hi
        exact ⟨leaf, held, .head ⟨node, hn, follow_subset_children context node hc⟩ hr, hl, hm⟩

theorem mem_visit_of_follow {nodes : Array Node} {context : Context} {place child fuel i : Nat}
    {node : Node} (here : nodes[place]? = some node) (hc : child ∈ node.follow context)
    (hi : i ∈ visit nodes context fuel child) : i ∈ visit nodes context (fuel + 1) place := by
  rw [visit]
  simp only [here, List.mem_append, List.mem_flatMap]
  exact .inr ⟨child, hc, hi⟩

/-- The branch of a value is entered if the context has this value or none. -/
theorem exists_branch_followed {context : Context} {key value : String} {first : Nat}
    {branches : List (String × Growth)} {tree : Growth} (fallback : Option Nat)
    (hb : (value, tree) ∈ branches)
    (hv : context.get? key = none ∨ context.get? key = some value) :
    ∃ i tree, branches[i]? = some (value, tree) ∧
      first + i ∈ (Node.split key (references first branches) fallback).follow context := by
  rcases hv with hv | hv
  · obtain ⟨i, hi⟩ := List.mem_iff_getElem?.mp hb
    have hr : (value, first + i) ∈ references first branches := mem_references.mpr ⟨i, _, hi, rfl⟩
    refine ⟨i, tree, hi, ?_⟩
    rw [follow_of_no_value hv]
    exact List.mem_append_left _ (List.mem_map_of_mem (f := (·.2)) hr)
  · rw [follow_of_value hv]
    cases hl : (references first branches).lookup value with
    | none =>
      obtain ⟨i, hi⟩ := List.mem_iff_getElem?.mp hb
      have hne := List.lookup_eq_none_iff.mp hl _ (mem_references.mpr ⟨i, _, hi, rfl⟩)
      simp at hne
    | some place =>
      obtain ⟨i, tree, hi, rfl⟩ := mem_references.mp (Dictionary.mem_of_lookup hl)
      exact ⟨i, tree, hi, by simp⟩

/-- The default is entered if no branch is for the value that the context has. -/
theorem fallback_followed {context : Context} {key : String} {first place : Nat}
    {branches : List (String × Growth)}
    (hv : ∀ value, context.get? key = some value → ∀ tree, (value, tree) ∉ branches) :
    place ∈ (Node.split key (references first branches) (some place)).follow context := by
  cases hc : context.get? key with
  | none =>
    rw [follow_of_no_value hc]
    simp [Node.children]
  | some value =>
    rw [follow_of_value hc]
    have hl : (references first branches).lookup value = none := by
      rw [List.lookup_eq_none_iff]
      rintro ⟨v, p⟩ hp
      obtain ⟨i, tree, hi, -⟩ := mem_references.mp hp
      have hne : value ≠ v := fun he => hv value hc tree (he ▸ List.mem_of_getElem? hi)
      simpa using hne
    simp [hl]

theorem Stored.lt_size {nodes : Array Node} {place : Nat} {tree : Growth}
    (h : Stored nodes place tree) : place < nodes.size := by
  cases h with
  | leaf here => exact (Array.getElem?_eq_some_iff.mp here).1
  | split _ here => exact (Array.getElem?_eq_some_iff.mp here).1

/-- A walk finds only rules for which the tree was grown. -/
theorem mem_of_mem_visit [Scalar α] {nodes : Array Node} {rules : Array (Rule α)}
    {context : Context} {fuel budget place i : Nat} {used : List String} {places : List Nat}
    (h : Stored nodes place (grow rules budget used places))
    (hi : i ∈ visit nodes context fuel place) : i ∈ places := by
  induction fuel generalizing budget used places place with
  | zero => simp [visit] at hi
  | succ fuel ih =>
    rcases grow_cases rules budget used places with hg | ⟨n, key, -, -, hg⟩
    · rw [hg] at h
      obtain ⟨here⟩ := h
      simpa [visit, here, Node.held, Node.follow] using hi
    · rw [hg] at h
      obtain - | ⟨behind, here, inner, last⟩ := h
      simp only [visit, here, Node.held, List.nil_append, List.mem_flatMap] at hi
      obtain ⟨child, hfollow, hi⟩ := hi
      have hc := follow_subset_children context _ hfollow
      simp only [Node.children, List.mem_append, List.mem_map, Option.mem_toList] at hc
      rcases hc with ⟨⟨value, _⟩, hc, rfl⟩ | hc
      · obtain ⟨j, tree, hj, rfl⟩ := mem_references.mp hc
        have stored := inner j _ hj
        rw [(mem_branchesOf.mp (List.mem_of_getElem? hj)).2] at stored
        exact (mem_compatible.mp (ih stored hi)).1
      · obtain ⟨tree, ht, rfl⟩ := Option.map_eq_some_iff.mp hc
        have stored := last tree ht
        rw [fallbackOf_eq_some ht] at stored
        exact (mem_indifferent.mp (ih stored hi)).1

/-- A walk finds every rule for which the tree was grown, unless the context rules it out. Places
grow on the way down, so the fuel suffices if it covers the places that lie behind. -/
theorem mem_visit [Scalar α] {nodes : Array Node} {rules : Array (Rule α)} {context : Context}
    {fuel budget place i : Nat} {used : List String} {places : List Nat}
    (h : Stored nodes place (grow rules budget used places)) (hf : nodes.size ≤ place + fuel)
    (hi : i ∈ places) (hm : ∀ key required, fixedAt? rules key i = some required →
      context.get? key = none ∨ context.get? key = some required) :
    i ∈ visit nodes context fuel place := by
  induction fuel generalizing budget used places place with
  | zero =>
    have := h.lt_size
    omega
  | succ fuel ih =>
    rcases grow_cases rules budget used places with hg | ⟨n, key, -, -, hg⟩
    · rw [hg] at h
      obtain ⟨here⟩ := h
      simpa [visit, here, Node.held, Node.follow] using hi
    · rw [hg] at h
      obtain - | ⟨behind, here, inner, last⟩ := h
      -- a branch that is entered keeps the rule if its value is compatible with the rule
      have through {value : String} {tree : Growth}
          (hb : (value, tree) ∈ branchesOf rules n used places key)
          (hv : context.get? key = none ∨ context.get? key = some value)
          (hc : i ∈ compatible rules key value places) :
          i ∈ visit nodes context (fuel + 1) place := by
        obtain ⟨j, tree, hj, hfollow⟩ := exists_branch_followed _ hb hv
        have stored := inner j _ hj
        rw [(mem_branchesOf.mp (List.mem_of_getElem? hj)).2] at stored
        exact mem_visit_of_follow here hfollow (ih stored (by omega) hc)
      cases hk : fixedAt? rules key i with
      | some required =>
        refine through (mem_branchesOf.mpr ⟨⟨i, hi, hk⟩, rfl⟩) (hm key required hk) ?_
        exact mem_compatible.mpr ⟨hi, fun r hr => Option.some.inj (hr.symm.trans hk)⟩
      | none =>
        by_cases hv : ∃ value tree, context.get? key = some value ∧
            (value, tree) ∈ branchesOf rules n used places key
        · obtain ⟨value, tree, hc, hb⟩ := hv
          exact through hb (.inr hc) (mem_compatible.mpr ⟨hi, by simp [hk]⟩)
        · have hin : i ∈ indifferent rules key places := mem_indifferent.mpr ⟨hi, hk⟩
          have hfb := fallbackOf_of_mem hin n used
          rw [hfb, Option.map_some] at here
          refine mem_visit_of_follow here (fallback_followed ?_) (ih (last _ hfb) (by omega) hin)
          exact fun value hc tree hb => hv ⟨value, tree, hc, hb⟩

/-- A tree holds only rules for which it was grown. -/
theorem holds_grow [Scalar α] (rules : Array (Rule α)) (budget : Nat) (used : List String)
    (places : List Nat) : Holds (· ∈ places) (grow rules budget used places) := by
  suffices ∀ p : Nat → Prop, (∀ i ∈ places, p i) → Holds p (grow rules budget used places) from
    this _ fun _ hi => hi
  intro p hp
  induction budget generalizing used places with
  | zero => exact .leaf hp
  | succ budget ih =>
    rcases grow_cases rules (budget + 1) used places with hg | ⟨n, key, hn, -, hg⟩
    · exact hg ▸ .leaf hp
    · obtain rfl := Nat.succ.inj hn
      rw [hg]
      refine .split (fun branch hb => ?_) fun tree ht => ?_
      · rw [(mem_branchesOf.mp hb).2]
        exact ih _ _ fun i hi => hp i (mem_compatible.mp hi).1
      · rw [fallbackOf_eq_some ht]
        exact ih _ _ fun i hi => hp i (mem_indifferent.mp hi).1

theorem compile_of_none_enabled [Scalar α] {rules : List (Rule α)} (h : enabledPlaces rules = [])
    (maxKeys : Nat) : compile rules maxKeys = ⟨#[]⟩ := by
  simp [compile, h]

theorem compile_of_enabled [Scalar α] {rules : List (Rule α)} (h : enabledPlaces rules ≠ [])
    (maxKeys : Nat) : compile rules maxKeys =
      ⟨layOut #[.leaf []] 0 (grow rules.toArray maxKeys [] (enabledPlaces rules))⟩ := by
  unfold compile
  cases he : enabledPlaces rules with
  | nil => exact absurd he h
  | cons => rfl

theorem mem_candidates {tree : DecisionTree} {context : Context} {place : Nat} :
    place ∈ tree.candidates context ↔ place ∈ visit tree.nodes context tree.nodes.size 0 := by
  rw [candidates, mem_ascendingPlaces]

theorem pairwise_candidates (tree : DecisionTree) (context : Context) :
    (tree.candidates context).Pairwise (· < ·) := pairwise_ascendingPlaces _

theorem mem_enabledPlaces_of_mem_candidates [Scalar α] {rules : List (Rule α)} {maxKeys : Nat}
    {context : Context} {place : Nat}
    (h : place ∈ (compile rules maxKeys).candidates context) : place ∈ enabledPlaces rules := by
  rw [mem_candidates] at h
  by_cases he : enabledPlaces rules = []
  · simp [compile_of_none_enabled he, visit] at h
  · rw [compile_of_enabled he] at h
    exact mem_of_mem_visit (stored_layOut _) h

theorem mem_candidates_of_mayFit [Scalar α] {rules : List (Rule α)} {context : Context}
    {place : Nat} {rule : Rule α} (hr : rules[place]? = some rule) (he : rule.enabled)
    (hm : rule.MayFit context) (maxKeys : Nat) :
    place ∈ (compile rules maxKeys).candidates context := by
  have hp : place ∈ enabledPlaces rules := mem_enabledPlaces.mpr ⟨rule, hr, he⟩
  rw [mem_candidates, compile_of_enabled (List.ne_nil_of_mem hp)]
  refine mem_visit (stored_layOut _) (by omega) hp fun key required hk => hm key required ?_
  simpa [fixedAt?, hr] using hk

theorem candidates_subset_of_fewer {context fewer : Context}
    (h : ∀ key value, fewer.get? key = some value → context.get? key = some value)
    (tree : DecisionTree) : tree.candidates context ⊆ tree.candidates fewer := by
  intro place hp
  rw [mem_candidates] at hp ⊢
  exact visit_subset_of_fewer h _ _ _ hp

/-- Without a context, every enabled rule is a candidate. -/
theorem candidates_empty [Scalar α] (rules : List (Rule α)) (maxKeys : Nat) :
    (compile rules maxKeys).candidates ∅ = enabledPlaces rules := by
  refine eq_of_mem_iff (pairwise_candidates _ _) (pairwise_enabledPlaces _) fun place => ?_
  refine ⟨mem_enabledPlaces_of_mem_candidates, fun hp => ?_⟩
  obtain ⟨rule, hr, he⟩ := mem_enabledPlaces.mp hp
  exact mem_candidates_of_mayFit hr he (Rule.mayFit_empty rule) maxKeys

theorem mem_reachable {tree : DecisionTree} {place : Nat} :
    place ∈ tree.reachable ↔ ∃ node ∈ tree.nodes, place ∈ node.held := by
  simp [reachable, List.mem_flatMap]

/-- The leaves hold exactly the enabled rules. -/
theorem reachable_compile [Scalar α] (rules : List (Rule α)) (maxKeys : Nat) :
    (compile rules maxKeys).reachable = enabledPlaces rules := by
  refine eq_of_mem_iff (pairwise_ascendingPlaces _) (pairwise_enabledPlaces _) fun place => ?_
  rw [← candidates_empty rules maxKeys, mem_reachable]
  constructor
  · rintro ⟨node, hn, hp⟩
    rw [candidates_empty]
    by_cases he : enabledPlaces rules = []
    · simp [compile_of_none_enabled he] at hn
    · rw [compile_of_enabled he] at hn
      exact (allHeld_layOut _).1 _ _ _ (by simp [AllHeld, Node.held]) (holds_grow _ _ _ _)
        node hn place hp
  · intro hp
    obtain ⟨leaf, held, -, hl, hm⟩ := exists_leaf_of_mem_visit (mem_candidates.mp hp)
    exact ⟨_, Array.mem_of_getElem? hl, hm⟩

/-- The walk through a compiled tree finds, in ascending order and each once, enabled rules only,
and all of them that the context does not rule out. Each enabled rule lies in a leaf below the root,
and is found when nothing is known; forgetting keys of a context never loses a candidate. -/
theorem candidates_compile [Scalar α] (rules : List (Rule α)) (maxKeys : Nat) :
    (∀ context,
      ((compile rules maxKeys).candidates context).Pairwise (· < ·) ∧
      (∀ place ∈ (compile rules maxKeys).candidates context,
        ∃ rule, rules[place]? = some rule ∧ rule.enabled) ∧
      ∀ place rule, rules[place]? = some rule → rule.enabled → rule.MayFit context →
        place ∈ (compile rules maxKeys).candidates context) ∧
    (∀ place, place ∈ (compile rules maxKeys).candidates ∅ ↔
      ∃ rule, rules[place]? = some rule ∧ rule.enabled) ∧
    (∀ place, place ∈ (compile rules maxKeys).reachable ↔
      ∃ rule, rules[place]? = some rule ∧ rule.enabled) ∧
    (∀ place rule, rules[place]? = some rule → rule.enabled → ∃ leaf held,
      Relation.ReflTransGen (Child (compile rules maxKeys).nodes) 0 leaf ∧
        (compile rules maxKeys).nodes[leaf]? = some (.leaf held) ∧ place ∈ held) ∧
    ∀ context fewer : Context,
      (∀ key value, fewer.get? key = some value → context.get? key = some value) →
      (compile rules maxKeys).candidates context ⊆ (compile rules maxKeys).candidates fewer := by
  refine ⟨fun context => ⟨pairwise_candidates _ _, fun place hp => ?_, ?_⟩, fun place => ?_,
    fun place => ?_, fun place rule hr he => ?_, fun context fewer h => ?_⟩
  · exact mem_enabledPlaces.mp (mem_enabledPlaces_of_mem_candidates hp)
  · exact fun place rule hr he hm => mem_candidates_of_mayFit hr he hm maxKeys
  · rw [candidates_empty, mem_enabledPlaces]
  · rw [reachable_compile, mem_enabledPlaces]
  · have hp := mem_candidates_of_mayFit hr he rule.mayFit_empty maxKeys
    exact exists_leaf_of_mem_visit (mem_candidates.mp hp)
  · exact candidates_subset_of_fewer h _

/-- Of three rules, those for seven and for any hour are candidates at seven. -/
theorem candidates_compile_at_seven :
    let hourly (hour : String) : Rule Float :=
      { Rule.unconditional hour ⟨hour, "alarm", ""⟩ with conditions := [⟨"hour", .eq, hour⟩] }
    let rules := [hourly "6", hourly "7", Rule.unconditional "any" ⟨"any", "alarm", ""⟩]
    let context : Context := Dictionary.empty.insert "hour" "7"
    (hourly "7").MayFit context ∧ 1 ∈ (compile rules 5).candidates context ∧
      2 ∈ (compile rules 5).candidates context := by
  intro hourly rules context
  have hm : (hourly "7").MayFit context := by
    intro key required h
    by_cases hk : "hour" = key
    · obtain rfl : "7" = required := by simpa [hourly, Rule.fixed?, hk] using h
      exact .inr (hk ▸ rfl)
    · simp [hourly, Rule.fixed?, hk] at h
  have complete := ((candidates_compile rules 5).1 context).2.2
  exact ⟨hm, complete 1 _ rfl rfl hm, complete 2 _ rfl rfl fun key required h => by cases h⟩

end DecisionTree

end ContextAdvisor
