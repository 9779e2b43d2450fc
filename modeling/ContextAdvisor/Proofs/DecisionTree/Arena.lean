import ContextAdvisor.Proofs.DecisionTree.WorkList

/-!
# The nodes of a compiled tree

While a tree is compiled, part of the array consists of placeholders. What holds of the array all
the same, round after round: every place but that of the root is referred to once, from a place
before it, and the values of each split ascend. The placeholders refer to nothing, and the pending
tasks are for different ones of them, so nothing that was made is made again.

Where the values of a split ascend, a search that halves the branches finds the branch of a value.
-/
namespace ContextAdvisor.DecisionTree

/-- Do the values of a split ascend? -/
def Node.Ascending : Node → Prop
  | leaf _ => True
  | split _ branches _ => ContextAdvisor.Ascending branches

/-- The references to children in an array. -/
def allChildren (nodes : Array Node) : List Nat := nodes.toList.flatMap Node.children

/-- A node that is made in place of one without children adds its references to the array. -/
theorem allChildren_withRoom {nodes : Array Node} {place : Nat} {held : List Nat}
    (h : nodes[place]? = some (.leaf held)) (count : Nat) (node : Node) :
    (allChildren (withRoom nodes count place node)).Perm (node.children ++ allChildren nodes) := by
  obtain ⟨hlt, here⟩ := List.getElem?_eq_some_iff.mp (by simpa using h : nodes.toList[place]? = _)
  have hroom : allChildren (withRoom nodes count place node) =
      (nodes.toList.set place node).flatMap Node.children := by
    simp [allChildren, withRoom, List.set_append_left _ _ hlt, Node.children]
  have hsplit : nodes.toList = nodes.toList.take place ++ .leaf held ::
      nodes.toList.drop (place + 1) := by
    rw [← here, List.getElem_cons_drop, List.take_append_drop]
  rw [hroom, List.set_eq_take_append_cons_drop, if_pos hlt, allChildren]
  conv_rhs => rw [hsplit]
  simp only [List.flatMap_append, List.flatMap_cons, Node.children, List.nil_append]
  exact List.perm_append_comm_assoc _ _ _

theorem getElem?_withRoom_new {nodes : Array Node} {place count i : Nat} (h : place < nodes.size)
    (hi : nodes.size ≤ i) (hc : i < nodes.size + count) (node : Node) :
    (withRoom nodes count place node)[i]? = some (.leaf []) := by
  rw [withRoom, Array.getElem?_setIfInBounds_ne (by omega), Array.getElem?_append_right hi]
  rw [Array.getElem?_replicate, if_pos (by omega)]

/-- A node of the longer array is the one that was made, an old one or a placeholder. -/
theorem getElem?_withRoom_cases {nodes : Array Node} {place count i : Nat} {node other : Node}
    (h : place < nodes.size) (ho : (withRoom nodes count place node)[i]? = some other) :
    i = place ∧ other = node ∨ nodes[i]? = some other ∨ other = .leaf [] := by
  have hi : i < nodes.size + count := by
    rw [← size_withRoom nodes count place node]
    exact (Array.getElem?_eq_some_iff.mp ho).1
  by_cases hplace : i = place
  · rw [hplace, getElem?_withRoom_self h] at ho
    exact .inl ⟨hplace, (Option.some.inj ho).symm⟩
  · by_cases hold : i < nodes.size
    · rw [getElem?_withRoom_ne hold hplace] at ho
      exact .inr (.inl ho)
    · rw [getElem?_withRoom_new h (not_lt.mp hold) hi] at ho
      exact .inr (.inr (Option.some.inj ho).symm)

theorem places_tasksFrom (first : Nat) (used : List String) (sets : List (List Nat)) :
    (tasksFrom first used sets).map Task.place = List.range' first sets.length := by
  induction sets generalizing first with
  | nil => rfl
  | cons set rest ih => simp [tasksFrom, ih, List.range'_succ]

variable {α : Type}

theorem ascending_zipIdx_ascendingTexts (texts : List String) (first : Nat) :
    Ascending ((ascendingTexts texts).zipIdx first) := by
  rw [Ascending, ← List.pairwise_map, List.zipIdx_map_fst, ascendingTexts, Dictionary.keys,
    List.pairwise_map]
  exact (Dictionary.ofList _).ascending

/-- A split refers to consecutive places, one for each set of rules that it leaves. -/
theorem children_splitNode (rules : Array (Rule α)) (key : String) (places : List Nat)
    (first : Nat) : (splitNode rules key places first).children =
      List.range' first (childRules rules key places).length := by
  simp only [splitNode, childRules, Node.children, List.zipIdx_map_snd, List.length_append,
    List.length_map]
  split_ifs
  · simp
  · simp [List.range'_concat]

variable [Scalar α]

namespace WorkList

/-- A round makes a node and adds tasks for its children, for which it makes room at the end. -/
theorem step_cons (rules : Array (Rule α)) (maxKeys : Nat) (nodes : Array Node) (task : Task)
    (rest : List Task) : ∃ node used sets, node.Ascending ∧
      node.children = List.range' nodes.size sets.length ∧
      step rules maxKeys ⟨nodes, task :: rest⟩ =
        ⟨withRoom nodes sets.length task.place node,
          (tasksFrom nodes.size used sets).reverse ++ rest⟩ := by
  rw [step]
  cases task.splitKey? rules maxKeys with
  | none =>
    refine ⟨.leaf task.rules, [], [], trivial, rfl, ?_⟩
    simp [withRoom, tasksFrom]
  | some key =>
    exact ⟨splitNode rules key task.rules nodes.size, key :: task.used,
      childRules rules key task.rules, ascending_zipIdx_ascendingTexts _ _,
      children_splitNode _ _ _ _, rfl⟩

/-- What holds of a work list from round to round. -/
structure Sound (w : WorkList) : Prop where
  referred : (allChildren w.nodes).Perm (List.range' 1 (w.nodes.size - 1))
  behind : ∀ (place : Nat) (node : Node), w.nodes[place]? = some node →
    ∀ child ∈ node.children, place < child
  ascending : ∀ node ∈ w.nodes, node.Ascending
  placeholder : ∀ task ∈ w.pending, w.nodes[task.place]? = some (.leaf [])
  distinct : (w.pending.map Task.place).Nodup

omit [Scalar α] in
theorem sound_start (rules : List (Rule α)) : (start rules).Sound := by
  unfold start
  split
  · exact ⟨by simp [allChildren], by simp, by simp, by simp, by simp⟩
  · refine ⟨by simp [allChildren, Node.children], fun place node h child hc => ?_, ?_, ?_, ?_⟩
    · rw [List.getElem?_toArray, List.getElem?_singleton] at h
      split_ifs at h
      obtain rfl := Option.some.inj h
      simp [Node.children] at hc
    · simp [Node.Ascending]
    · simp
    · simp

omit [Scalar α] in
theorem Sound.place_lt {w : WorkList} (h : w.Sound) {task : Task} (ht : task ∈ w.pending) :
    task.place < w.nodes.size :=
  (Array.getElem?_eq_some_iff.mp (h.placeholder task ht)).1

omit [Scalar α] in
/-- The node of the next task may be made, with tasks for children behind the end of the array. -/
theorem Sound.make {nodes : Array Node} {task : Task} {rest : List Task}
    (h : Sound ⟨nodes, task :: rest⟩) {node : Node} (hascending : node.Ascending)
    {sets : List (List Nat)} (hchildren : node.children = List.range' nodes.size sets.length)
    (used : List String) :
    Sound ⟨withRoom nodes sets.length task.place node,
      (tasksFrom nodes.size used sets).reverse ++ rest⟩ where
  referred := by
    -- the new references go on where the old ones ended
    have hplace : task.place < nodes.size := h.place_lt List.mem_cons_self
    have hrange : List.range' 1 (nodes.size + sets.length - 1) =
        List.range' 1 (nodes.size - 1) ++ List.range' nodes.size sets.length := by
      have hone : 1 + (nodes.size - 1) = nodes.size := by omega
      have hall : nodes.size + sets.length - 1 = nodes.size - 1 + sets.length := by omega
      rw [hall, ← List.range'_append_1, hone]
    rw [size_withRoom, hrange]
    refine (allChildren_withRoom (h.placeholder task List.mem_cons_self) _ _).trans ?_
    rw [hchildren]
    exact (h.referred.append_left _).trans List.perm_append_comm
  behind place other hother child hc := by
    have hplace : task.place < nodes.size := h.place_lt List.mem_cons_self
    rcases getElem?_withRoom_cases hplace hother with ⟨rfl, rfl⟩ | hold | rfl
    · rw [hchildren, List.mem_range'_1] at hc
      omega
    · exact h.behind place other hold child hc
    · simp [Node.children] at hc
  ascending other hother := by
    obtain ⟨i, hi⟩ := Array.mem_iff_getElem?.mp hother
    rcases getElem?_withRoom_cases (h.place_lt List.mem_cons_self) hi with ⟨-, rfl⟩ | hold | rfl
    · exact hascending
    · exact h.ascending other (Array.mem_of_getElem? hold)
    · trivial
  placeholder t ht := by
    rcases List.mem_append.mp ht with hnew | hold
    · have hrange := List.mem_map_of_mem (f := Task.place) (List.mem_reverse.mp hnew)
      rw [places_tasksFrom, List.mem_range'_1] at hrange
      exact getElem?_withRoom_new (h.place_lt List.mem_cons_self) hrange.1 hrange.2 node
    · have hfresh := (List.nodup_cons.mp h.distinct).1
      have hne : t.place ≠ task.place := fun he =>
        hfresh (he ▸ List.mem_map_of_mem (f := Task.place) hold)
      rw [getElem?_withRoom_ne (h.place_lt (List.mem_cons_of_mem _ hold)) hne]
      exact h.placeholder t (List.mem_cons_of_mem _ hold)
  distinct := by
    rw [List.map_append, List.map_reverse, places_tasksFrom]
    refine List.Nodup.append (List.nodup_reverse.mpr List.nodup_range')
      (List.nodup_cons.mp h.distinct).2 fun i hnew hold => ?_
    obtain ⟨t, ht, rfl⟩ := List.mem_map.mp hold
    have hpast : t.place < nodes.size := h.place_lt (List.mem_cons_of_mem _ ht)
    rw [List.mem_reverse, List.mem_range'_1] at hnew
    omega

theorem Sound.step {w : WorkList} (h : w.Sound) (rules : Array (Rule α)) (maxKeys : Nat) :
    (w.step rules maxKeys).Sound := by
  obtain ⟨nodes, - | ⟨task, rest⟩⟩ := w
  · exact h
  · obtain ⟨node, used, sets, hascending, hchildren, hstep⟩ :=
      step_cons rules maxKeys nodes task rest
    rw [hstep]
    exact h.make hascending hchildren used

theorem sound_iterate (rules : List (Rule α)) (maxKeys rounds : Nat) :
    ((WorkList.step rules.toArray maxKeys)^[rounds] (start rules)).Sound := by
  induction rounds with
  | zero => exact sound_start rules
  | succ rounds ih =>
    rw [Function.iterate_succ_apply']
    exact ih.step _ _

end WorkList

/-- Every place but that of the root is referred to by one node, once, which lies before it, and the
values of each split ascend. -/
structure WellFormed (nodes : Array Node) : Prop where
  inRange : ∀ parent child, Child nodes parent child → child < nodes.size
  behind : ∀ parent child, Child nodes parent child → parent < child
  oneParent : ∀ child, 0 < child → child < nodes.size → ∃! parent, Child nodes parent child
  once : ∀ node ∈ nodes, node.children.Nodup
  ascending : ∀ node ∈ nodes, node.Ascending

omit [Scalar α] in
theorem mem_allChildren {nodes : Array Node} {child : Nat} :
    child ∈ allChildren nodes ↔ ∃ parent, Child nodes parent child := by
  simp only [allChildren, List.mem_flatMap, Array.mem_toList_iff, Array.mem_iff_getElem?, Child]
  constructor
  · rintro ⟨node, ⟨parent, hn⟩, hc⟩
    exact ⟨parent, node, hn, hc⟩
  · rintro ⟨parent, node, hn, hc⟩
    exact ⟨node, ⟨parent, hn⟩, hc⟩

theorem WorkList.Sound.wellFormed {w : WorkList} (h : w.Sound) : WellFormed w.nodes := by
  have hmem : ∀ child, (∃ parent, Child w.nodes parent child) ↔
      0 < child ∧ child < w.nodes.size := by
    intro child
    rw [← mem_allChildren, h.referred.mem_iff, List.mem_range'_1]
    omega
  have hnodup : (allChildren w.nodes).Nodup := h.referred.nodup_iff.mpr List.nodup_range'
  obtain ⟨honce, hapart⟩ := List.nodup_flatMap.mp hnodup
  have hunique : ∀ child p q, p < q → Child w.nodes p child → ¬ Child w.nodes q child := by
    rintro child p q hlt ⟨a, ha, hca⟩ ⟨b, hb, hcb⟩
    obtain ⟨hp, rfl⟩ := Array.getElem?_eq_some_iff.mp ha
    obtain ⟨hq, rfl⟩ := Array.getElem?_eq_some_iff.mp hb
    exact List.pairwise_iff_getElem.mp hapart p q (by simpa using hp) (by simpa using hq) hlt
      (by simpa using hca) (by simpa using hcb)
  refine ⟨fun parent child hc => ((hmem child).mp ⟨parent, hc⟩).2, ?_, ?_,
    fun node hn => honce node (Array.mem_toList_iff.mpr hn), h.ascending⟩
  · rintro parent child ⟨node, hn, hc⟩
    exact h.behind parent node hn child hc
  · intro child hpos hlt
    obtain ⟨parent, hparent⟩ := (hmem child).mpr ⟨hpos, hlt⟩
    refine ⟨parent, hparent, fun other hother => ?_⟩
    rcases lt_trichotomy other parent with hl | he | hl
    · exact absurd hparent (hunique child other parent hl hother)
    · exact he
    · exact absurd hother (hunique child parent other hl hparent)

theorem wellFormed_compile (rules : List (Rule α)) (maxKeys : Nat) :
    WellFormed (compile rules maxKeys).nodes := by
  have h := WorkList.sound_iterate rules maxKeys (compile rules maxKeys).size
  rw [WorkList.iterate_step_start] at h
  exact h.wellFormed

/-- The child for a value by halving: `size` branches from `base` on are left. -/
def bisect (branches : List (String × Nat)) (value : String) (base size : Nat) : Option Nat :=
  if size ≤ 1 then (branches[base]?.filter (·.1 = value)).map (·.2)
  else
    let middle := base + size / 2
    bisect branches value (if branches[middle]?.any (value < ·.1) then base else middle)
      (size - size / 2)
termination_by size
decreasing_by omega

omit [Scalar α] in
theorem mem_of_bisect {branches : List (String × Nat)} {value : String} {base size child : Nat}
    (h : bisect branches value base size = some child) : (value, child) ∈ branches := by
  fun_induction bisect branches value base size with
  | case1 base size hsize =>
    obtain ⟨⟨v, c⟩, hfound, rfl⟩ := Option.map_eq_some_iff.mp h
    obtain ⟨hentry, hv⟩ := Option.filter_eq_some_iff.mp hfound
    obtain rfl : v = value := of_decide_eq_true hv
    exact List.mem_of_getElem? hentry
  | case2 base size hsize middle ih => exact ih h

omit [Scalar α] in
/-- What lies among the branches that are left is found, if they ascend. -/
theorem bisect_of_getElem? {branches : List (String × Nat)} {value : String}
    {base size i child : Nat} (hasc : Ascending branches) (hend : base + size ≤ branches.length)
    (hi : branches[i]? = some (value, child)) (hbase : base ≤ i) (hlt : i < base + size) :
    bisect branches value base size = some child := by
  fun_induction bisect branches value base size with
  | case1 base size hone =>
    obtain rfl : base = i := by omega
    simp [hi]
  | case2 base size hmore middle ih =>
    obtain ⟨hil, hvalue⟩ := List.getElem?_eq_some_iff.mp hi
    have hmiddle : middle < branches.length := by omega
    -- the values ascend, so the one in the middle tells on which side the branch lies
    have hside : branches[middle]?.any (value < ·.1) = true ↔ i < middle := by
      rw [List.getElem?_eq_getElem hmiddle, Option.any_some, decide_eq_true_eq]
      refine ⟨fun hless => ?_, fun him => ?_⟩
      · by_contra hge
        rcases (not_lt.mp hge).eq_or_lt with he | hgt
        · simp only [he, hvalue] at hless
          exact String.lt_irrefl _ hless
        · have := List.pairwise_iff_getElem.mp hasc _ _ hmiddle hil hgt
          rw [hvalue] at this
          exact String.lt_irrefl _ (String.lt_trans hless this)
      · have := List.pairwise_iff_getElem.mp hasc _ _ hil hmiddle him
        rwa [hvalue] at this
    split_ifs at ih ⊢ with hless
    · have him := hside.mp hless
      exact ih (by omega) hbase (by omega)
    · have him := mt hside.mpr hless
      exact ih (by omega) (by omega) (by omega)

omit [Scalar α] in
/-- Among ascending branches, the search by halving finds what a search from the front finds. -/
theorem bisect_eq_lookup {branches : List (String × Nat)} (h : Ascending branches)
    (value : String) : bisect branches value 0 branches.length = branches.lookup value := by
  refine Option.ext fun child => ⟨fun hfound => ?_, fun hfound => ?_⟩
  · exact Dictionary.lookup_of_mem (Dictionary.nodup_of_ascending h) (mem_of_bisect hfound)
  · obtain ⟨i, hi⟩ := List.mem_iff_getElem?.mp (Dictionary.mem_of_lookup hfound)
    have hlt := (List.getElem?_eq_some_iff.mp hi).1
    exact bisect_of_getElem? h (by omega) hi (Nat.zero_le i) (by omega)

end ContextAdvisor.DecisionTree
