import ContextAdvisor.Proofs.DecisionTree.Candidates

/-!
# Compiling with a work list

A tree can be compiled without nested data: a list of pending tasks says for which places of the
array a node is still to be made, and from which rules. A round takes the task that was added last.
It makes a leaf, or a split with tasks for its children, for which there are placeholders until
then.

Each round leaves one more node that is made, whatever it adds. The rounds end after as many of them
as the compiled tree has nodes, and what they leave is the compiled tree.
-/
namespace ContextAdvisor.DecisionTree

variable {α : Type}

/-- A node that is still to be made: its place, its rules, and the keys tested above it. -/
structure Task where
  place : Nat
  rules : List Nat
  used : List String
  deriving DecidableEq

/-- The array so far, and the pending tasks with the next one first. -/
structure WorkList where
  nodes : Array Node
  pending : List Task
  deriving DecidableEq

/-- Tasks for consecutive places from `first` on. -/
def tasksFrom (first : Nat) (used : List String) : List (List Nat) → List Task
  | [] => []
  | rules :: rest => ⟨first, rules, used⟩ :: tasksFrom (first + 1) used rest

/-- The rules of the children of a split, branches before the default. -/
def childRules (rules : Array (Rule α)) (key : String) (places : List Nat) : List (List Nat) :=
  (ascendingTexts (places.filterMap (fixedAt? rules key))).map
      (fun value => compatible rules key value places) ++
    if (indifferent rules key places).isEmpty then [] else [indifferent rules key places]

/-- The split by a key, with children from `first` on. -/
def splitNode (rules : Array (Rule α)) (key : String) (places : List Nat) (first : Nat) : Node :=
  let values := ascendingTexts (places.filterMap (fixedAt? rules key))
  .split key (values.zipIdx first)
    (if (indifferent rules key places).isEmpty then none else some (first + values.length))

/-- The key by which the rules of a task are split, if they are. -/
def Task.splitKey? [Scalar α] (rules : Array (Rule α)) (maxKeys : Nat) (task : Task) :
    Option String :=
  if task.rules.length ≤ leafSize ∨ maxKeys ≤ task.used.length then none
  else DecisionTree.splitKey? rules task.used task.rules

namespace WorkList

/-- The root is to be made from the enabled rules, if there are any. -/
def start (rules : List (Rule α)) : WorkList :=
  match enabledPlaces rules with
  | [] => ⟨#[], []⟩
  | places => ⟨#[.leaf []], [⟨0, places, []⟩]⟩

/-- One round. -/
def step [Scalar α] (rules : Array (Rule α)) (maxKeys : Nat) : WorkList → WorkList
  | ⟨nodes, []⟩ => ⟨nodes, []⟩
  | ⟨nodes, task :: rest⟩ =>
    match task.splitKey? rules maxKeys with
    | none => ⟨nodes.setIfInBounds task.place (.leaf task.rules), rest⟩
    | some key =>
      let children := childRules rules key task.rules
      ⟨withRoom nodes children.length task.place (splitNode rules key task.rules nodes.size),
        (tasksFrom nodes.size (key :: task.used) children).reverse ++ rest⟩

end WorkList

theorem length_tasksFrom (first : Nat) (used : List String) (sets : List (List Nat)) :
    (tasksFrom first used sets).length = sets.length := by
  induction sets generalizing first with
  | nil => rfl
  | cons set rest ih => simp [tasksFrom, ih]

theorem tasksFrom_append (first : Nat) (used : List String) (sets others : List (List Nat)) :
    tasksFrom first used (sets ++ others) =
      tasksFrom first used sets ++ tasksFrom (first + sets.length) used others := by
  induction sets generalizing first with
  | nil => rfl
  | cons set rest ih =>
    have hfirst : first + 1 + rest.length = first + (rest.length + 1) := by omega
    simp [tasksFrom, ih, hfirst]

theorem references_eq_zipIdx (first : Nat) (branches : List (String × Growth)) :
    references first branches = (branches.map (·.1)).zipIdx first := by
  induction branches generalizing first with
  | nil => rfl
  | cons branch rest ih => simp [references, ih]

variable [Scalar α] {rules : Array (Rule α)} {maxKeys : Nat}

/-- The references of a split are those to the branches of its tree. -/
theorem splitNode_eq (budget : Nat) (used : List String) (places : List Nat) (key : String)
    (first : Nat) : splitNode rules key places first =
      .split key (references first (branchesOf rules budget used places key))
        (if (indifferent rules key places).isEmpty then none
          else some (first + (branchesOf rules budget used places key).length)) := by
  simp only [splitNode, references_eq_zipIdx, branchesOf, List.map_map, List.length_map,
    Function.comp_def, List.map_id']

/-- With a budget left, the tree of a task is a split exactly if the task has a key to split by. -/
theorem grow_succ {used : List String} (h : used.length < maxKeys) (budget place : Nat)
    (places : List Nat) : grow rules (budget + 1) used places =
      match Task.splitKey? rules maxKeys ⟨place, places, used⟩ with
      | none => .leaf places
      | some key =>
        .split key (branchesOf rules budget used places key)
          (fallbackOf rules budget used places key) := by
  simp only [grow, Task.splitKey?, not_le.mpr h, or_false]
  split_ifs
  · rfl
  · cases splitKey? rules used places <;> rfl

namespace WorkList

/-- Some rounds lead from one work list to another. Their number is that of the nodes that they add
and of the tasks that they take away. -/
def Reaches (rules : Array (Rule α)) (maxKeys : Nat) (a b : WorkList) : Prop :=
  ∃ rounds, (step rules maxKeys)^[rounds] a = b ∧
    rounds + a.nodes.size + b.pending.length = b.nodes.size + a.pending.length

theorem Reaches.refl (a : WorkList) : Reaches rules maxKeys a a := ⟨0, rfl, by omega⟩

theorem Reaches.trans {a b c : WorkList} (hab : Reaches rules maxKeys a b)
    (hbc : Reaches rules maxKeys b c) : Reaches rules maxKeys a c := by
  obtain ⟨first, rfl, hfirst⟩ := hab
  obtain ⟨second, rfl, hsecond⟩ := hbc
  exact ⟨second + first, Function.iterate_add_apply _ _ _ _, by omega⟩

/-- A round makes one node and replaces one task by those of its children. -/
theorem reaches_step (nodes : Array Node) (task : Task) (rest : List Task) :
    Reaches rules maxKeys ⟨nodes, task :: rest⟩ (step rules maxKeys ⟨nodes, task :: rest⟩) := by
  refine ⟨1, rfl, ?_⟩
  rw [step]
  cases task.splitKey? rules maxKeys with
  | none =>
    simp only [Array.size_setIfInBounds, List.length_cons]
    omega
  | some key =>
    simp only [size_withRoom, List.length_append, List.length_reverse, length_tasksFrom,
      List.length_cons]
    omega

/-- The rounds for the children of a split make them one by one, the last one first, if the rounds
for each of them make its tree. -/
theorem reaches_children {used : List String} {branches : List (String × Growth)}
    {sets : List (List Nat)} (h : List.Forall₂ (fun branch set => ∀ nodes place rest,
      Reaches rules maxKeys ⟨nodes, ⟨place, set, used⟩ :: rest⟩
        ⟨layOut nodes place branch.2, rest⟩) branches sets)
    (nodes : Array Node) (first : Nat) (rest : List Task) :
    Reaches rules maxKeys ⟨nodes, (tasksFrom first used sets).reverse ++ rest⟩
      ⟨layOutBranches nodes first branches, rest⟩ := by
  induction h generalizing first rest with
  | nil => exact .refl _
  | @cons branch set branches sets hbranch _ ih =>
    rw [tasksFrom, List.reverse_cons, List.append_assoc, List.singleton_append]
    exact (ih (first + 1) _).trans (hbranch _ _ _)

/-- The rounds for a task make its tree. -/
theorem reaches_layOut {budget : Nat} {used : List String} (places : List Nat)
    (h : used.length + budget = maxKeys) (nodes : Array Node) (place : Nat) (rest : List Task) :
    Reaches rules maxKeys ⟨nodes, ⟨place, places, used⟩ :: rest⟩
      ⟨layOut nodes place (grow rules budget used places), rest⟩ := by
  induction budget generalizing used places nodes place rest with
  | zero =>
    refine (reaches_step _ _ _).trans ?_
    have hused : maxKeys ≤ used.length := by omega
    simpa [step, Task.splitKey?, hused, grow, layOut] using Reaches.refl _
  | succ budget ih =>
    refine (reaches_step _ _ _).trans ?_
    have hused : used.length < maxKeys := by omega
    rw [grow_succ hused budget place places, step]
    cases Task.splitKey? rules maxKeys ⟨place, places, used⟩ with
    | none => exact .refl _
    | some key =>
      have hbudget : (key :: used).length + budget = maxKeys := by
        rw [List.length_cons]
        omega
      have hbranches : List.Forall₂ (fun branch set => ∀ nodes place rest,
          Reaches rules maxKeys ⟨nodes, ⟨place, set, key :: used⟩ :: rest⟩
            ⟨layOut nodes place branch.2, rest⟩)
          (branchesOf rules budget used places key)
          ((ascendingTexts (places.filterMap (fixedAt? rules key))).map
            fun value => compatible rules key value places) := by
        rw [branchesOf, List.forall₂_map_left_iff, List.forall₂_map_right_iff, List.forall₂_same]
        exact fun value _ => ih _ hbudget
      have hlength := hbranches.length_eq
      have hchildren := reaches_children hbranches
      simp only [splitNode_eq budget used, childRules, fallbackOf]
      split_ifs with hopen
      · rw [List.append_nil, layOut, ← hlength]
        exact hchildren _ _ _
      · -- the task of the default was added last, so it comes first
        rw [layOut, List.length_append, ← hlength, tasksFrom_append, ← hlength, List.reverse_append,
          List.append_assoc]
        exact (ih _ hbudget _ _ _).trans (hchildren _ _ _)

/-- The rounds end after as many of them as the compiled tree has nodes, and make this tree. -/
theorem iterate_step_start (rules : List (Rule α)) (maxKeys : Nat) :
    (step rules.toArray maxKeys)^[(compile rules maxKeys).size] (start rules) =
      ⟨(compile rules maxKeys).nodes, []⟩ := by
  by_cases he : enabledPlaces rules = []
  · simp [compile_of_none_enabled he, size, start, he]
  · have hreach : Reaches rules.toArray maxKeys
        ⟨#[.leaf []], [⟨0, enabledPlaces rules, []⟩]⟩
        ⟨layOut #[.leaf []] 0 (grow rules.toArray maxKeys [] (enabledPlaces rules)), []⟩ :=
      reaches_layOut _ (Nat.zero_add maxKeys) _ _ _
    obtain ⟨rounds, hrounds, hcount⟩ := hreach
    have hstart : start rules = ⟨#[.leaf []], [⟨0, enabledPlaces rules, []⟩]⟩ := by
      unfold start
      cases hp : enabledPlaces rules with
      | nil => exact absurd hp he
      | cons => rfl
    rw [compile_of_enabled he, hstart, size]
    obtain rfl : rounds = (layOut #[.leaf []] 0
        (grow rules.toArray maxKeys [] (enabledPlaces rules))).size := by
      simp only [List.size_toArray, List.length_cons, List.length_nil] at hcount
      omega
    exact hrounds

end WorkList

end ContextAdvisor.DecisionTree
