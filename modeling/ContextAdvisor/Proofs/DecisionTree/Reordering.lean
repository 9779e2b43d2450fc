import ContextAdvisor.Proofs.DecisionTree.Narrowing

/-!
# The walk through a reordered table

The growth of a tree looks at rules, never at their places: what it reads off some places is a
function of the rules that stand there, in any order. So in two tables with the same rules in
different order the walk is led to the same rules.
-/
namespace ContextAdvisor.DecisionTree

variable {α : Type}

/-- What stands at some places of a table. -/
def seen (rules : Array (Rule α)) (places : List Nat) : List (Option (Rule α)) :=
  places.map (rules[·]?)

/-- Does the rule, if there is one, leave the choice of a value for a key? -/
def accepts (key value : String) (rule : Option (Rule α)) : Bool :=
  match rule.bind (Rule.fixed? key) with
  | some required => required == value
  | none => true

section

variable (rules : Array (Rule α)) (places : List Nat)

theorem length_seen : (seen rules places).length = places.length := List.length_map _

theorem openKeys_eq (used : List String) : openKeys rules used places =
    ascendingTexts (((seen rules places).flatMap fun rule =>
      (rule.map Rule.fixedKeys).getD []).filter fun key => !used.contains key) := by
  rw [openKeys, seen, List.flatMap_map]

theorem length_fixing (key : String) :
    (places.filter fun place => (fixedAt? rules key place).isSome).length =
      ((seen rules places).filter fun rule => (rule.bind (Rule.fixed? key)).isSome).length := by
  rw [seen, List.filter_map, List.length_map]
  rfl

theorem filterMap_fixedAt? (key : String) : places.filterMap (fixedAt? rules key) =
    (seen rules places).filterMap (·.bind (Rule.fixed? key)) := by
  rw [seen, List.filterMap_map]
  rfl

theorem seen_compatible (key value : String) : seen rules (compatible rules key value places) =
    (seen rules places).filter (accepts key value) := by
  rw [seen, seen, List.filter_map]
  rfl

theorem seen_indifferent (key : String) : seen rules (indifferent rules key places) =
    (seen rules places).filter fun rule => (rule.bind (Rule.fixed? key)).isNone := by
  rw [seen, seen, List.filter_map]
  rfl

end

theorem ascendingTexts_congr {a b : List String} (h : a.Perm b) :
    ascendingTexts a = ascendingTexts b := by
  have hentries : Dictionary.ofList (a.map (·, ())) = Dictionary.ofList (b.map (·, ())) := by
    refine Dictionary.ext fun k => Option.ext fun _ => ?_
    have hkeys : k ∈ (Dictionary.ofList (a.map (·, ()))).keys ↔
        k ∈ (Dictionary.ofList (b.map (·, ()))).keys := by
      simpa using h.mem_iff
    rw [Dictionary.mem_keys, Dictionary.mem_keys, Option.isSome_iff_exists,
      Option.isSome_iff_exists] at hkeys
    simpa [Unique.exists_iff] using hkeys
  rw [ascendingTexts, ascendingTexts, hentries]

variable {rules other : Array (Rule α)} {places others : List Nat}

theorem openKeys_congr (h : (seen rules places).Perm (seen other others)) (used : List String) :
    openKeys rules used places = openKeys other used others := by
  rw [openKeys_eq, openKeys_eq]
  exact ascendingTexts_congr ((h.flatMap_right _).filter _)

variable [Scalar α]

theorem promise_congr (h : (seen rules places).Perm (seen other others)) :
    promise rules places = promise other others := by
  funext key
  have hlength : places.length = others.length := by
    rw [← length_seen rules, ← length_seen other, h.length_eq]
  simp only [promise, length_fixing, hlength, (h.filter _).length_eq]

theorem splitKey?_congr (h : (seen rules places).Perm (seen other others)) (used : List String) :
    splitKey? rules used places = splitKey? other used others := by
  simp only [splitKey?, openKeys_congr h, promise_congr h]

/-- If the same rules stand at the places of two tables, the same rules are left of them. -/
theorem seen_narrowed_perm (h : (seen rules places).Perm (seen other others)) (context : Context)
    (budget : Nat) (used : List String) :
    (seen rules (narrowed rules context budget used places)).Perm
      (seen other (narrowed other context budget used others)) := by
  induction budget generalizing used places others with
  | zero => exact h
  | succ budget ih =>
    have hlength : places.length = others.length := by
      rw [← length_seen rules, ← length_seen other, h.length_eq]
    simp only [narrowed, hlength, splitKey?_congr h]
    split_ifs
    · exact h
    cases splitKey? other used others with
    | none => exact h
    | some key =>
      have hbranch : ∀ value,
          (seen rules (narrowed rules context budget (key :: used)
            (compatible rules key value places))).Perm
          (seen other (narrowed other context budget (key :: used)
            (compatible other key value others))) := by
        intro value
        refine ih ?_ _
        rw [seen_compatible, seen_compatible]
        exact h.filter _
      have hfallback :
          (seen rules (narrowed rules context budget (key :: used)
            (indifferent rules key places))).Perm
          (seen other (narrowed other context budget (key :: used)
            (indifferent other key others))) := by
        refine ih ?_ _
        rw [seen_indifferent, seen_indifferent]
        exact h.filter _
      have hvalues : ascendingTexts (places.filterMap (fixedAt? rules key)) =
          ascendingTexts (others.filterMap (fixedAt? other key)) := by
        rw [filterMap_fixedAt?, filterMap_fixedAt?]
        exact ascendingTexts_congr (h.filterMap _)
      simp only [hvalues]
      cases context.get? key with
      | some value =>
        dsimp only
        split_ifs
        · exact hbranch value
        · exact hfallback
      | none =>
        dsimp only
        rw [seen, seen, List.map_append, List.map_append, List.map_flatMap, List.map_flatMap]
        exact (List.Perm.flatMap_left _ fun value _ => hbranch value).append hfallback

omit [Scalar α] in
theorem mem_seen {rules : List (Rule α)} {places : List Nat} {rule : Option (Rule α)} :
    rule ∈ seen rules.toArray places ↔ ∃ place ∈ places, rules[place]? = rule := by
  simp [seen]

omit [Scalar α] in
/-- If no rule is repeated, no rule is seen twice. -/
theorem nodup_seen {rules : List (Rule α)} {places : List Nat} (hn : rules.Nodup)
    (hp : places.Nodup) (hr : places ⊆ enabledPlaces rules) :
    (seen rules.toArray places).Nodup := by
  refine List.Nodup.map_on (fun i hi j _ hij => ?_) hp
  obtain ⟨rule, hrule, -⟩ := mem_enabledPlaces.mp (hr hi)
  obtain ⟨hlt, -⟩ := List.getElem?_eq_some_iff.mp hrule
  exact (List.getElem?_inj hlt hn).mp (by simpa using hij)

omit [Scalar α] in
/-- The same rules are enabled in a reordered table. -/
theorem seen_enabledPlaces_perm {rules other : List (Rule α)} (hn : rules.Nodup)
    (h : rules.Perm other) : (seen rules.toArray (enabledPlaces rules)).Perm
      (seen other.toArray (enabledPlaces other)) := by
  have hmem : ∀ (table : List (Rule α)) (rule : Option (Rule α)),
      rule ∈ seen table.toArray (enabledPlaces table) ↔
        ∃ r ∈ table, r.enabled ∧ rule = some r := by
    intro table rule
    simp only [mem_seen, mem_enabledPlaces, List.mem_iff_getElem? (l := table)]
    constructor
    · rintro ⟨place, ⟨r, hr, he⟩, rfl⟩
      exact ⟨r, ⟨place, hr⟩, he, hr⟩
    · rintro ⟨r, ⟨place, hr⟩, he, rfl⟩
      exact ⟨place, ⟨r, hr, he⟩, hr⟩
  refine (List.perm_ext_iff_of_nodup
    (nodup_seen hn ((pairwise_enabledPlaces _).imp ne_of_lt) (List.Subset.refl _))
    (nodup_seen (h.nodup_iff.mp hn) ((pairwise_enabledPlaces _).imp ne_of_lt)
      (List.Subset.refl _))).mpr fun rule => ?_
  simp only [hmem, h.mem_iff]

/-- The candidates of a reordered table are the same rules. -/
theorem seen_candidates_perm {rules other : List (Rule α)} (hn : rules.Nodup)
    (h : rules.Perm other) (maxKeys : Nat) (context : Context) :
    (seen rules.toArray ((compile rules maxKeys).candidates context)).Perm
      (seen other.toArray ((compile other maxKeys).candidates context)) := by
  have hmem : ∀ (table : List (Rule α)) (rule : Option (Rule α)),
      rule ∈ seen table.toArray ((compile table maxKeys).candidates context) ↔
        rule ∈ seen table.toArray
          (narrowed table.toArray context maxKeys [] (enabledPlaces table)) := by
    intro table rule
    simp only [mem_seen, mem_candidates_compile]
  have hnodup : ∀ table : List (Rule α), table.Nodup →
      (seen table.toArray ((compile table maxKeys).candidates context)).Nodup := fun table ht =>
    nodup_seen ht ((pairwise_candidates _ _).imp ne_of_lt)
      fun _ => mem_enabledPlaces_of_mem_candidates
  refine (List.perm_ext_iff_of_nodup (hnodup _ hn) (hnodup _ (h.nodup_iff.mp hn))).mpr
    fun rule => ?_
  rw [hmem, hmem]
  exact (seen_narrowed_perm (seen_enabledPlaces_perm hn h) _ _ _).mem_iff

end ContextAdvisor.DecisionTree
