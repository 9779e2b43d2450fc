import ContextAdvisor.Proofs.Arithmetic.Exact
import ContextAdvisor.Proofs.Engine.Report

/-!
# The order of results

The best results of each identity are kept in the order of the identities, and the sort by weight is
stable. So a ranking holds no identity twice, and in exact arithmetic its order is that of
descending weights, with equal weights in the order of their identities. If no identity is repeated
from the start, the ranking does not depend on the order in which the results come.
-/
namespace ContextAdvisor.ScoredRule

section

variable {α : Type} [Scalar α] {results others : List (ScoredRule α)}

/-- The best results of each identity, in the order of the identities. -/
def bestOf (results : List (ScoredRule α)) : List (ScoredRule α) :=
  (results.foldl addBest ∅).entries.map (·.2)

/-- Are all entries filed under the identities of their rules? -/
def Filed (best : Dictionary (ScoredRule α)) : Prop := ∀ e ∈ best.entries, e.1 = e.2.rule.id

theorem Filed.addBest {best : Dictionary (ScoredRule α)} (h : Filed best) (s : ScoredRule α) :
    Filed (addBest best s) := by
  have hinsert : Filed (best.insert s.rule.id s) := by
    intro e he
    rcases Dictionary.fst_mem_insertEntry he with rfl | he
    · rfl
    · exact h e he
  unfold ScoredRule.addBest
  split
  · split_ifs
    · exact hinsert
    · exact h
  · exact hinsert

theorem filed_foldl_addBest (results : List (ScoredRule α)) : Filed (results.foldl addBest ∅) := by
  refine List.foldlRecOn results addBest (fun e he => ?_) fun best h s _ => h.addBest s
  simp [EmptyCollection.emptyCollection, Dictionary.empty] at he

theorem pairwise_bestOf (results : List (ScoredRule α)) :
    (bestOf results).Pairwise fun a b => a.rule.id < b.rule.id := by
  have hkeys := filed_foldl_addBest results
  refine List.pairwise_map.mpr ((results.foldl addBest ∅).ascending.imp_of_mem ?_)
  intro p q hp hq h
  rwa [hkeys p hp, hkeys q hq] at h

theorem nodup_bestOf (results : List (ScoredRule α)) :
    ((bestOf results).map (·.rule.id)).Nodup :=
  List.pairwise_map.mpr ((pairwise_bestOf results).imp String.ne_of_lt)

theorem nodup_ids_ranking (results : List (ScoredRule α)) :
    ((ranking results).map (·.rule.id)).Nodup :=
  ((List.mergeSort_perm _ _).map _).nodup_iff.mpr (nodup_bestOf results)

/-- The better of the best result so far, if there is one, and another one. -/
def better (held : Option (ScoredRule α)) (s : ScoredRule α) : ScoredRule α :=
  match held with
  | some held => if held.confidence < s.confidence then s else held
  | none => s

theorem get?_addBest (best : Dictionary (ScoredRule α)) (s : ScoredRule α) (id : String) :
    (addBest best s).get? id =
      if id = s.rule.id then some (better (best.get? s.rule.id) s) else best.get? id := by
  unfold addBest better
  cases hs : best.get? s.rule.id with
  | none => simp
  | some held =>
    dsimp only
    by_cases hid : id = s.rule.id
    · split_ifs <;> simp [hid, hs]
    · split_ifs <;> simp [hid]

/-- Results with different identities do not meet. -/
theorem addBest_comm {a b : ScoredRule α} (h : a.rule.id ≠ b.rule.id)
    (best : Dictionary (ScoredRule α)) :
    addBest (addBest best a) b = addBest (addBest best b) a := by
  refine Dictionary.ext fun id => ?_
  simp only [get?_addBest, if_neg h, if_neg h.symm]
  split_ifs with hb ha
  · exact absurd (ha.symm.trans hb) h
  all_goals rfl

/-- If no identity is repeated, the ranking does not depend on the order of the results. -/
theorem ranking_congr (h : results.Perm others) (hn : (results.map (·.rule.id)).Nodup) :
    ranking results = ranking others := by
  have hbest : results.foldl addBest ∅ = others.foldl addBest ∅ := by
    refine h.foldl_eq' (fun a ha b hb best => ?_) ∅
    by_cases hid : a.rule.id = b.rule.id
    · rw [List.inj_on_of_nodup_map hn ha hb hid]
    · exact addBest_comm hid best
  rw [ranking, hbest, ranking]

end

section

variable {K : Type} [Field K] [LinearOrder K]

theorem precedes_iff {a b : ScoredRule K} : a.precedes b ↔ b.weight ≤ a.weight := by
  rw [precedes, Scalar.exact_order, Ordering.isLE_iff_ne_gt]
  exact compare_le_iff_le

theorem precedes_trans (a b c : ScoredRule K) (hab : a.precedes b) (hbc : b.precedes c) :
    a.precedes c := by
  rw [precedes_iff] at *
  exact hbc.trans hab

theorem precedes_total (a b : ScoredRule K) : a.precedes b || b.precedes a := by
  rw [Bool.or_eq_true, precedes_iff, precedes_iff]
  exact le_total _ _

/-- Two members of a list without repetitions come in one order only. -/
theorem not_sublist_swap {β : Type} {xs : List β} {a b : β} (hn : xs.Nodup)
    (h : [a, b].Sublist xs) : ¬ [b, a].Sublist xs := by
  obtain ⟨front, back, rfl, ha, hb⟩ := List.cons_sublist_iff.mp h
  rw [List.singleton_sublist] at hb
  have hdisjoint := List.disjoint_of_nodup_append hn
  intro hswap
  obtain ⟨first, second, heq, hfirst, hsecond⟩ := List.sublist_append_iff.mp hswap
  cases first with
  | nil =>
    obtain rfl : [b, a] = second := heq
    exact hdisjoint ha (hsecond.subset (by simp))
  | cons c rest =>
    obtain ⟨rfl, -⟩ := List.cons.inj heq
    exact hdisjoint (hfirst.subset List.mem_cons_self) hb

/-- Two members of an ordered list that are not in order one way come the other way. -/
theorem sublist_of_not_rel {β : Type} {r : β → β → Prop} {xs : List β} {a b : β}
    (h : xs.Pairwise r) (ha : a ∈ xs) (hb : b ∈ xs) (hne : a ≠ b) (hr : ¬ r a b) :
    [b, a].Sublist xs := by
  obtain ⟨front, back, rfl⟩ := List.append_of_mem hb
  rcases List.mem_append.mp ha with ha | ha
  · exact absurd ((List.pairwise_append.mp h).2.2 a ha b List.mem_cons_self) hr
  · have hback := (List.mem_cons.mp ha).resolve_left hne
    exact ((List.singleton_sublist.mpr hback).cons_cons b).trans (List.sublist_append_right _ _)

/-- A ranking descends by weight, and ascends by identity where weights are equal. -/
theorem pairwise_ranking (results : List (ScoredRule K)) :
    (ranking results).Pairwise fun a b =>
      b.weight < a.weight ∨ b.weight = a.weight ∧ a.rule.id < b.rule.id := by
  have hnodup : (ranking results).Nodup := List.Nodup.of_map _ (nodup_ids_ranking results)
  rw [List.pairwise_iff_forall_sublist]
  intro a b hab
  have hle : b.weight ≤ a.weight := precedes_iff.mp
    (List.pairwise_iff_forall_sublist.mp
      (List.pairwise_mergeSort precedes_trans precedes_total _) hab)
  refine hle.lt_or_eq.imp_right fun heq => ⟨heq, ?_⟩
  -- of equal weights, the one with the lesser identity came first and stays first
  by_contra hid
  have hne : a ≠ b := by
    rintro rfl
    exact not_sublist_swap hnodup hab hab
  have hmem : ∀ s ∈ [a, b], s ∈ bestOf results := fun s hs =>
    (List.mergeSort_perm _ _).mem_iff.mp (hab.subset hs)
  have hba : [b, a].Sublist (bestOf results) :=
    sublist_of_not_rel (pairwise_bestOf results) (hmem a (by simp)) (hmem b (by simp)) hne hid
  exact not_sublist_swap hnodup hab
    (List.pair_sublist_mergeSort precedes_trans precedes_total (precedes_iff.mpr heq.ge) hba)

end

end ContextAdvisor.ScoredRule
