import ContextAdvisor.Proofs.DecisionTree.Reordering
import ContextAdvisor.Proofs.Engine.Admission
import ContextAdvisor.Proofs.Engine.Ranking

/-!
# Evaluation and the order of the table

The rules may come in any order: the walk leads to the same rules, the limiter lets the same of them
pass and is left the same, and the ranking puts them in the same order. A limit on the number of
results only cuts the list of all results off.
-/
namespace ContextAdvisor

/-- May a result stand before another one? It has more confidence times priority, or as much of it
and a lesser identity. -/
def RuleMatch.Before {α : Type} [Scalar α] (rules : List (Rule α)) (a b : RuleMatch α) : Prop :=
  ∀ rule ∈ rules, rule.id = a.ruleId → ∀ other ∈ rules, other.id = b.ruleId →
    b.confidence * other.priority < a.confidence * rule.priority ∨
      b.confidence * other.priority = a.confidence * rule.priority ∧ a.ruleId < b.ruleId

namespace Engine

open DecisionTree

section

variable {α : Type} [Scalar α] {engine : Engine α} {rules other : List (Rule α)} {maxKeys : Nat}
  {context : Context}

/-- The engine with another table of rules. -/
def withRules (engine : Engine α) (maxKeys : Nat) (rules : List (Rule α)) : Engine α :=
  { engine with table := .ofRules maxKeys rules }

theorem scored_eq (engine : Engine α) (context : Context) : engine.scored context =
    (seen engine.table.rules.toArray (engine.table.tree.candidates context)).filterMap
      (·.bind (engine.score? context)) := by
  rw [scored, seen, List.filterMap_map]
  exact List.filterMap_congr fun place _ => by simp

/-- In a reordered table the same rules score. -/
theorem scored_perm (hn : rules.Nodup) (h : rules.Perm other) :
    ((engine.withRules maxKeys rules).scored context).Perm
      ((engine.withRules maxKeys other).scored context) := by
  rw [scored_eq, scored_eq]
  exact (seen_candidates_perm hn h maxKeys context).filterMap _

/-- A scored rule has the identity of the rule that was scored. -/
theorem rule_of_score? {rule : Rule α} {s : ScoredRule α}
    (h : engine.score? context rule = some s) :
    s.rule = rule := by
  simp only [score?] at h
  split_ifs at h
  obtain rfl := Option.some.inj h
  rfl

/-- No identity scores twice, if the table holds none twice. -/
theorem nodup_ids_scored (hn : (rules.map (·.id)).Nodup) :
    (((engine.withRules maxKeys rules).scored context).map (·.rule.id)).Nodup := by
  have hid : ∀ (i : Nat) (s : ScoredRule α),
      (rules[i]?.bind ((engine.withRules maxKeys rules).score? context)) = some s →
        (rules.map (·.id))[i]? = some s.rule.id := by
    intro i s hs
    obtain ⟨rule, hrule, hs⟩ := Option.bind_eq_some_iff.mp hs
    rw [List.getElem?_map, hrule, rule_of_score? hs]
    rfl
  refine List.pairwise_map.mpr (List.Pairwise.filterMap _ (fun i j hij s hs t ht => ?_)
    (pairwise_candidates _ _))
  have hi := hid i s hs
  obtain ⟨hlt, -⟩ := List.getElem?_eq_some_iff.mp hi
  intro hsame
  rw [hsame, ← hid j t ht] at hi
  exact hij.ne ((List.getElem?_inj hlt hn).mp hi)

/-- A report does not depend on the order of the scored rules. -/
theorem report_congr {first second : Engine α} {scored others : List (ScoredRule α)}
    (hlimiter : first.limiter = second.limiter) (hclock : first.clock = second.clock)
    (h : scored.Perm others) (hn : (scored.map (·.rule.id)).Nodup) (limit : Option Nat) :
    (first.report scored limit).1 = (second.report others limit).1 ∧
      (first.report scored limit).2.limiter = (second.report others limit).2.limiter := by
  obtain ⟨hpassed, hasked⟩ := ScoredRule.admitted_perm h first.limiter first.clock
  have hpassedn := ((ScoredRule.admitted_sublist first.limiter first.clock scored).map
    (·.rule.id)).nodup hn
  have hranked := ScoredRule.ranking_congr hpassed hpassedn
  simp only [report, ← hlimiter, ← hclock, hranked, hasked, and_self]

/-- With a limit, an evaluation reports the first of all results and leaves the same engine. -/
theorem evaluate_some (engine : Engine α) (context : Context) {n : Nat} (hn : 1 ≤ n) :
    engine.evaluate context (some n) =
      ((engine.evaluate context none).1.take n, (engine.evaluate context none).2) := by
  obtain ⟨m, rfl⟩ := Nat.exists_eq_add_of_le' hn
  have hzero : some (m + 1) ≠ some 0 := by simp
  rw [evaluate, evaluate, if_neg hzero, if_neg (by simp)]
  simp only [report, List.map_take]
  cases ScoredRule.ranking (ScoredRule.admitted engine.limiter engine.clock
    (engine.scored context)).1 <;> rfl

/-- All results are the ranking of what the limiter lets pass. -/
theorem evaluate_none_fst (engine : Engine α) (context : Context) :
    (engine.evaluate context none).1 = (ScoredRule.ranking (ScoredRule.admitted engine.limiter
      engine.clock (engine.scored context)).1).map ScoredRule.toMatch := by
  rw [evaluate, if_neg (by simp)]
  rfl

/-- What is ranked are rules of the table. -/
theorem mem_rules_of_mem_ranking {s : ScoredRule α} (h : s ∈ ScoredRule.ranking
    (ScoredRule.admitted engine.limiter engine.clock (engine.scored context)).1) :
    s.rule ∈ engine.table.rules := by
  have hpassed := ScoredRule.mem_of_mem_ranking h
  obtain ⟨place, -, hrule, -⟩ :=
    exists_rule_of_mem_scored ((ScoredRule.admitted_sublist _ _ _).subset hpassed)
  exact List.mem_of_getElem? hrule

end

variable {K : Type} [Field K] [LinearOrder K]

/-- In exact arithmetic and with distinct identities, an evaluation gives the same results for every
order of the table and leaves the same limiter. The results have distinct identities of rules and
descend by confidence times priority, equal ones ascend by identity, and a limit on their number
cuts them off without any other difference. -/
theorem evaluate_of_perm (engine : Engine K) {rules other : List (Rule K)}
    (hids : (rules.map (·.id)).Nodup) (h : rules.Perm other) (maxKeys : Nat) (context : Context) :
    let first := engine.withRules maxKeys rules
    let second := engine.withRules maxKeys other
    let results := (first.evaluate context none).1
    (∀ limit, (first.evaluate context limit).1 = (second.evaluate context limit).1 ∧
      (first.evaluate context limit).2.limiter = (second.evaluate context limit).2.limiter) ∧
    (results.map (·.ruleId)).Nodup ∧
    (∀ result ∈ results, result.ruleId ∈ rules.map (·.id)) ∧
    results.Pairwise (RuleMatch.Before rules) ∧
    ∀ k, 1 ≤ k → first.evaluate context (some k) =
      (results.take k, (first.evaluate context none).2) := by
  intro first second results
  have hrules : rules.Nodup := List.Nodup.of_map _ hids
  have hresults : results = _ := first.evaluate_none_fst context
  have hmem : ∀ s ∈ ScoredRule.ranking (ScoredRule.admitted first.limiter first.clock
      (first.scored context)).1, s.rule ∈ rules := fun s hs => mem_rules_of_mem_ranking hs
  refine ⟨fun limit => ?_, ?_, ?_, ?_, fun k hk => first.evaluate_some context hk⟩
  · unfold evaluate
    split_ifs
    · exact ⟨rfl, rfl⟩
    · exact report_congr rfl rfl (scored_perm hrules h) (nodup_ids_scored hids) limit
  · rw [hresults, List.map_map]
    exact ScoredRule.nodup_ids_ranking _
  · rw [hresults]
    refine List.forall_mem_map.mpr fun s hs => ?_
    exact List.mem_map_of_mem (hmem s hs)
  · rw [hresults]
    refine List.pairwise_map.mpr ((ScoredRule.pairwise_ranking _).imp_of_mem ?_)
    intro s t hs ht hst rule hrule hid rule' hrule' hid'
    obtain rfl := List.inj_on_of_nodup_map hids hrule (hmem s hs) hid
    obtain rfl := List.inj_on_of_nodup_map hids hrule' (hmem t ht) hid'
    exact hst

/-- A lamp and an alarm for every context may be loaded in either order. Of two equal results the
one with the smaller identity comes first. -/
theorem evaluate_of_perm_lamp :
    let lamp : Rule ℚ := .unconditional "a" ⟨"lamp", "light", ""⟩
    let alarm : Rule ℚ := .unconditional "b" ⟨"alarm", "sound", ""⟩
    let engine : Engine ℚ := start Settings.standard 0 .steady
    ([alarm, lamp].map (·.id)).Nodup ∧ [alarm, lamp].Perm [lamp, alarm] ∧
      ((engine.withRules 5 [lamp, alarm]).evaluate ∅ none).1 =
        [⟨"a", 1, ⟨"lamp", "light", ""⟩⟩, ⟨"b", 1, ⟨"alarm", "sound", ""⟩⟩] ∧
      ((engine.withRules 5 [alarm, lamp]).evaluate ∅ none).1 =
        ((engine.withRules 5 [lamp, alarm]).evaluate ∅ none).1 := by
  intro lamp alarm engine
  have hids : ([alarm, lamp].map (·.id)).Nodup := by decide
  have hperm : [alarm, lamp].Perm [lamp, alarm] := .swap ..
  have hresults : ((engine.withRules 5 [lamp, alarm]).evaluate ∅ none).1 =
      [⟨"a", 1, ⟨"lamp", "light", ""⟩⟩, ⟨"b", 1, ⟨"alarm", "sound", ""⟩⟩] :=
    evaluate_unconditional [("a", ⟨"lamp", "light", ""⟩), ("b", ⟨"alarm", "sound", ""⟩)] rfl
      (List.pairwise_pair.mpr (by decide)) rfl rfl ∅
  exact ⟨hids, hperm, hresults, ((evaluate_of_perm engine hids hperm 5 ∅).1 none).1⟩

end Engine

end ContextAdvisor
