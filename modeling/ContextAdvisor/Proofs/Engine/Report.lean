import ContextAdvisor.Engine.Evaluate
import ContextAdvisor.Proofs.DecisionTree.Candidates

/-!
# What an evaluation reports

Every result stands for a rule of the table that scored high enough, with the confidence of that
rule. An evaluation changes nothing of the engine but its limiter.
-/
namespace ContextAdvisor

variable {α : Type}

/-- A limiter that has seen no firing lets everything pass, unless its limits forbid it. -/
theorem Limiter.check_ofLimits {limits : FiringLimits} (h : 0 < limits.globalMaxPerHour)
    (id kind : String) (cooldown : Duration) (now : Instant) :
    (ofLimits limits).check id cooldown kind now = (none, ofLimits limits) :=
  if_neg h.not_ge

namespace ScoredRule

theorem admitted_sublist (limiter : Limiter) (now : Instant) (results : List (ScoredRule α)) :
    (admitted limiter now results).1.Sublist results := by
  induction results generalizing limiter with
  | nil => exact .slnil
  | cons s rest ih =>
    unfold admitted
    split
    · exact (ih _).cons_cons s
    · exact (ih _).cons s

theorem admitted_ofLimits {limits : FiringLimits} (h : 0 < limits.globalMaxPerHour)
    (now : Instant) (results : List (ScoredRule α)) :
    admitted (.ofLimits limits) now results = (results, .ofLimits limits) := by
  induction results with
  | nil => rfl
  | cons s rest ih => simp only [admitted, Limiter.check_ofLimits h, ih]

variable [Scalar α]

theorem mem_addBest {best : Dictionary (ScoredRule α)} {s : ScoredRule α}
    {e : String × ScoredRule α} (h : e ∈ (addBest best s).entries) :
    e.2 = s ∨ e ∈ best.entries := by
  unfold addBest at h
  split at h
  · split_ifs at h
    · exact (Dictionary.fst_mem_insertEntry h).imp_left (by rintro rfl; rfl)
    · exact .inr h
  · exact (Dictionary.fst_mem_insertEntry h).imp_left (by rintro rfl; rfl)

theorem mem_foldl_addBest {results : List (ScoredRule α)} {best : Dictionary (ScoredRule α)}
    {e : String × ScoredRule α} (h : e ∈ (results.foldl addBest best).entries) :
    e.2 ∈ results ∨ e ∈ best.entries := by
  induction results generalizing best with
  | nil => exact .inr h
  | cons s rest ih =>
    rcases ih h with h | h
    · exact .inl (List.mem_cons_of_mem _ h)
    · refine (mem_addBest h).imp_left ?_
      rintro rfl
      exact List.mem_cons_self

theorem mem_of_mem_ranking {results : List (ScoredRule α)} {s : ScoredRule α}
    (h : s ∈ ranking results) : s ∈ results := by
  rw [ranking, List.mem_mergeSort, List.mem_map] at h
  obtain ⟨e, he, rfl⟩ := h
  exact (mem_foldl_addBest he).resolve_right (by simp [EmptyCollection.emptyCollection,
    Dictionary.empty])

theorem entries_foldl_addBest {results : List (ScoredRule α)} {best : Dictionary (ScoredRule α)}
    (h : results.Pairwise fun a b => a.rule.id < b.rule.id)
    (hb : ∀ e ∈ best.entries, ∀ s ∈ results, e.1 < s.rule.id) :
    (results.foldl addBest best).entries =
      best.entries ++ results.map fun s => (s.rule.id, s) := by
  induction results generalizing best with
  | nil => simp
  | cons s rest ih =>
    obtain ⟨hs, hrest⟩ := List.pairwise_cons.mp h
    have hlt : ∀ e ∈ best.entries, e.1 < s.rule.id := fun e he => hb e he s List.mem_cons_self
    have ha : (addBest best s).entries = best.entries ++ [(s.rule.id, s)] := by
      simp only [addBest, Dictionary.get?_of_forall_lt hlt]
      exact Dictionary.insertEntry_of_forall_lt hlt
    rw [List.foldl_cons, ih hrest, ha, List.append_assoc, List.map_cons, List.singleton_append]
    intro e he t ht
    rw [ha, List.mem_append, List.mem_singleton] at he
    rcases he with he | rfl
    · exact hb e he t (List.mem_cons_of_mem _ ht)
    · exact hs t ht

/-- Results with ascending identities that are in order are left as they are. -/
theorem ranking_eq_self {results : List (ScoredRule α)}
    (h : results.Pairwise fun a b => a.rule.id < b.rule.id)
    (hp : results.Pairwise fun a b => a.precedes b) : ranking results = results := by
  have he : (results.foldl addBest ∅).entries.map (·.2) = results := by
    rw [entries_foldl_addBest h (by simp [EmptyCollection.emptyCollection, Dictionary.empty])]
    simp [EmptyCollection.emptyCollection, Dictionary.empty, Function.comp_def]
  rw [ranking, he, List.mergeSort_of_pairwise hp]

end ScoredRule

namespace Engine

variable [Scalar α]

/-- Reports results that a limiter has let pass, and counts the first as a firing. -/
def announce (engine : Engine α) (limiter : Limiter) (results : List (ScoredRule α)) :
    List (RuleMatch α) × Engine α :=
  (results.map ScoredRule.toMatch, { engine with limiter := match results with
    | top :: _ => limiter.record top.rule.id top.rule.action.kind engine.clock
    | [] => limiter })

/-- All results that the limiter lets pass are reported by their rank, if there is no limit. -/
theorem report_none {engine : Engine α} {scored passed : List (ScoredRule α)} {limiter : Limiter}
    (h : ScoredRule.admitted engine.limiter engine.clock scored = (passed, limiter)) :
    engine.report scored none = engine.announce limiter (ScoredRule.ranking passed) := by
  have hreport : engine.report scored none =
      engine.announce (ScoredRule.admitted engine.limiter engine.clock scored).2
        (ScoredRule.ranking (ScoredRule.admitted engine.limiter engine.clock scored).1) := rfl
  rw [hreport, h]

/-- Every reported result is one of those that the limiter let pass. -/
theorem exists_admitted_of_mem_report {engine : Engine α} {scored : List (ScoredRule α)}
    {limit : Option Nat} {result : RuleMatch α} (h : result ∈ (engine.report scored limit).1) :
    ∃ s ∈ (ScoredRule.admitted engine.limiter engine.clock scored).1, s.toMatch = result := by
  obtain ⟨s, hs, he⟩ := List.mem_map.mp h
  have hr : s ∈ ScoredRule.ranking
      (ScoredRule.admitted engine.limiter engine.clock scored).1 := by
    cases limit with
    | none => exact hs
    | some n => exact List.mem_of_mem_take hs
  exact ⟨s, ScoredRule.mem_of_mem_ranking hr, he⟩

/-- Every reported result is one of those that were put to the limiter. -/
theorem exists_scored_of_mem_report {engine : Engine α} {scored : List (ScoredRule α)}
    {limit : Option Nat} {result : RuleMatch α} (h : result ∈ (engine.report scored limit).1) :
    ∃ s ∈ scored, s.toMatch = result := by
  obtain ⟨s, hs, he⟩ := exists_admitted_of_mem_report h
  exact ⟨s, (ScoredRule.admitted_sublist _ _ _).subset hs, he⟩

/-- A scored rule is a rule of the table above the least confidence. -/
theorem exists_rule_of_mem_scored {engine : Engine α} {context : Context} {s : ScoredRule α}
    (h : s ∈ engine.scored context) : ∃ place ∈ engine.table.tree.candidates context,
      engine.table.rules[place]? = some s.rule ∧ engine.settings.minConfidence < s.confidence ∧
      s.confidence = Rule.confidence (engine.events.history engine.clock) context
        s.rule.conditions := by
  obtain ⟨place, hp, hs⟩ := List.mem_filterMap.mp h
  obtain ⟨rule, hr, hs⟩ := Option.bind_eq_some_iff.mp hs
  simp only [score?] at hs
  split_ifs at hs with hc
  obtain rfl := Option.some.inj hs
  exact ⟨place, hp, hr, hc, rfl⟩

/-- Every result of an evaluation stands for a candidate of the tree, with its confidence. -/
theorem exists_rule_of_mem_evaluate {engine : Engine α} {context : Context} {limit : Option Nat}
    {result : RuleMatch α} (h : result ∈ (engine.evaluate context limit).1) :
    ∃ place ∈ engine.table.tree.candidates context, ∃ rule,
      engine.table.rules[place]? = some rule ∧ engine.settings.minConfidence < result.confidence ∧
      result = ⟨rule.id, Rule.confidence (engine.events.history engine.clock) context
        rule.conditions, rule.action⟩ := by
  unfold evaluate at h
  split_ifs at h with hl
  · simp at h
  · obtain ⟨s, hs, rfl⟩ := exists_scored_of_mem_report h
    obtain ⟨place, hp, hr, hm, hc⟩ := exists_rule_of_mem_scored hs
    exact ⟨place, hp, s.rule, hr, hm, by rw [ScoredRule.toMatch, hc]⟩

/-- An evaluation changes the limiter only. -/
theorem evaluate_snd (engine : Engine α) (context : Context) (limit : Option Nat) :
    (engine.evaluate context limit).2 =
      { engine with limiter := (engine.evaluate context limit).2.limiter } := by
  unfold evaluate
  split_ifs <;> rfl

theorem evaluate_snd_table (engine : Engine α) (context : Context) (limit : Option Nat) :
    (engine.evaluate context limit).2.table = engine.table :=
  congrArg (·.table) (engine.evaluate_snd context limit)

end Engine

end ContextAdvisor
