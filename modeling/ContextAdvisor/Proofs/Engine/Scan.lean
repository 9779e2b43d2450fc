import ContextAdvisor.Proofs.Engine.Report
import ContextAdvisor.Proofs.Rule.Confidence

/-!
# Evaluation as a plain scan

The decision tree is only a shortcut. The rules that it leaves out have a negligible confidence, so
as long as the least confidence is not below the negligible one, an evaluation reports what a scan
of all enabled rules reports, and leaves the same engine behind.
-/
namespace ContextAdvisor

namespace DecisionTree

variable {α β : Type}

/-- The enabled rules, read off their places. -/
theorem filterMap_enabledPlaces (rules : List (Rule α)) :
    (enabledPlaces rules).filterMap (rules[·]?) = rules.filter (·.enabled) := by
  have hmem : ∀ p ∈ rules.zipIdx, rules[p.2]? = some p.1 := by
    rintro ⟨rule, place⟩ hp
    exact List.mem_zipIdx_iff_getElem?.mp hp
  calc
    _ = rules.zipIdx.filterMap fun p => if p.1.enabled then some p.1 else none := by
      rw [enabledPlaces, List.filterMap_filterMap]
      refine List.filterMap_congr fun p hp => ?_
      by_cases he : p.1.enabled <;> simp [he, hmem p hp]
    _ = (rules.zipIdx.map (·.1)).filter (·.enabled) := by
      rw [List.filter_map, ← List.filterMap_eq_filter, List.map_filterMap]
      refine List.filterMap_congr fun p _ => ?_
      by_cases he : p.1.enabled <;> simp [he, Option.guard]
    _ = _ := by rw [List.zipIdx_map_fst]

/-- Places that a function drops may be left out of an ascending list. -/
theorem filterMap_eq_of_subset {a b : List Nat} (ha : a.Pairwise (· < ·))
    (hb : b.Pairwise (· < ·)) (hs : a ⊆ b) {f : Nat → Option β}
    (hf : ∀ n ∈ b, n ∉ a → f n = none) : a.filterMap f = b.filterMap f := by
  have he : a = b.filter (· ∈ a) := by
    refine eq_of_mem_iff ha (hb.filter _) fun n => ?_
    simp only [List.mem_filter, decide_eq_true_eq]
    exact ⟨fun h => ⟨hs h, h⟩, fun h => h.2⟩
  rw [he, List.filterMap_filter]
  refine List.filterMap_congr fun n hn => ?_
  by_cases h : n ∈ a
  · simp [h]
  · simp [h, hf n hn h]

end DecisionTree

namespace Engine

open DecisionTree

/-- The enabled rules that score high enough, in the order of the table. -/
def scanned {α : Type} [Scalar α] (engine : Engine α) (context : Context) :
    List (ScoredRule α) :=
  (engine.table.rules.filter (·.enabled)).filterMap (engine.score? context)

/-- Evaluates the rules without the decision tree. -/
def scan {α : Type} [Scalar α] (engine : Engine α) (context : Context) (limit : Option Nat) :
    List (RuleMatch α) × Engine α :=
  engine.report (engine.scanned context) limit

variable {K : Type} [Field K] [LinearOrder K] [IsStrictOrderedRing K]

/-- A rule that the context rules out is not reported. -/
theorem score?_eq_none {engine : Engine K} {context : Context} {rule : Rule K}
    (hm : (Score.negligible : K) ≤ engine.settings.minConfidence)
    (h : ¬ rule.MayFit context) : engine.score? context rule = none := by
  have hc := Rule.confidence_lt_of_not_mayFit h (engine.events.history engine.clock)
  exact if_neg (not_lt.mpr (hc.le.trans hm))

/-- The tree leaves out no rule that scores high enough. -/
theorem scored_eq_scanned {engine : Engine K}
    (hm : (Score.negligible : K) ≤ engine.settings.minConfidence) (context : Context) :
    engine.scored context = engine.scanned context := by
  obtain ⟨maxKeys, htree⟩ := engine.table.exists_tree_eq
  rw [scored, scanned, htree, ← filterMap_enabledPlaces, List.filterMap_filterMap]
  refine filterMap_eq_of_subset (pairwise_candidates _ _) (pairwise_enabledPlaces _)
    (fun _ h => mem_enabledPlaces_of_mem_candidates h) fun place hp hn => ?_
  obtain ⟨rule, hr, he⟩ := mem_enabledPlaces.mp hp
  rw [hr]
  exact score?_eq_none hm fun hfit => hn (mem_candidates_of_mayFit hr he hfit maxKeys)

/-- An engine with the usual least confidence whose rules are all enabled, without conditions and of
the usual priority, in ascending order of their identities. -/
structure HoldsPlain (engine : Engine K) (rules : List (Rule K)) : Prop where
  rules_eq : engine.table.rules = rules
  minConfidence_eq : engine.settings.minConfidence = 0.1
  of_mem : ∀ rule ∈ rules, rule.conditions = [] ∧ rule.priority = 1 ∧ rule.enabled = true
  ascending : rules.Pairwise fun a b => a.id < b.id

namespace HoldsPlain

variable {engine : Engine K} {rules : List (Rule K)}

/-- With plain rules an evaluation reports what the limiter lets pass, in the order of the table. -/
theorem evaluate_eq (h : engine.HoldsPlain rules) {passed : List (ScoredRule K)}
    {limiter : Limiter} (ha : ScoredRule.admitted engine.limiter engine.clock
      (rules.map (⟨·, 1⟩)) = (passed, limiter)) (context : Context) :
    engine.evaluate context none = engine.announce limiter passed := by
  obtain ⟨ht, hm, hp, hi⟩ := h
  have hleast : engine.settings.minConfidence < 1 := by
    rw [hm]
    norm_num
  have hnegligible : (Score.negligible : K) ≤ engine.settings.minConfidence := by
    rw [hm, Score.negligible]
    norm_num
  have hs : engine.scored context = rules.map (⟨·, 1⟩) := by
    rw [scored_eq_scanned hnegligible, scanned, ht,
      List.filter_eq_self.mpr fun rule hr => (hp rule hr).2.2, ← List.filterMap_eq_map]
    refine List.filterMap_congr fun rule hr => ?_
    simp [score?, (hp rule hr).1, Rule.confidence, Score.productFrom, hleast]
  have hids : (rules.map (⟨·, 1⟩ : Rule K → ScoredRule K)).Pairwise
      fun a b => a.rule.id < b.rule.id := List.pairwise_map.mpr hi
  have hweights : (rules.map (⟨·, 1⟩ : Rule K → ScoredRule K)).Pairwise
      fun a b => a.precedes b := by
    -- all weights are equal
    refine List.pairwise_map.mpr (hi.imp_of_mem fun {a b} ha hb _ => ?_)
    simp [ScoredRule.precedes, ScoredRule.weight, (hp a ha).2.1, (hp b hb).2.1]
  have hsub := ScoredRule.admitted_sublist engine.limiter engine.clock
    (rules.map (⟨·, (1 : K)⟩))
  rw [ha] at hsub
  rw [evaluate, if_neg (by simp), hs, report_none ha,
    ScoredRule.ranking_eq_self (hids.sublist hsub) (hweights.sublist hsub)]

theorem evaluate_fst (h : engine.HoldsPlain rules) (context : Context) :
    (engine.evaluate context none).1 = (ScoredRule.admitted engine.limiter engine.clock
      (rules.map (⟨·, 1⟩))).1.map ScoredRule.toMatch :=
  congrArg (·.1) (h.evaluate_eq (Prod.mk.eta (p := ScoredRule.admitted _ _ _)).symm context)

/-- Before anything has fired, all plain rules are reported. -/
theorem evaluate_of_fresh (h : engine.HoldsPlain rules) (hl : engine.limiter = .ofLimits .standard)
    (context : Context) :
    engine.evaluate context none = engine.announce (.ofLimits .standard) (rules.map (⟨·, 1⟩)) := by
  refine h.evaluate_eq ?_ context
  rw [hl, ScoredRule.admitted_ofLimits (by decide)]

omit [IsStrictOrderedRing K] in
/-- Only the settings and the table of rules matter. -/
theorem congr (h : engine.HoldsPlain rules) {later : Engine K}
    (ht : later.table.rules = engine.table.rules)
    (hs : later.settings = engine.settings) : later.HoldsPlain rules where
  rules_eq := ht ▸ h.rules_eq
  minConfidence_eq := hs ▸ h.minConfidence_eq
  of_mem := h.of_mem
  ascending := h.ascending

end HoldsPlain

/-- Rules without conditions whose identities ascend are all reported, in that order, by an engine
with the usual least confidence whose limiter has seen no firing. -/
theorem evaluate_unconditional {engine : Engine K} (actions : List (String × Action))
    (ht : engine.table.rules = actions.map fun a => .unconditional a.1 a.2)
    (ha : Ascending actions) (hm : engine.settings.minConfidence = 0.1)
    (hl : engine.limiter = .ofLimits .standard) (context : Context) :
    (engine.evaluate context none).1 = actions.map fun a => ⟨a.1, 1, a.2⟩ := by
  have hplain : engine.HoldsPlain (actions.map fun a => .unconditional a.1 a.2) := by
    refine ⟨ht, hm, ?_, List.pairwise_map.mpr ha⟩
    intro rule hr
    obtain ⟨a, -, rfl⟩ := List.mem_map.mp hr
    simp [Rule.unconditional]
  rw [hplain.evaluate_of_fresh hl]
  simp [announce, Function.comp_def, ScoredRule.toMatch, Rule.unconditional]

/-- In exact arithmetic an evaluation with a compiled tree reports the same results as a scan of
the enabled rules, and leaves the same engine. -/
theorem evaluate_eq_scan {engine : Engine K} (hm : 0.01 ≤ engine.settings.minConfidence)
    {limit : Option Nat} (hl : limit ≠ some 0) (context : Context) :
    engine.evaluate context limit = engine.scan context limit := by
  rw [evaluate, if_neg hl, scored_eq_scanned hm, scan]

/-- Three rules are split by the hour. At eight the tree leaves two of them out, a fourth one is
disabled, and one result is reported. -/
theorem evaluate_eq_scan_standard :
    let at? (hour id : String) : Rule ℚ :=
      { Rule.unconditional id ⟨"lamp", "light", ""⟩ with conditions := [⟨"hour", .eq, hour⟩] }
    let rules := [at? "8" "d", at? "7" "c", at? "9" "b", { at? "8" "a" with enabled := false }]
    let engine := (Engine.start Settings.standard 0 .steady).loadRules rules
    let context : Context := Dictionary.empty.insert "hour" "8"
    (0.01 : ℚ) ≤ engine.settings.minConfidence ∧
      engine.table.tree.candidates context = [0] ∧
      engine.evaluate context (some 2) = engine.scan context (some 2) ∧
      (engine.scan context (some 2)).1.map (fun r => (r.ruleId, r.confidence)) = [("d", 1)] := by
  intro at? rules engine context
  have hm : (0.01 : ℚ) ≤ engine.settings.minConfidence := by
    show (0.01 : ℚ) ≤ 0.1
    norm_num
  exact ⟨hm, by decide +kernel, evaluate_eq_scan hm (by simp) context, by decide +kernel⟩

end Engine

end ContextAdvisor
