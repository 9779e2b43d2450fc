import ContextAdvisor.Engine.Decide
import ContextAdvisor.Proofs.Engine.Scan
import ContextAdvisor.Proofs.Handover
import ContextAdvisor.Proofs.Learning.EpsilonGreedy

/-!
# What a decision may be

A decision is made exactly when an evaluation reports something, and it picks one of the reported
results: the first of them, or the first with the action that the learner selected. The learner gets
its way only if it is sure enough for the hand-over and for the guard and outweighs the best rule,
which it never does in the first phase.
-/
namespace ContextAdvisor

namespace Engine

/-- The learner is asked to select among the distinct actions of the results, in their order. -/
theorem actionIds_eq_eraseDups {α : Type} (results : List (RuleMatch α)) :
    actionIds results = (results.map (·.action.id)).eraseDups := by
  induction results using List.reverseRecOn with
  | nil => rfl
  | append_singleton front result ih =>
    have hs : actionIds (front ++ [result]) =
        if (actionIds front).contains result.action.id then actionIds front
        else actionIds front ++ [result.action.id] := by
      rw [actionIds, List.foldl_append]
      rfl
    rw [hs, ih, List.map_append, List.map_singleton, List.eraseDups_append, List.cons_removeAll]
    by_cases hm : result.action.id ∈ front.map (·.action.id)
    · have hd : result.action.id ∈ (front.map (·.action.id)).eraseDups := List.mem_eraseDups.mpr hm
      simp [hm, hd]
    · have hd : result.action.id ∉ (front.map (·.action.id)).eraseDups :=
        fun h => hm (List.mem_eraseDups.mp h)
      simp [hm, hd, List.eraseDups_cons]

section

variable {α : Type} [Analytic α]

omit [Analytic α] in
/-- The learner proposes the first result with the action that it selected. -/
theorem learnedProposal_eq_some {results : List (RuleMatch α)} {selection : Option (Selection α)}
    {l : Proposal (RuleMatch α) α} (h : learnedProposal results selection = some l) :
    ∃ selected result, selection = some selected ∧
      results.find? (·.action.id == selected.actionId) = some result ∧
      l = ⟨result, selected.confidence⟩ := by
  obtain ⟨selected, hs, h⟩ := Option.bind_eq_some_iff.mp h
  obtain ⟨result, hr, h⟩ := Option.bind_eq_some_iff.mp h
  exact ⟨selected, result, hs, hr, (Option.some.inj h).symm⟩

/-- The gate turns down learned choices whose confidence does not reach the guard's threshold. -/
theorem gate_fst (engine : Engine α) (top : RuleMatch α) (choice : Choice (RuleMatch α) α) :
    (engine.gate top choice).1 =
      if choice.source = .learned ∧ ¬ engine.guard.threshold ≤ choice.confidence then
        ⟨top, top.confidence, .ruleFallback, choice.weights⟩
      else choice := by
  unfold gate
  by_cases hs : choice.source = .learned
  · by_cases hc : engine.guard.threshold ≤ choice.confidence <;>
      simp [hs, hc, Guard.rejects, Guard.passes]
  · simp [hs]

/-- The gate changes nothing but what the guard counted. -/
theorem gate_snd (engine : Engine α) (top : RuleMatch α) (choice : Choice (RuleMatch α) α) :
    (engine.gate top choice).2 = { engine with
      guard := { engine.guard with stats := (engine.gate top choice).2.guard.stats } } := by
  simp only [gate, Guard.rejects]
  split_ifs <;> rfl

/-- The choice on some results, and whether it passes the gate, do not depend on the limiter. -/
theorem choose_fst (engine : Engine α) (top : RuleMatch α) (results : List (RuleMatch α))
    (context : Context) : (engine.choose top results context).1 =
      (arbitrate (some ⟨top, top.confidence⟩)
        (learnedProposal results (engine.select (actionIds results) context).1)
        engine.weights).map fun choice =>
          let gated := (engine.gate top choice).1
          ⟨gated.item, gated.source, gated.confidence, engine.phase, gated.weights⟩ := by
  have hw : (engine.select (actionIds results) context).2.weights = engine.weights := rfl
  have hg : (engine.select (actionIds results) context).2.guard.threshold =
      engine.guard.threshold := rfl
  simp only [choose, hw]
  cases arbitrate (some ⟨top, top.confidence⟩)
    (learnedProposal results (engine.select (actionIds results) context).1) engine.weights with
  | none => rfl
  | some choice =>
    have hp : ((engine.select (actionIds results) context).2.gate top choice).2.phase =
        engine.phase := by
      rw [gate_snd]
      rfl
    simp only [gate_fst, hg, hp, Option.map_some]

/-- A choice takes the first result with its confidence, or the first result with the action that
the learner selected, if the learner is sure enough and outweighs the rules. -/
theorem choose_cases (engine : Engine α) (top : RuleMatch α) (results : List (RuleMatch α))
    (context : Context) : ∃ d, (engine.choose top results context).1 = some d ∧
      (d.weights = engine.weights ∨ d.weights = ⟨engine.weights.rule + engine.weights.learned / 2.0,
        engine.weights.learned - engine.weights.learned / 2.0⟩) ∧
      ((d.source ≠ .learned ∧ d.result = top ∧ d.confidence = top.confidence) ∨
        (d.source = .learned ∧ d.weights = engine.weights ∧ ∃ selected,
          (engine.select (actionIds results) context).1 = some selected ∧
          results.find? (·.action.id == selected.actionId) = some d.result ∧
          d.confidence = selected.confidence ∧ ¬ d.confidence < Handover.lowConfidence ∧
          engine.guard.threshold ≤ d.confidence ∧
          ¬ d.confidence * d.weights.learned ≤ top.confidence * d.weights.rule)) := by
  obtain ⟨choice, hc, hweights, hcases⟩ := arbitrate_cases ⟨top, top.confidence⟩
    (learnedProposal results (engine.select (actionIds results) context).1) engine.weights
  refine ⟨_, by rw [choose_fst, hc, Option.map_some], ?_⟩
  rw [gate_fst]
  split_ifs with hgate
  · -- a learned choice that the gate turned down
    exact ⟨hweights, .inl ⟨by simp, rfl, rfl⟩⟩
  · rcases hcases with ⟨hs, hi, hconf⟩ | ⟨l, hl, rfl, hlow, hwins⟩
    · exact ⟨hweights, .inl ⟨hs, hi, hconf⟩⟩
    · obtain ⟨selected, result, hsel, hfind, rfl⟩ := learnedProposal_eq_some hl
      have hthreshold : engine.guard.threshold ≤ selected.confidence :=
        Decidable.not_not.mp fun h => hgate ⟨rfl, h⟩
      exact ⟨hweights, .inr ⟨rfl, rfl, selected, hsel, hfind, rfl, hlow, hthreshold, hwins⟩⟩

/-- A choice changes nothing but the learner, as its selection does, and what the guard counted. -/
theorem choose_snd (engine : Engine α) (top : RuleMatch α) (results : List (RuleMatch α))
    (context : Context) : (engine.choose top results context).2 = { engine with
      learner := (engine.select (actionIds results) context).2.learner
      guard := { engine.guard with
        stats := (engine.choose top results context).2.guard.stats } } := by
  simp only [choose]
  split
  · rfl
  · rw [gate_snd]
    rfl

/-- The learner gets its way if it is sure enough and outweighs the rules. -/
theorem choose_learned {engine : Engine α} {top result : RuleMatch α}
    {results : List (RuleMatch α)} {context : Context} {selected : Selection α}
    (hs : (engine.select (actionIds results) context).1 = some selected)
    (hf : results.find? (·.action.id == selected.actionId) = some result)
    (hlow : ¬ selected.confidence < Handover.lowConfidence)
    (ht : engine.guard.threshold ≤ selected.confidence)
    (hw : ¬ selected.confidence * engine.weights.learned ≤ top.confidence * engine.weights.rule) :
    (engine.choose top results context).1 =
      some ⟨result, .learned, selected.confidence, engine.phase, engine.weights⟩ := by
  have hl : learnedProposal results (some selected) = some ⟨result, selected.confidence⟩ := by
    simp [learnedProposal, hf]
  rw [choose_fst, hs, hl]
  simp [arbitrate, hlow, hw, gate_fst, ht]

theorem decide_of_nil {engine : Engine α} {context : Context}
    (h : (engine.evaluate context none).1 = []) : (engine.decide context).1 = none := by
  simp only [decide, h]

theorem decide_of_cons {engine : Engine α} {context : Context} {top : RuleMatch α}
    {rest : List (RuleMatch α)} (h : (engine.evaluate context none).1 = top :: rest) :
    engine.decide context =
      (engine.evaluate context none).2.choose top (top :: rest) context := by
  simp only [decide, h]

/-- A decision changes the limiter as its evaluation does, and else nothing but the learner and what
the guard counted. -/
theorem decide_snd (engine : Engine α) (context : Context) : (engine.decide context).2 =
    { engine with
      limiter := (engine.evaluate context none).2.limiter
      learner := (engine.decide context).2.learner
      guard := { engine.guard with stats := (engine.decide context).2.guard.stats } } := by
  cases h : (engine.evaluate context none).1 with
  | nil =>
    simp only [decide, h]
    exact evaluate_snd engine context none
  | cons top rest =>
    rw [decide_of_cons h, choose_snd, evaluate_snd]

end

/-- What a decision on some results has to be: a decision for the rules takes the first result
with its confidence, a decision for the learner the first result with the action that the learner
selected, under conditions that are never met in the first phase. -/
structure Justified (engine : Engine ℝ) (context : Context) (results : List (RuleMatch ℝ))
    (d : Decision ℝ) : Prop where
  mem : d.result ∈ results
  of_rules : d.source ≠ .learned →
    results.head? = some d.result ∧ d.confidence = d.result.confidence
  of_learner : d.source = .learned → ∃ selected top,
    (engine.select (results.map (·.action.id)).eraseDups context).1 = some selected ∧
    results.find? (·.action.id == selected.actionId) = some d.result ∧
    d.confidence = selected.confidence ∧ 0.3 ≤ d.confidence ∧
    engine.guard.threshold ≤ d.confidence ∧
    results.head? = some top ∧
    top.confidence * d.weights.rule < d.confidence * d.weights.learned
  weights_sum : d.weights.rule + d.weights.learned = 1
  of_bootstrap : engine.phase = .bootstrap → d.source ≠ .learned

/-- Every choice on results whose confidences are not negative is justified. -/
theorem exists_justified_choose (engine : Engine ℝ) (context : Context) {top : RuleMatch ℝ}
    (rest : List (RuleMatch ℝ)) (ht : 0 ≤ top.confidence) :
    ∃ d, (engine.choose top (top :: rest) context).1 = some d ∧
      engine.Justified context (top :: rest) d := by
  obtain ⟨d, hd, hweights, hcases⟩ := choose_cases engine top (top :: rest) context
  have hw : d.weights.rule + d.weights.learned = 1 := by
    have hsum := engine.schedule.rule_add_learned (K := ℝ) engine.clock
    rcases hweights with hweights | hweights
    · rw [hweights]
      exact hsum
    · -- what the learner gives up the rules gain
      rw [hweights]
      exact (add_add_sub_cancel _ _ _).trans hsum
  refine ⟨d, hd, ?_⟩
  rcases hcases with ⟨hs, hr, hc⟩ |
    ⟨hs, hweights, selected, hsel, hfind, hc, hlow, hthreshold, hwins⟩
  · exact ⟨by simp [hr], by simp [hr, hc], fun h => absurd h hs, hw, fun _ => hs⟩
  · rw [actionIds_eq_eraseDups] at hsel
    refine ⟨List.mem_of_find?_eq_some hfind, fun h => absurd hs h, fun _ => ?_, hw, fun hb => ?_⟩
    · exact ⟨selected, top, hsel, hfind, hc, not_lt.mp hlow, hthreshold, rfl, not_le.mp hwins⟩
    · -- without weight the learner's confidence counts for nothing
      have hbootstrap : d.weights = ⟨1, 0⟩ := hweights.trans (Schedule.weights_of_bootstrap hb)
      rw [hbootstrap] at hwins
      simp only [mul_one, mul_zero] at hwins
      exact absurd ht hwins

/-- Confidences of results are confidences of rules, hence not negative. -/
theorem confidence_nonneg_of_mem_evaluate {engine : Engine ℝ} {context : Context}
    {limit : Option Nat} {result : RuleMatch ℝ}
    (h : result ∈ (engine.evaluate context limit).1) : 0 ≤ result.confidence := by
  obtain ⟨place, _, rule, _, _, rfl⟩ := exists_rule_of_mem_evaluate h
  exact (Rule.confidence_mem_unit _ _ _).1

/-- If an evaluation reports something, a decision is made that is justified by it. -/
theorem exists_justified_decide {engine : Engine ℝ} {context : Context} {top : RuleMatch ℝ}
    {rest : List (RuleMatch ℝ)} (h : (engine.evaluate context none).1 = top :: rest) :
    ∃ d after, engine.decide context = (some d, after) ∧
      engine.Justified context (top :: rest) d := by
  have ht : 0 ≤ top.confidence := confidence_nonneg_of_mem_evaluate (h ▸ List.mem_cons_self)
  obtain ⟨d, hd, hj⟩ :=
    exists_justified_choose (engine.evaluate context none).2 context rest ht
  refine ⟨d, _, (decide_of_cons h).trans (Prod.ext hd rfl), ?_⟩
  -- the evaluation has changed the limiter only, and nothing here depends on it
  rw [evaluate_snd] at hj
  exact ⟨hj.mem, hj.of_rules, hj.of_learner, hj.weights_sum, hj.of_bootstrap⟩

/-- A lamp and an alarm for every context, with their cooldowns. -/
noncomputable def lampAndAlarm (lamp alarm : Duration) : List (Rule ℝ) :=
  [{ Rule.unconditional "a" ⟨"lamp", "light", ""⟩ with cooldown := lamp },
    { Rule.unconditional "b" ⟨"alarm", "sound", ""⟩ with cooldown := alarm }]

theorem holdsPlain_lampAndAlarm {engine : Engine ℝ} {lamp alarm : Duration}
    (ht : engine.table.rules = lampAndAlarm lamp alarm)
    (hm : engine.settings.minConfidence = 0.1) :
    engine.HoldsPlain (lampAndAlarm lamp alarm) where
  rules_eq := ht
  minConfidence_eq := hm
  of_mem := by simp [lampAndAlarm, Rule.unconditional]
  ascending := List.pairwise_pair.mpr (show "a" < "b" by decide)

/-- The results of the two rules. -/
def lampResult : RuleMatch ℝ := ⟨"a", 1, ⟨"lamp", "light", ""⟩⟩

def alarmResult : RuleMatch ℝ := ⟨"b", 1, ⟨"alarm", "sound", ""⟩⟩

/-- Before anything has fired, both rules are reported, and the lamp fires. -/
theorem evaluate_lampAndAlarm {engine : Engine ℝ} {lamp alarm : Duration}
    (h : engine.HoldsPlain (lampAndAlarm lamp alarm)) (hl : engine.limiter = .ofLimits .standard) :
    engine.evaluate ∅ none =
      ([lampResult, alarmResult], { engine with
        limiter := (Limiter.ofLimits .standard).record "a" "light" engine.clock }) :=
  h.evaluate_of_fresh hl ∅

/-- What makes an engine with the two rules decide on the alarm whenever both are reported. -/
structure PrefersAlarm (engine : Engine ℝ) : Prop where
  weights_eq : engine.weights = ⟨0.1, 0.9⟩
  threshold_eq : engine.guard.threshold = 0.3
  exists_learner : ∃ learner, engine.learner.bandit = .epsilonGreedy learner ∧
    learner.epsilon ≤ 0 ∧ learner.arm "lamp" = .fresh ∧ learner.arm "alarm" = .ofEqual 2 5

/-- On the hundredth day the weights have settled. -/
theorem weights_of_hundred_days {engine : Engine ℝ} (hschedule : engine.schedule = ⟨0⟩)
    (hclock : engine.clock = 100 * Duration.day) : engine.weights = ⟨0.1, 0.9⟩ := by
  have hdays : Handover.settled ≤ (engine.schedule.days engine.clock : ℝ) := by
    rw [hschedule, hclock]
    show (Handover.settled : ℝ) ≤
      Scalar.max (Scalar.ofInt (100 * Duration.day - 0) / Scalar.ofInt Duration.day) 0.0
    rw [Handover.settled, Scalar.exact_max, Scalar.exact_ofInt, Scalar.exact_ofInt]
    norm_num [Duration.day, Duration.hour, Duration.minute, Duration.second]
  exact Weights.atDays_of_settled hdays

namespace PrefersAlarm

variable {engine : Engine ℝ}

/-- The alarm is selected, with the confidence of five rewards. -/
theorem select (h : engine.PrefersAlarm) :
    (engine.select ["lamp", "alarm"] ∅).1 = some ⟨1, "alarm", 2, 1 / 3, false⟩ ∧
      (engine.select ["lamp", "alarm"] ∅).2.learner.bandit = engine.learner.bandit := by
  obtain ⟨learner, hbandit, hepsilon, hlamp, halarm⟩ := h.exists_learner
  have haverage : (learner.arm "alarm").average = 2 := by
    rw [halarm, AverageArm.average_ofEqual _ (by decide)]
  have hbetter : (learner.arm "lamp").average < (learner.arm "alarm").average := by
    rw [haverage, hlamp, AverageArm.average, AverageArm.fresh, AverageArm.optimisticAverage]
    norm_num
  have hconfidence : (learner.arm "alarm").confidence = 1 / 3 := by
    rw [halarm, AverageArm.confidence, AverageArm.ofEqual, evidence, halfEvidencePulls]
    norm_num
  simp only [Engine.select, observeFeatures, hbandit, Bandit.select,
    EpsilonGreedy.select_pair hepsilon hbetter, haverage, hconfidence, and_self]

/-- The learner gets its way, and nothing changes about that. -/
theorem choose (h : engine.PrefersAlarm) :
    ∃ d after, engine.choose lampResult [lampResult, alarmResult] ∅ = (some d, after) ∧
      d.source = .learned ∧ d.result = alarmResult ∧ after.PrefersAlarm := by
  have hids : actionIds [lampResult, alarmResult] = ["lamp", "alarm"] := rfl
  have hselect := h.select
  rw [← hids] at hselect
  obtain ⟨hselected, hbandit⟩ := hselect
  have hfound : [lampResult, alarmResult].find? (·.action.id == "alarm") = some alarmResult := rfl
  have hchosen : (engine.choose lampResult [lampResult, alarmResult] ∅).1 =
      some ⟨alarmResult, .learned, 1 / 3, engine.phase, engine.weights⟩ := by
    refine choose_learned hselected hfound ?_ ?_ ?_
    · rw [Handover.lowConfidence]
      norm_num
    · rw [h.threshold_eq]
      norm_num
    · rw [h.weights_eq, lampResult]
      norm_num
  refine ⟨_, (engine.choose lampResult [lampResult, alarmResult] ∅).2, Prod.ext hchosen rfl, rfl,
    rfl, ?_⟩
  rw [choose_snd]
  refine ⟨h.weights_eq, h.threshold_eq, ?_⟩
  obtain ⟨learner, hlearner, harms⟩ := h.exists_learner
  exact ⟨learner, hbandit.trans hlearner, harms⟩

theorem decide (h : engine.PrefersAlarm)
    (he : (engine.evaluate ∅ none).1 = [lampResult, alarmResult]) :
    ∃ d after, engine.decide ∅ = (some d, after) ∧ d.source = .learned ∧
      d.result = alarmResult ∧ after.PrefersAlarm := by
  have hevaluated : (engine.evaluate ∅ none).2.PrefersAlarm := by
    rw [evaluate_snd]
    exact ⟨h.weights_eq, h.threshold_eq, h.exists_learner⟩
  rw [decide_of_cons he]
  exact hevaluated.choose

end PrefersAlarm

/-- A decision is made if and only if an evaluation without limit reports something, and every
decision is justified by these results. -/
theorem decide_justified (engine : Engine ℝ) (context : Context) :
    ((engine.decide context).1 = none ↔ (engine.evaluate context none).1 = []) ∧
      ∀ d, (engine.decide context).1 = some d →
        engine.Justified context (engine.evaluate context none).1 d := by
  cases h : (engine.evaluate context none).1 with
  | nil => simp [decide_of_nil h]
  | cons top rest =>
    obtain ⟨d, after, hd, hj⟩ := exists_justified_decide h
    rw [hd]
    refine ⟨by simp, ?_⟩
    rintro d ⟨⟩
    exact hj

/-- At first the rules decide, on the hundredth day the learner does, which was rewarded for the
alarm. -/
theorem decide_justified_standard :
    let fresh : Engine ℝ :=
      (start { Settings.standard with installTime := some 0 } 0 .steady).loadRules (lampAndAlarm 0 0)
    let learner : EpsilonGreedy ℝ := ⟨Dictionary.empty.insert "alarm" (.ofEqual 2 5), 0, .steady⟩
    let taught : Engine ℝ := { fresh with
      clock := 100 * Duration.day
      learner := { fresh.learner with bandit := .epsilonGreedy learner } }
    (∃ d, (fresh.decide ∅).1 = some d ∧ d.result = lampResult ∧ d.source ≠ .learned ∧
        fresh.Justified ∅ [lampResult, alarmResult] d) ∧
      ∃ d, (taught.decide ∅).1 = some d ∧ d.result = alarmResult ∧ d.source = .learned ∧
        taught.Justified ∅ [lampResult, alarmResult] d := by
  intro fresh learner taught
  have hfresh : (fresh.evaluate ∅ none).1 = [lampResult, alarmResult] :=
    congrArg (·.1) (evaluate_lampAndAlarm (holdsPlain_lampAndAlarm rfl rfl) rfl)
  have htaught : (taught.evaluate ∅ none).1 = [lampResult, alarmResult] :=
    congrArg (·.1) (evaluate_lampAndAlarm (holdsPlain_lampAndAlarm rfl rfl) rfl)
  constructor
  · obtain ⟨hnone, hsome⟩ := decide_justified fresh ∅
    rw [hfresh] at hnone hsome
    obtain ⟨d, hd⟩ := Option.ne_none_iff_exists'.mp fun h => List.cons_ne_nil _ _ (hnone.mp h)
    have hjust := hsome d hd
    have hrules : d.source ≠ .learned := hjust.of_bootstrap fresh.schedule.phase_install
    exact ⟨d, hd, (Option.some.inj (hjust.of_rules hrules).1).symm, hrules, hjust⟩
  · have hprefers : taught.PrefersAlarm :=
      ⟨weights_of_hundred_days rfl rfl, rfl, learner, rfl, le_rfl, rfl, rfl⟩
    obtain ⟨d, _, hd, hsource, hresult, -⟩ := hprefers.decide htaught
    have hjust := (decide_justified taught ∅).2 d (congrArg (·.1) hd)
    rw [htaught] at hjust
    exact ⟨d, congrArg (·.1) hd, hresult, hsource, hjust⟩

end Engine

end ContextAdvisor
