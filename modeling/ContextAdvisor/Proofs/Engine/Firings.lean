import ContextAdvisor.Proofs.Engine.Frame
import ContextAdvisor.Proofs.Pacing.FiringLog

/-!
# What counts as a firing

An evaluation puts no rule among its results that still rests, and it notes a firing of the first
result and of no other. A decision notes what its evaluation notes, whatever it decides on. Besides
these two commands only the removal of a rule touches the limiter.
-/
namespace ContextAdvisor

variable {α : Type}

namespace Limiter

/-- A check may drop what is too old to count, but never the last firing of a rule. -/
theorem check_snd_lastFired (limiter : Limiter) (id : String) (cooldown : Duration) (kind : String)
    (now : Instant) : (limiter.check id cooldown kind now).2.lastFired = limiter.lastFired := by
  refine check_snd_of_kept (P := fun l => l.lastFired = limiter.lastFired) rfl (fun _ => ?_)
    (fun _ _ h => h) id cooldown
  rw [pruneKind_eq]

theorem cooldownLeft?_of_check {limiter : Limiter} {id : String} {cooldown : Duration}
    {kind : String} {now : Instant} (h : (limiter.check id cooldown kind now).1 = none) :
    limiter.cooldownLeft? id cooldown now = none := by
  unfold check at h
  split at h
  · simp at h
  · assumption

/-- A rule that does not rest has not fired within its cooldown, unless it seems to be long since
because the clock was moved too far back. -/
theorem cooldown_le_of_cooldownLeft? {limiter : Limiter} {id : String} {cooldown : Duration}
    {now last : Instant} (hc : 0 < cooldown) (hl : limiter.lastFired.get? id = some last)
    (hw : leastWord ≤ now - last) (h : limiter.cooldownLeft? id cooldown now = none) :
    cooldown ≤ now - last := by
  simp only [cooldownLeft?, hl] at h
  split_ifs at h with hrest
  have hpassed : cooldown ≤ wrappedDifference now last := not_lt.mp fun hlt => hrest ⟨hc, hlt⟩
  exact hpassed.trans (wrappedDifference_le hw)

end Limiter

namespace ScoredRule

theorem admitted_snd_lastFired (limiter : Limiter) (now : Instant)
    (results : List (ScoredRule α)) :
    (admitted limiter now results).2.lastFired = limiter.lastFired := by
  induction results generalizing limiter with
  | nil => rfl
  | cons s rest ih =>
    have hcheck := limiter.check_snd_lastFired s.rule.id s.rule.cooldown s.rule.action.kind now
    unfold admitted
    split
    · next next hc =>
      rw [hc] at hcheck
      exact (ih next).trans hcheck
    · next next hc =>
      rw [hc] at hcheck
      exact (ih next).trans hcheck

/-- What the limiter lets pass does not rest. -/
theorem cooldownLeft?_of_mem_admitted {limiter : Limiter} {now : Instant}
    {results : List (ScoredRule α)} {s : ScoredRule α}
    (h : s ∈ (admitted limiter now results).1) :
    limiter.cooldownLeft? s.rule.id s.rule.cooldown now = none := by
  induction results generalizing limiter with
  | nil => simp [admitted] at h
  | cons first rest ih =>
    have hlast := limiter.check_snd_lastFired first.rule.id first.rule.cooldown
      first.rule.action.kind now
    -- the rest of a rule is read off its last firing alone
    have hsame : ∀ next : Limiter, next.lastFired = limiter.lastFired →
        s ∈ (admitted next now rest).1 →
        limiter.cooldownLeft? s.rule.id s.rule.cooldown now = none := by
      intro next hn hs
      have hnext := ih hs
      rwa [Limiter.cooldownLeft?, hn] at hnext
    unfold admitted at h
    split at h
    · next next hc =>
      rw [hc] at hlast
      rcases List.mem_cons.mp h with rfl | h
      · exact Limiter.cooldownLeft?_of_check (congrArg (·.1) hc)
      · exact hsame next hlast h
    · next next hc =>
      rw [hc] at hlast
      exact hsame next hlast h

end ScoredRule

namespace Engine

section

variable [Scalar α]

/-- Every result stands for a rule of the table that does not rest. -/
theorem exists_rested_of_mem_evaluate {engine : Engine α} {context : Context}
    {limit : Option Nat} {result : RuleMatch α} (h : result ∈ (engine.evaluate context limit).1) :
    ∃ rule ∈ engine.table.rules, rule.id = result.ruleId ∧
      engine.limiter.cooldownLeft? rule.id rule.cooldown engine.clock = none := by
  unfold evaluate at h
  split_ifs at h with hl
  · simp at h
  · obtain ⟨s, hs, rfl⟩ := exists_admitted_of_mem_report h
    have hscored := (ScoredRule.admitted_sublist _ _ _).subset hs
    obtain ⟨place, _, hr, _⟩ := exists_rule_of_mem_scored hscored
    exact ⟨s.rule, List.mem_of_getElem? hr, rfl, ScoredRule.cooldownLeft?_of_mem_admitted hs⟩

/-- A report notes a firing of its first result. -/
theorem report_snd_lastFired (engine : Engine α) (scored : List (ScoredRule α))
    (limit : Option Nat) (id : String) :
    (engine.report scored limit).2.limiter.lastFired.get? id =
      if (engine.report scored limit).1.head?.map (·.ruleId) = some id then some engine.clock
      else engine.limiter.lastFired.get? id := by
  have hpassed := ScoredRule.admitted_snd_lastFired engine.limiter engine.clock scored
  obtain ⟨results, hresults⟩ : ∃ results, engine.report scored limit =
      engine.announce (ScoredRule.admitted engine.limiter engine.clock scored).2 results :=
    ⟨_, rfl⟩
  rw [hresults]
  cases results with
  | nil => simp [announce, hpassed]
  | cons top rest =>
    simp only [announce, Limiter.record, Dictionary.get?_insert, hpassed, List.map_cons,
      List.head?_cons, Option.map_some, Option.some.injEq, ScoredRule.toMatch, eq_comm]

/-- An evaluation notes a firing of its first result. -/
theorem evaluate_snd_lastFired (engine : Engine α) (context : Context) (limit : Option Nat)
    (id : String) : (engine.evaluate context limit).2.limiter.lastFired.get? id =
      if (engine.evaluate context limit).1.head?.map (·.ruleId) = some id then some engine.clock
      else engine.limiter.lastFired.get? id := by
  by_cases hlimit : limit = some 0
  · simp [evaluate, hlimit]
  · rw [evaluate, if_neg hlimit]
    exact engine.report_snd_lastFired _ _ _

/-- Removing a rule takes its last firing away, and no other. -/
theorem removeRule_snd_lastFired (engine : Engine α) {removed id : String} (h : removed ≠ id) :
    (engine.removeRule removed).2.limiter.lastFired.get? id =
      engine.limiter.lastFired.get? id := by
  unfold removeRule
  split
  · exact (Dictionary.get?_erase ..).trans (if_neg h.symm)
  · rfl

end

variable [Analytic α]

/-- A decision notes what its evaluation notes. -/
theorem decide_snd_limiter (engine : Engine α) (context : Context) :
    (engine.decide context).2.limiter = (engine.evaluate context none).2.limiter :=
  congrArg (·.limiter) (engine.decide_snd context)

/-- A decision is for one of the results of its evaluation, and for the first of them unless the
learner gets its way. -/
theorem decide_result {engine : Engine α} {context : Context} {d : Decision α}
    (h : (engine.decide context).1 = some d) :
    d.result ∈ (engine.evaluate context none).1 ∧
      (d.source ≠ .learned → (engine.evaluate context none).1.head? = some d.result) := by
  cases hr : (engine.evaluate context none).1 with
  | nil => simp [decide, hr] at h
  | cons top rest =>
    obtain ⟨d', hd', -, hcases⟩ :=
      choose_cases (engine.evaluate context none).2 top (top :: rest) context
    rw [← decide_of_cons hr, h] at hd'
    obtain rfl := Option.some.inj hd'
    rcases hcases with ⟨-, htop, -⟩ | ⟨hs, -, selected, -, hfind, -⟩
    · simp [htop]
    · exact ⟨List.mem_of_find?_eq_some hfind, fun hrules => absurd hs hrules⟩

/-- The clock is not moved back. -/
def MovesForward (engine : Engine α) (command : Command α) : Prop :=
  engine.clock ≤ (engine.run command).2.clock

instance decidableMovesForward (engine : Engine α) (command : Command α) :
    Decidable (engine.MovesForward command) :=
  inferInstanceAs (Decidable (_ ≤ _))

/-- The results of a command that evaluates the rules. -/
def evaluated? (engine : Engine α) : Command α → Option (List (RuleMatch α))
  | .evaluate context limit => some (engine.evaluate context limit).1
  | .decide context => some (engine.evaluate context none).1
  | _ => none

/-- Every result of a command stands for a rule of the table that does not rest. -/
theorem exists_rested_of_mem_evaluated {engine : Engine α} {command : Command α}
    {results : List (RuleMatch α)} {result : RuleMatch α}
    (h : engine.evaluated? command = some results) (hr : result ∈ results) :
    ∃ rule ∈ engine.table.rules, rule.id = result.ruleId ∧
      engine.limiter.cooldownLeft? rule.id rule.cooldown engine.clock = none := by
  cases command with
  | evaluate context limit =>
    obtain rfl := Option.some.inj h
    exact exists_rested_of_mem_evaluate hr
  | decide context =>
    obtain rfl := Option.some.inj h
    exact exists_rested_of_mem_evaluate hr
  | _ => simp [evaluated?] at h

/-- What a command decides on is among its results. -/
theorem exists_evaluated_of_decision {engine : Engine α} {command : Command α}
    {d : Decision α} (h : (engine.run command).1 = .decision (some d)) :
    ∃ results, engine.evaluated? command = some results ∧ d.result ∈ results := by
  cases command with
  | decide context => exact ⟨_, rfl, (decide_result (Reply.decision.inj h)).1⟩
  | _ => simp [run, reply] at h

/-- A command that neither evaluates the rules nor removes one leaves the limiter as it is. -/
theorem run_snd_limiter (engine : Engine α) {command : Command α}
    (hquiet : engine.evaluated? command = none) (hkeep : ∀ id, command ≠ .removeRule id) :
    (engine.run command).2.limiter = engine.limiter := by
  refine (engine.frame_run command).limiter ?_
  cases command with
  | evaluate context limit => simp [evaluated?] at hquiet
  | decide context => simp [evaluated?] at hquiet
  | removeRule id => exact absurd rfl (hkeep id)
  | _ => rfl

/-- A command that evaluates notes a firing of its first result. The last firing of any other rule
stays as it is, unless the rule is removed. -/
theorem run_snd_lastFired (engine : Engine α) {command : Command α} {id : String}
    (h : command ≠ .removeRule id) : (engine.run command).2.limiter.lastFired.get? id =
      if ((engine.evaluated? command).bind List.head?).map (·.ruleId) = some id then
        some engine.clock
      else engine.limiter.lastFired.get? id := by
  cases command with
  | evaluate context limit => exact engine.evaluate_snd_lastFired context limit id
  | decide context =>
    refine Eq.trans ?_ (engine.evaluate_snd_lastFired context none id)
    exact congrArg (·.lastFired.get? id) (engine.decide_snd_limiter context)
  | removeRule removed =>
    exact engine.removeRule_snd_lastFired fun hsame => h (congrArg Command.removeRule hsame)
  | _ =>
    rw [run_snd_limiter]
    · rfl
    · rfl
    · simp

end Engine

end ContextAdvisor
