import ContextAdvisor.Proofs.Engine.EqualRewards
import ContextAdvisor.Proofs.Engine.Firings

/-!
# Cooldowns over runs

Once a rule has fired, its last firing is never dated back: a rule with a cooldown can fire again
only after it, whichever way the clock was moved meanwhile. So an evaluation that comes too soon
does not report the rule, unless the rule was removed in between. Only if the clock is moved back by
more than a word can tell, the last firing seems to be long since; on a clock that is not moved back
at all this cannot happen. A decision leaves no such mark on the rule it is for unless that rule is
the first result of the evaluation.
-/
namespace ContextAdvisor.Engine

variable {α : Type} [Analytic α]

/-- A command that does not remove the rule with an identity and that, if it evaluates the rules,
finds it with a given cooldown. -/
structure KeepsRule (id : String) (cooldown : Duration) (engine : Engine α)
    (command : Command α) : Prop where
  kept : command ≠ .removeRule id
  cooldown_eq : (engine.evaluated? command).isSome →
    ∀ rule ∈ engine.table.rules, rule.id = id → rule.cooldown = cooldown

/-- If a command evaluates the rules, is the clock not too far behind the last firing of the rule
for the difference to fit a word? -/
def InReach (id : String) (engine : Engine α) (command : Command α) : Prop :=
  (engine.evaluated? command).isSome →
    ∀ last ∈ engine.limiter.lastFired.get? id, leastWord ≤ engine.clock - last

/-- The last firing of a rule that the limiter knows of is not before a given instant. -/
def FiredSince (id : String) (time : Instant) (engine : Engine α) : Prop :=
  ∃ last, engine.limiter.lastFired.get? id = some last ∧ time ≤ last

variable {engine : Engine α} {command : Command α} {results : List (RuleMatch α)} {id : String}
  {cooldown : Duration} {time : Instant}

/-- A rule is not among the results of a command before its cooldown is over. -/
theorem add_cooldown_le_clock (hc : 0 < cooldown) (hf : engine.FiredSince id time)
    (hk : engine.KeepsRule id cooldown command) (hw : engine.InReach id command)
    (hr : engine.evaluated? command = some results) (hid : id ∈ results.map (·.ruleId)) :
    time + cooldown ≤ engine.clock := by
  obtain ⟨last, hlast, htime⟩ := hf
  obtain ⟨result, hresult, rfl⟩ := List.mem_map.mp hid
  obtain ⟨rule, hrule, hsame, hrested⟩ := exists_rested_of_mem_evaluated hr hresult
  rw [hsame, hk.cooldown_eq (by simp [hr]) rule hrule hsame] at hrested
  have hpassed :=
    Limiter.cooldown_le_of_cooldownLeft? hc hlast (hw (by simp [hr]) last hlast) hrested
  exact (Int.add_le_add_right htime _).trans (Int.add_le_of_le_sub_left hpassed)

/-- No command dates the last firing of a rule back. -/
theorem FiredSince.run (hc : 0 < cooldown) (hf : engine.FiredSince id time)
    (hk : engine.KeepsRule id cooldown command) (hw : engine.InReach id command) :
    (engine.run command).2.FiredSince id time := by
  rw [FiredSince, run_snd_lastFired engine hk.kept]
  split_ifs with hfirst
  · -- the rule fires again, but not before its cooldown is over
    obtain ⟨top, htop, rfl⟩ := Option.map_eq_some_iff.mp hfirst
    obtain ⟨results, hr, hhead⟩ := Option.bind_eq_some_iff.mp htop
    have hmem : top.ruleId ∈ results.map (·.ruleId) :=
      List.mem_map_of_mem (List.mem_of_mem_head? hhead)
    have hsoon := add_cooldown_le_clock hc hf hk hw hr hmem
    exact ⟨engine.clock, rfl, (Int.le_add_of_nonneg_right hc.le).trans hsoon⟩
  · exact hf

/-- A command that evaluates the rules marks its first result as fired. -/
theorem firedSince_run {top : RuleMatch α} {rest : List (RuleMatch α)}
    (h : engine.evaluated? command = some (top :: rest)) :
    (engine.run command).2.FiredSince top.ruleId engine.clock := by
  have hk : command ≠ .removeRule top.ruleId := by
    rintro rfl
    simp [evaluated?] at h
  exact ⟨engine.clock, by rw [run_snd_lastFired engine hk, h]; simp, le_rfl⟩

/-- A rule that has fired is not among the results of a later command before its cooldown is
over. -/
theorem add_cooldown_le_clock_after (hc : 0 < cooldown) (hf : engine.FiredSince id time)
    {between : List (Command α)}
    (hk : Run.Always run (KeepsRule id cooldown) engine (between ++ [command]))
    (hw : Run.Always run (InReach id) engine (between ++ [command]))
    (hr : (Run.after run engine between).evaluated? command = some results)
    (hid : id ∈ results.map (·.ruleId)) :
    time + cooldown ≤ (Run.after run engine between).clock := by
  obtain ⟨hkept, hkeeps, -⟩ := Run.always_append.mp hk
  obtain ⟨hreached, hreaches, -⟩ := Run.always_append.mp hw
  have hfired : (Run.after run engine between).FiredSince id time :=
    Run.after_of_always (fun _ _ h hf => hf.run hc h.1 h.2) (Run.always_and hkept hreached) hf
  exact add_cooldown_le_clock hc hfired hkeeps hreaches hr hid

/-- Has a rule fired at no instant after a given one, as far as the limiter knows? -/
def FiredUntil (id : String) (time : Instant) (engine : Engine α) : Prop :=
  ∀ last ∈ engine.limiter.lastFired.get? id, last ≤ time

namespace FiredUntil

theorem run (h : engine.FiredUntil id time) (ht : engine.clock ≤ time)
    (hk : command ≠ .removeRule id) : (engine.run command).2.FiredUntil id time := by
  intro last hlast
  rw [run_snd_lastFired engine hk] at hlast
  split_ifs at hlast
  · rw [← Option.mem_some_iff.mp hlast]
    exact ht
  · exact h last hlast

theorem inReach (h : engine.FiredUntil id time) (hw : leastWord ≤ engine.clock - time)
    (command : Command α) : engine.InReach id command :=
  fun _ last hlast => hw.trans (Int.sub_le_sub_left (h last hlast) engine.clock)

/-- On a clock that is not moved back, the last firing of a rule stays in reach. -/
theorem always_inReach (h : engine.FiredUntil id engine.clock) {commands : List (Command α)}
    (hf : Run.Always Engine.run MovesForward engine commands)
    (hk : Run.Always Engine.run (KeepsRule id cooldown) engine commands) :
    Run.Always Engine.run (InReach id) engine commands := by
  refine Run.always_of_always (Q := fun e : Engine α => e.FiredUntil id e.clock)
    (fun e _ h hq last hlast => ?_) (fun e command hq => hq.inReach ?_ command)
    (Run.always_and hf hk) h
  · exact (hq.run le_rfl h.2.kept last hlast).trans h.1
  · rw [Int.sub_self]
    decide

end FiredUntil

theorem cooldown_of_mem_lampAndAlarm {lamp alarm : Duration} {rule : Rule ℝ}
    (h : rule ∈ lampAndAlarm lamp alarm) (hid : rule.id = "a") : rule.cooldown = lamp := by
  simp only [lampAndAlarm, List.mem_cons, List.not_mem_nil, or_false] at h
  rcases h with rfl | rfl
  · rfl
  · simp [Rule.unconditional] at hid

/-- If a rule is the first result of a command, no command reports it or decides on it before its
cooldown is over, however the clock was moved in between, as long as its last firing stays in reach,
unless the rule was removed. -/
theorem silent_after_firing {fire again : Command α} {between : List (Command α)}
    {top : RuleMatch α} {rest : List (RuleMatch α)} (hc : 0 < cooldown)
    (hfire : engine.evaluated? fire = some (top :: rest))
    (hk : Run.Always run (KeepsRule top.ruleId cooldown) (engine.run fire).2
      (between ++ [again]))
    (hw : Run.Always run (InReach top.ruleId) (engine.run fire).2 (between ++ [again]))
    (hsoon : (Run.after run (engine.run fire).2 between).clock < engine.clock + cooldown) :
    let later := Run.after run (engine.run fire).2 between
    (∀ results, later.evaluated? again = some results → ∀ result ∈ results,
        result.ruleId ≠ top.ruleId) ∧
      ∀ d, (later.run again).1 = .decision (some d) → d.result.ruleId ≠ top.ruleId := by
  intro later
  have hsilent : ∀ results, later.evaluated? again = some results → ∀ result ∈ results,
      result.ruleId ≠ top.ruleId := by
    intro results hr result hresult hid
    have hmem : top.ruleId ∈ results.map (·.ruleId) := hid ▸ List.mem_map_of_mem hresult
    exact hsoon.not_ge (add_cooldown_le_clock_after hc (firedSince_run hfire) hk hw hr hmem)
  refine ⟨hsilent, fun d hd => ?_⟩
  obtain ⟨results, hr, hresult⟩ := exists_evaluated_of_decision hd
  exact hsilent results hr d.result hresult

/-- The lamp fires, and the clock is moved back and forth. -/
theorem silent_after_firing_lamp :
    let engine : Engine ℝ := (start Settings.standard 0 .steady).loadRules (lampAndAlarm 1000 0)
    let between : List (Command ℝ) := [.setClock (-500), .evaluate ∅ (some 1), .setClock 999]
    let later := Run.after run (engine.evaluate ∅ none).2 between
    (engine.evaluate ∅ none).1.head?.map (·.ruleId) = some "a" ∧
      (∀ result ∈ (later.evaluate ∅ none).1, result.ruleId ≠ "a") ∧
      ∀ d, (later.decide ∅).1 = some d → d.result.ruleId ≠ "a" := by
  intro engine between later
  have hplain : engine.HoldsPlain (lampAndAlarm 1000 0) := holdsPlain_lampAndAlarm rfl rfl
  have he := evaluate_lampAndAlarm hplain rfl
  have hfire : engine.evaluated? (.evaluate ∅ none) = some [lampResult, alarmResult] := by
    rw [evaluated?, he]
  have hk : Run.Always run (KeepsRule "a" 1000) (engine.evaluate ∅ none).2
      (between ++ [.decide ∅]) := by
    refine ⟨⟨by simp, by simp [evaluated?]⟩, ⟨by simp, fun _ => ?_⟩,
      ⟨by simp, by simp [evaluated?]⟩, ⟨by simp, fun _ => ?_⟩, trivial⟩
    -- neither evaluations nor the clock change the rules
    all_goals
      simp only [run, reply, evaluate_snd_table]
      exact fun _ => cooldown_of_mem_lampAndAlarm
  have hw : Run.Always run (InReach "a") (engine.evaluate ∅ none).2 (between ++ [.decide ∅]) := by
    have hfresh : engine.FiredUntil "a" 0 := fun _ hlast => absurd hlast (Option.not_mem_none _)
    have hfired : (engine.run (.evaluate ∅ none)).2.FiredUntil "a" 0 := hfresh.run le_rfl (by simp)
    let early := ((engine.run (.evaluate ∅ none)).2.run (.setClock (-500))).2
    have hback : early.FiredUntil "a" 0 := hfired.run (by rw [run, reply, he]; rfl) (by simp)
    have hagain : (early.run (.evaluate ∅ (some 1))).2.FiredUntil "a" 0 :=
      hback.run (by decide) (by simp)
    have hforth : ((early.run (.evaluate ∅ (some 1))).2.run (.setClock 999)).2.FiredUntil "a" 0 :=
      hagain.run (by decide) (by simp)
    exact ⟨by simp [InReach, evaluated?], hback.inReach (by decide) _,
      by simp [InReach, evaluated?], hforth.inReach (by decide) _, trivial⟩
  obtain ⟨hsilent, hundecided⟩ := silent_after_firing (by decide) hfire hk hw (by decide)
  refine ⟨?_, hsilent _ rfl, fun d hd => hundecided d (congrArg Reply.decision hd)⟩
  rw [he]
  rfl

/-- A decision for the first result of its evaluation, as every decision for the rules is, lets the
rule rest: no decision is for it again before its cooldown is over, if the clock is not moved back
or the last firing of the rule stays in reach, unless the rule was removed. A decision for another
result leaves the last firing of its rule as it was. -/
theorem decided_rule_rests {after : Engine α} {context : Context} {d : Decision α}
    (hd : engine.decide context = (some d, after)) (hc : 0 < cooldown) :
    let first := (engine.evaluate context none).1.head?.map (·.ruleId)
    let id := d.result.ruleId
    (d.source ≠ .learned → first = some id) ∧
      (first ≠ some id →
        after.limiter.lastFired.get? id = engine.limiter.lastFired.get? id) ∧
      (first = some id → ∀ (between : List (Command α)) (again : Context),
        let commands := between ++ [.decide again]
        let later := Run.after run after between
        Run.Always run (KeepsRule id cooldown) after commands →
          Run.Always run MovesForward after commands ∨
              Run.Always run (InReach id) after commands →
            later.clock < engine.clock + cooldown →
              ∀ d', (later.decide again).1 = some d' → d'.result.ruleId ≠ id) := by
  intro first id
  have hafter : after = (engine.run (.decide context)).2 := (congrArg (·.2) hd).symm
  refine ⟨fun hs => ?_, fun hother => ?_, ?_⟩
  · exact congrArg (Option.map (·.ruleId)) ((decide_result (congrArg (·.1) hd)).2 hs)
  · rw [hafter, run_snd_lastFired engine (by simp)]
    exact if_neg hother
  · intro hfirst between again commands later hk hmoved hsoon d' hd' hid
    have hlast : after.limiter.lastFired.get? id = some engine.clock := by
      rw [hafter, run_snd_lastFired engine (by simp)]
      exact if_pos hfirst
    have hw : Run.Always run (InReach id) after commands := by
      refine hmoved.elim (fun hforward => ?_) fun h => h
      have huntil : after.FiredUntil id after.clock := by
        intro last hl
        rw [hlast, hafter] at *
        obtain rfl := Option.some.inj hl
        exact (congrArg (·.clock) (engine.decide_snd context)).ge
      exact huntil.always_inReach hforward hk
    have hmem : id ∈ ((later.evaluate again none).1).map (·.ruleId) :=
      hid ▸ List.mem_map_of_mem (decide_result hd').1
    exact hsoon.not_ge
      (add_cooldown_le_clock_after hc ⟨engine.clock, hlast, le_rfl⟩ hk hw rfl hmem)

/-- The lamp is decided on and then rests, so that the next decision is for the alarm. -/
theorem decided_rule_rests_lamp :
    let engine : Engine ℝ := (start Settings.standard 0 .steady).loadRules (lampAndAlarm 1000 0)
    ∃ d after d', engine.decide ∅ = (some d, after) ∧ d.result.ruleId = "a" ∧
      ((after.run (.advanceClock 999)).2.decide ∅).1 = some d' ∧ d'.result.ruleId ≠ "a" := by
  intro engine
  have hplain : engine.HoldsPlain (lampAndAlarm 1000 0) := holdsPlain_lampAndAlarm rfl rfl
  have he := evaluate_lampAndAlarm hplain rfl
  obtain ⟨d, after, hd, hjust⟩ := exists_justified_decide (congrArg (·.1) he)
  have hid : d.result.ruleId = "a" := by
    have hfirst := (hjust.of_rules (hjust.of_bootstrap engine.schedule.phase_install)).1
    rw [← Option.some.inj hfirst]
    rfl
  have hafter := engine.decide_snd ∅
  rw [hd, he] at hafter
  let later := (after.run (.advanceClock 999)).2
  have htable : later.table = engine.table := congrArg (·.table) hafter
  have hclock : later.clock = 999 := congrArg (·.clock + 999) hafter
  have hlimiter : later.limiter = (Limiter.ofLimits .standard).record "a" "light" 0 :=
    congrArg (·.limiter) hafter
  have hagain : (later.evaluate ∅ none).1 = [alarmResult] := by
    rw [(hplain.congr (congrArg (·.rules) htable) (congrArg (·.settings) hafter)).evaluate_fst,
      hlimiter, hclock]
    rfl
  obtain ⟨d', _, hd', -⟩ := exists_justified_decide hagain
  have hk : Run.Always run (KeepsRule d.result.ruleId 1000) after
      [.advanceClock 999, .decide ∅] := by
    refine ⟨⟨by simp, by simp [evaluated?]⟩, ⟨by simp, fun _ => ?_⟩, trivial⟩
    show ∀ rule ∈ later.table.rules, _
    rw [htable, hid]
    exact fun _ => cooldown_of_mem_lampAndAlarm
  have hforward : Run.Always run MovesForward after [.advanceClock 999, .decide ∅] :=
    ⟨Int.le_add_of_nonneg_right (by decide), (congrArg (·.clock) (later.decide_snd ∅)).ge, trivial⟩
  have hsoon : later.clock < engine.clock + 1000 := by
    rw [hclock]
    decide
  obtain ⟨-, -, hrests⟩ := decided_rule_rests hd (by decide : (0 : Duration) < 1000)
  have hne := hrests (by rw [he, hid]; rfl) [.advanceClock 999] ∅ hk (.inl hforward) hsoon d'
    (congrArg (·.1) hd')
  exact ⟨d, after, d', hd, hid, congrArg (·.1) hd', hid ▸ hne⟩

/-- An engine with settled weights that explores nothing. -/
noncomputable def settledEngine : Engine ℝ :=
  start { Settings.standard with
    installTime := some 0
    bandit := { BanditSettings.standard with epsilon := 0 } } (100 * Duration.day) .steady

/-- The same engine after five equal rewards for the alarm. -/
noncomputable def insistent (reward : ℝ) : Engine ℝ :=
  Run.after run settledEngine
    (.loadRules (lampAndAlarm 0 Duration.hour) :: List.replicate 5 (.reward "alarm" reward))

theorem equallyRewarded_insistent :
    (settledEngine.loadRules (lampAndAlarm 0 Duration.hour)).EquallyRewarded
      (.ofEpsilon 0 .steady) "alarm" 2 5 (insistent 2) := by
  have hclip : |(2 : ℝ)| ≤ settledEngine.guard.rewards.clip := by
    show |(2 : ℝ)| ≤ 3.0
    norm_num
  exact equallyRewarded_after rfl rfl hclip (abs_nonneg _) (by decide)

theorem prefersAlarm_insistent : (insistent 2).PrefersAlarm := by
  obtain ⟨hrest, -, arms, hbandit, harms⟩ := equallyRewarded_insistent
  refine ⟨weights_of_hundred_days ?_ ?_, ?_, _, hbandit, ?_, ?_, ?_⟩
  · rw [hrest]
    rfl
  · rw [hrest]
    rfl
  · rw [hrest]
    rfl
  · norm_num [EpsilonGreedy.ofEpsilon, Scalar.clamp]
  · rw [harms, if_neg (by decide)]
    rfl
  · rw [harms, if_pos rfl]

/-- The alarm is decided on twice at the same time, although it has to rest for an hour. -/
theorem decided_twice :
    let engine := insistent 2
    (engine.table.rules.filter (·.id == "b")).map (·.cooldown) = [Duration.hour] ∧
      ∃ d after d', engine.decide ∅ = (some d, after) ∧ (after.decide ∅).1 = some d' ∧
        after.clock = engine.clock ∧ after.table = engine.table ∧
        d.result.ruleId = "b" ∧ d'.result.ruleId = "b" := by
  intro engine
  have hrest := equallyRewarded_insistent.later_eq
  have htable : engine.table.rules = lampAndAlarm 0 Duration.hour :=
    congrArg (·.table.rules) hrest
  have hplain := holdsPlain_lampAndAlarm htable (congrArg (·.settings.minConfidence) hrest)
  have he := evaluate_lampAndAlarm hplain (congrArg (·.limiter) hrest)
  obtain ⟨d, after, hd, -, hresult, hprefers⟩ :=
    prefersAlarm_insistent.decide (congrArg (·.1) he)
  have hafter := engine.decide_snd ∅
  rw [hd, he] at hafter
  have hstart : engine.clock = 100 * Duration.day := congrArg (·.clock) hrest
  have hclock : after.clock = 100 * Duration.day := (congrArg (·.clock) hafter).trans hstart
  have hlimiter : after.limiter =
      (Limiter.ofLimits .standard).record "a" "light" (100 * Duration.day) :=
    (congrArg (·.limiter) hafter).trans (by rw [hstart])
  have hagain : (after.evaluate ∅ none).1 = [lampResult, alarmResult] := by
    rw [(hplain.congr (congrArg (·.table.rules) hafter)
      (congrArg (·.settings) hafter)).evaluate_fst, hlimiter, hclock]
    rfl
  obtain ⟨d', _, hd', -, hresult', -⟩ := hprefers.decide hagain
  refine ⟨?_, d, after, d', hd, congrArg (·.1) hd', congrArg (·.clock) hafter,
    congrArg (·.table) hafter, ?_, ?_⟩
  · rw [htable]
    simp [lampAndAlarm, Rule.unconditional]
  · rw [hresult]
    rfl
  · rw [hresult']
    rfl

end ContextAdvisor.Engine
