import ContextAdvisor.Proofs.Engine.Firings
import ContextAdvisor.Proofs.Pacing.FiringLog

/-!
# Caps on firings over runs

As long as the clock does not run backwards, the limiter of an engine holds what matters of the log
of all firings of its run, whatever happens to the rules. A rule fires only if it passes a check
first, and then the log has room for it. So every firing comes when fewer than the cap allows lie in
the window before it, and therefore no window of that span, wherever it ends, holds more than the
cap.

This presupposes that the window before the start of the run does not reach beyond the least word.
If it does, its cutoff wraps around and lies ahead of the clock, so that firings are dropped while
they count. The cap of a kind is looked at only if the kind has fired before, so a cap of zero still
lets every kind fire once.
-/
namespace ContextAdvisor

/-- In a list of times, the latest one first, do fewer than `cap` of the earlier ones lie within a
span before each time? -/
def Spaced (cap : Nat) (span : Duration) : List Instant → Prop
  | [] => True
  | t :: earlier => (earlier.filter (t - span ≤ ·)).length < cap ∧ Spaced cap span earlier

/-- If a list is spaced, no window of the span holds more than `cap` of its times. -/
theorem Spaced.length_filter_le {cap : Nat} {span : Duration} {times : List Instant}
    (h : Spaced cap span times) (t : Instant) :
    (times.filter fun s => t - span ≤ s ∧ s ≤ t).length ≤ cap := by
  induction times with
  | nil => exact Nat.zero_le _
  | cons s earlier ih =>
    obtain ⟨hfew, hearlier⟩ := h
    by_cases hs : t - span ≤ s ∧ s ≤ t
    · -- the earlier times in the window lie within the span before `s`
      have hsub : (earlier.filter fun r => t - span ≤ r ∧ r ≤ t).length ≤
          (earlier.filter (s - span ≤ ·)).length := by
        refine (List.monotone_filter_right earlier fun r hr => ?_).length_le
        simp only [decide_eq_true_eq] at hr ⊢
        exact (Int.sub_le_sub_right hs.2 span).trans hr.1
      rw [List.filter_cons_of_pos (by simpa using hs), List.length_cons]
      omega
    · rw [List.filter_cons_of_neg (by simpa using hs)]
      exact ih hearlier

namespace FiringLog

/-- Is there room for one more firing of a kind, in a run that began at a first instant? A window
that reaches beyond the least word is not looked at. With a cap of zero for each kind there is room
for the first one. -/
structure HasRoom (log : FiringLog) (kind : String) (first now : Instant) : Prop where
  allowed : 0 < log.limits.globalMaxPerHour
  hour : leastWord ≤ first - Duration.hour →
    log.count (now - Duration.hour) < log.limits.globalMaxPerHour
  ofKind : leastWord ≤ first - log.limits.categoryWindow → 1 ≤ log.limits.categoryMax →
    log.countOf kind (now - log.limits.categoryWindow) < log.limits.categoryMax
  unfired : log.limits.categoryMax = 0 → ∀ f ∈ log.firings, f.kind ≠ kind

/-- Does the log of a run that began at a first instant keep to the caps? -/
structure KeepsCaps (log : FiringLog) (first : Instant) : Prop where
  hour : leastWord ≤ first - Duration.hour →
    Spaced log.limits.globalMaxPerHour Duration.hour log.times
  ofKind : leastWord ≤ first - log.limits.categoryWindow → 1 ≤ log.limits.categoryMax →
    ∀ kind, Spaced log.limits.categoryMax log.limits.categoryWindow (log.timesOf kind)
  never : log.limits.globalMaxPerHour = 0 → log.firings = []
  once : log.limits.categoryMax = 0 → ∀ kind, (log.timesOf kind).length ≤ 1

namespace KeepsCaps

variable {log next : FiringLog} {first : Instant}

theorem ofLimits (limits : FiringLimits) (first : Instant) :
    (FiringLog.ofLimits limits).KeepsCaps first where
  hour _ := trivial
  ofKind _ _ _ := trivial
  never _ := rfl
  once _ _ := Nat.zero_le _

theorem congr (h : log.KeepsCaps first) (hlimits : next.limits = log.limits)
    (hfirings : next.firings = log.firings) : next.KeepsCaps first where
  hour := by
    rw [hlimits, times, hfirings]
    exact h.hour
  ofKind := by
    simp only [hlimits, timesOf, hfirings]
    exact h.ofKind
  never := by
    rw [hlimits, hfirings]
    exact h.never
  once := by
    simp only [hlimits, timesOf, hfirings]
    exact h.once

/-- A firing for which there is room keeps to the caps. -/
theorem noting (h : log.KeepsCaps first) {firing : Firing}
    (hroom : log.HasRoom firing.kind first firing.time) : (log.noting firing).KeepsCaps first where
  hour hw := by
    rw [times_noting]
    refine ⟨?_, h.hour hw⟩
    rw [← count_eq]
    exact hroom.hour hw
  ofKind hw hm kind := by
    rw [timesOf_noting]
    split_ifs with hkind
    · subst hkind
      refine ⟨?_, h.ofKind hw hm _⟩
      rw [← countOf_eq]
      exact hroom.ofKind hw hm
    · exact h.ofKind hw hm kind
  never hzero := absurd hzero hroom.allowed.ne'
  once hzero kind := by
    rw [timesOf_noting]
    split_ifs with hkind
    · -- there is room only if the kind has not fired yet
      have hnone : log.timesOf kind = [] := by
        simpa [timesOf, hkind] using hroom.unfired hzero
      simp [hnone]
    · exact h.once hzero kind

end KeepsCaps

end FiringLog

namespace Limiter

/-- What a limiter holds of the log of a run that began at a first instant: every window that does
not reach beyond the least word, and every kind that has fired. -/
structure Mirrors (limiter : Limiter) (log : FiringLog) (first now : Instant) : Prop where
  limits : limiter.limits = log.limits
  started : first ≤ now
  hour : leastWord ≤ first - Duration.hour → limiter.HoldsHour log now
  kinds : leastWord ≤ first - limiter.limits.categoryWindow → limiter.HoldsKinds log now
  known : ∀ f ∈ log.firings, (limiter.byKind.get? f.kind).isSome

variable {limiter : Limiter} {log : FiringLog} {first now : Instant}

theorem mirrors_ofLimits (limits : FiringLimits) (first : Instant) :
    (ofLimits limits).Mirrors (.ofLimits limits) first first where
  limits := rfl
  started := le_rfl
  hour _ := holdsHour_ofLimits limits first
  kinds _ := holdsKinds_ofLimits limits first
  known _ hf := absurd hf List.not_mem_nil

/-- Pruning loses no kind. -/
theorem isSome_get?_pruneKind {kind other : String}
    (h : (limiter.byKind.get? other).isSome) (now : Instant) :
    ((limiter.pruneKind kind now).byKind.get? other).isSome := by
  rw [get?_pruneKind]
  split_ifs with ho
  · rw [current?, Option.isSome_map, ← ho]
    exact h
  · exact h

namespace Mirrors

/-- A window that does not reach beyond the least word at the start never does. -/
theorem reaches (h : limiter.Mirrors log first now) {span : Duration}
    (hw : leastWord ≤ first - span) : leastWord ≤ now - span :=
  hw.trans (Int.sub_le_sub_right h.started span)

theorem later (h : limiter.Mirrors log first now) {next : Instant} (hn : now ≤ next) :
    limiter.Mirrors log first next where
  limits := h.limits
  started := h.started.trans hn
  hour hw := (h.hour hw).later hn
  kinds hw := (h.kinds hw).later hn
  known := h.known

theorem pruneKind (h : limiter.Mirrors log first now) (kind : String) :
    (limiter.pruneKind kind now).Mirrors log first now := by
  have hlimits : (limiter.pruneKind kind now).limits = limiter.limits := by rw [pruneKind_eq]
  refine ⟨hlimits.trans h.limits, h.started, fun hw => (h.hour hw).pruneKind kind, fun hw => ?_,
    fun f hf => isSome_get?_pruneKind (h.known f hf) now⟩
  rw [hlimits] at hw
  exact (h.kinds hw).pruneKind (h.reaches hw) kind

theorem pruneAll (h : limiter.Mirrors log first now) :
    (limiter.pruneAll now).Mirrors log first now where
  limits := h.limits
  started := h.started
  hour hw := (h.hour hw).pruneAll (h.reaches hw)
  kinds hw := (h.kinds hw).pruneAll
  known := h.known

theorem check (h : limiter.Mirrors log first now) (id : String) (cooldown : Duration)
    (kind : String) : (limiter.check id cooldown kind now).2.Mirrors log first now :=
  check_snd_of_kept (P := fun l => l.Mirrors log first now) h (fun h => h.pruneKind kind)
    (fun _ _ h => h.pruneAll) id cooldown

/-- A check that refuses nothing finds room in the log. -/
theorem hasRoom_of_check (h : limiter.Mirrors log first now) {id : String} {cooldown : Duration}
    {kind : String} (hc : (limiter.check id cooldown kind now).1 = none) :
    log.HasRoom kind first now := by
  have hkind := h.pruneKind kind
  have hall := hkind.pruneAll
  unfold Limiter.check at hc
  split at hc
  · simp at hc
  · dsimp only at hc
    split_ifs at hc with hfull hhour
    rw [hall.limits, not_le] at hhour
    refine ⟨(Nat.zero_le _).trans_lt hhour, fun hw => ?_, fun hw hm => ?_,
      fun hzero f hf hsame => hfull ?_⟩
    · rw [log.count_eq]
      exact (hall.hour hw).length_filter_le.trans_lt hhour
    · rw [← hkind.limits] at hw hm
      rw [kindExhausted_iff hm, not_le] at hfull
      rw [log.countOf_eq, ← hkind.limits]
      exact (hkind.kinds hw kind).length_filter_le.trans_lt hfull
    · -- a kind that has fired is known, and a cap of zero is used up from the start
      have hknown := hkind.known f hf
      rw [hsame] at hknown
      obtain ⟨times, htimes⟩ := Option.isSome_iff_exists.mp hknown
      simp [kindExhausted, htimes, hkind.limits, hzero]

theorem record (h : limiter.Mirrors log first now) (id kind : String) :
    (limiter.record id kind now).Mirrors (log.noting ⟨id, kind, now⟩) first now := by
  refine ⟨h.limits, h.started, fun hw => (h.hour hw).record id kind,
    fun hw => (h.kinds hw).record id kind, fun f hf => ?_⟩
  simp only [Limiter.record, Dictionary.get?_insert]
  split_ifs with hsame
  · rfl
  · rcases List.mem_cons.mp hf with rfl | hf
    · exact absurd rfl hsame
    · exact h.known f hf

theorem forget (h : limiter.Mirrors log first now) (id : String) :
    (limiter.forget id).Mirrors { log with entries := .forgotten id :: log.entries } first now :=
  ⟨h.limits, h.started, h.hour, h.kinds, h.known⟩

end Mirrors

end Limiter

namespace ScoredRule

variable {α : Type} {limiter : Limiter} {log : FiringLog} {first now : Instant}

theorem admitted_snd_mirrors (h : limiter.Mirrors log first now) (results : List (ScoredRule α)) :
    (admitted limiter now results).2.Mirrors log first now := by
  induction results generalizing limiter with
  | nil => exact h
  | cons s rest ih =>
    have hcheck := h.check s.rule.id s.rule.cooldown s.rule.action.kind
    unfold admitted
    split
    · next next hc =>
      rw [hc] at hcheck
      exact ih hcheck
    · next next hc =>
      rw [hc] at hcheck
      exact ih hcheck

/-- What the limiter lets pass has room in the log. -/
theorem hasRoom_of_mem_admitted (h : limiter.Mirrors log first now)
    {results : List (ScoredRule α)} {s : ScoredRule α}
    (hs : s ∈ (admitted limiter now results).1) :
    log.HasRoom s.rule.action.kind first now := by
  induction results generalizing limiter with
  | nil => simp [admitted] at hs
  | cons t rest ih =>
    have hcheck := h.check t.rule.id t.rule.cooldown t.rule.action.kind
    unfold admitted at hs
    split at hs
    · next next hc =>
      rw [hc] at hcheck
      rcases List.mem_cons.mp hs with rfl | hs
      · exact h.hasRoom_of_check (congrArg (·.1) hc)
      · exact ih hcheck hs
    · next next hc =>
      rw [hc] at hcheck
      exact ih hcheck hs

end ScoredRule

/-- Does the reply report a result or a decision? -/
def Reply.reports {α : Type} : Reply α → Bool
  | .results (_ :: _) => true
  | .decision (some _) => true
  | _ => false

namespace Engine

section

variable {α : Type} [Scalar α] {engine : Engine α} {log : FiringLog} {first : Instant}

/-- The limiter goes on to mirror the log, with the firing of the first result, for which there was
room. -/
theorem evaluate_snd_mirrors (h : engine.limiter.Mirrors log first engine.clock)
    (context : Context) (limit : Option Nat) :
    match (engine.evaluate context limit).1 with
    | [] => (engine.evaluate context limit).2.limiter.Mirrors log first engine.clock
    | top :: _ => log.HasRoom top.action.kind first engine.clock ∧
      (engine.evaluate context limit).2.limiter.Mirrors
        (log.noting ⟨top.ruleId, top.action.kind, engine.clock⟩) first engine.clock := by
  by_cases hlimit : limit = some 0
  · rw [evaluate, if_pos hlimit]
    exact h
  · rw [evaluate, if_neg hlimit]
    have hpassed := ScoredRule.admitted_snd_mirrors h (engine.scored context)
    have hroom := @exists_admitted_of_mem_report _ _ engine (engine.scored context) limit
    obtain ⟨results, hresults⟩ : ∃ results, engine.report (engine.scored context) limit =
        engine.announce (ScoredRule.admitted engine.limiter engine.clock
          (engine.scored context)).2 results := ⟨_, rfl⟩
    rw [hresults] at hroom ⊢
    cases results with
    | nil => exact hpassed
    | cons top rest =>
      obtain ⟨s, hs, hsame⟩ := @hroom top.toMatch List.mem_cons_self
      have hkind : s.rule.action = top.rule.action := congrArg (·.action) hsame
      refine ⟨?_, hpassed.record _ _⟩
      show log.HasRoom top.rule.action.kind first engine.clock
      rw [← hkind]
      exact ScoredRule.hasRoom_of_mem_admitted h hs

end

variable {α : Type} [Analytic α] {engine : Engine α} {command : Command α} {log : FiringLog}
  {first : Instant}

/-- The firing that a command notes, that of the first of its results. -/
def fired? (engine : Engine α) (command : Command α) : Option Firing :=
  ((engine.evaluated? command).bind List.head?).map fun top =>
    ⟨top.ruleId, top.action.kind, engine.clock⟩

theorem time_of_fired? {firing : Firing} (h : engine.fired? command = some firing) :
    firing.time = engine.clock := by
  obtain ⟨top, -, rfl⟩ := Option.map_eq_some_iff.mp h
  rfl

/-- A command that notes a firing found room for it; the limiter goes on to mirror the log. -/
theorem exists_mirrors_run (h : engine.limiter.Mirrors log first engine.clock)
    (command : Command α) :
    ∃ next : FiringLog, (engine.run command).2.limiter.Mirrors next first engine.clock ∧
      match engine.fired? command with
      | some firing => next = log.noting firing ∧ log.HasRoom firing.kind first engine.clock
      | none => next.limits = log.limits ∧ next.firings = log.firings := by
  have hevaluated : ∀ context limit, ∃ next : FiringLog,
      (engine.evaluate context limit).2.limiter.Mirrors next first engine.clock ∧
        match engine.fired? (.evaluate context limit) with
        | some firing => next = log.noting firing ∧ log.HasRoom firing.kind first engine.clock
        | none => next.limits = log.limits ∧ next.firings = log.firings := by
    intro context limit
    have hmirrors := engine.evaluate_snd_mirrors h context limit
    simp only [fired?, evaluated?]
    cases hr : (engine.evaluate context limit).1 with
    | nil =>
      rw [hr] at hmirrors
      exact ⟨log, hmirrors, rfl, rfl⟩
    | cons top rest =>
      rw [hr] at hmirrors
      exact ⟨_, hmirrors.2, rfl, hmirrors.1⟩
  cases command with
  | evaluate context limit => exact hevaluated context limit
  | decide context =>
    have hlimiter : (engine.run (.decide context)).2.limiter =
        (engine.evaluate context none).2.limiter := engine.decide_snd_limiter context
    rw [hlimiter]
    exact hevaluated context none
  | removeRule id =>
    show ∃ next : FiringLog, (engine.removeRule id).2.limiter.Mirrors next first engine.clock ∧ _
    unfold removeRule
    split
    · exact ⟨_, h.forget id, rfl, rfl⟩
    · exact ⟨log, h, rfl, rfl⟩
  | _ =>
    rw [run_snd_limiter]
    · exact ⟨log, h, rfl, rfl⟩
    · rfl
    · simp

/-- The limiter mirrors the log of a run that began at a first instant, and the log keeps to the
caps. -/
structure Paced (engine : Engine α) (log : FiringLog) (first : Instant) : Prop where
  mirrors : engine.limiter.Mirrors log first engine.clock
  caps : log.KeepsCaps first

/-- Every command that does not move the clock back keeps to the caps. -/
theorem Paced.run (h : engine.Paced log first) (hf : engine.MovesForward command) :
    ∃ next : FiringLog, (engine.run command).2.Paced next first ∧ next.limits = log.limits ∧
      next.firings = (engine.fired? command).toList ++ log.firings := by
  obtain ⟨next, hmirrors, hnext⟩ := exists_mirrors_run h.mirrors command
  refine ⟨next, ?_⟩
  cases hfired : engine.fired? command with
  | none =>
    rw [hfired] at hnext
    obtain ⟨hlimits, hfirings⟩ := hnext
    exact ⟨⟨hmirrors.later hf, h.caps.congr hlimits hfirings⟩, hlimits, hfirings⟩
  | some firing =>
    rw [hfired] at hnext
    obtain ⟨rfl, hroom⟩ := hnext
    rw [← time_of_fired? hfired] at hroom
    exact ⟨⟨hmirrors.later hf, h.caps.noting hroom⟩, rfl, rfl⟩

theorem Paced.after (h : engine.Paced log first) {commands : List (Command α)}
    (hf : Run.Always Engine.run MovesForward engine commands) :
    ∃ last : FiringLog, (Run.after Engine.run engine commands).Paced last first ∧
      last.limits = log.limits ∧
      last.firings = (Run.collect Engine.run fired? engine commands).reverse ++ log.firings := by
  induction commands generalizing engine log with
  | nil => exact ⟨log, h, rfl, rfl⟩
  | cons command rest ih =>
    obtain ⟨hhere, hlater⟩ := hf
    obtain ⟨next, hnext, hlimits, hfirings⟩ := h.run hhere
    obtain ⟨last, hlast, hlimits', hfirings'⟩ := ih hnext hlater
    refine ⟨last, hlast, hlimits'.trans hlimits, ?_⟩
    rw [hfirings', hfirings, Run.collect, List.reverse_append, List.append_assoc]
    cases engine.fired? command <;> rfl

/-- The log of a run that starts afresh holds the firings of the run, the latest first. -/
theorem exists_paced_start (settings : Settings α) (clock : Instant) (generator : Generator α)
    {commands : List (Command α)}
    (hf : Run.Always run MovesForward (start settings clock generator) commands) :
    ∃ log : FiringLog,
      (Run.after run (start settings clock generator) commands).Paced log clock ∧
        log.limits = settings.rateLimits ∧
        log.firings.reverse =
          Run.collect run fired? (start settings clock generator) commands := by
  have hstart : (start settings clock generator).Paced (.ofLimits settings.rateLimits) clock :=
    ⟨Limiter.mirrors_ofLimits _ _, .ofLimits _ _⟩
  obtain ⟨log, hlog, hlimits, hfirings⟩ := hstart.after hf
  refine ⟨log, hlog, hlimits, ?_⟩
  rw [hfirings, List.reverse_append, List.reverse_reverse]
  rfl

/-- If a kind may fire at all, no window of a run whose clock is not moved back holds more firings
of the kind than the cap allows, if the window before the start does not reach beyond the least
word. With a cap of zero a kind fires once at most. -/
theorem firings_of_kind_le (settings : Settings α) (clock : Instant) (generator : Generator α)
    {commands : List (Command α)} (kind : String) :
    let fresh := start settings clock generator
    let limits := settings.rateLimits
    let firings := (Run.collect run fired? fresh commands).filter (·.kind = kind)
    Run.Always run MovesForward fresh commands →
      (1 ≤ limits.categoryMax → leastWord ≤ clock - limits.categoryWindow →
        ∀ t, (firings.filter fun f =>
          t - limits.categoryWindow ≤ f.time ∧ f.time ≤ t).length ≤ limits.categoryMax) ∧
      (limits.categoryMax = 0 → firings.length ≤ 1) := by
  intro fresh limits firings hf
  obtain ⟨log, hpaced, hlimits, hfirings⟩ := exists_paced_start settings clock generator hf
  have htimes : firings.map (·.time) = (log.timesOf kind).reverse := by
    rw [FiringLog.timesOf, ← List.map_reverse, ← List.filter_reverse, hfirings]
  have hcount : ∀ p : Instant → Bool, (firings.filter fun f => p f.time).length =
      ((log.timesOf kind).filter p).length := by
    intro p
    have hreverse : ((log.timesOf kind).reverse.filter p).length =
        ((log.timesOf kind).filter p).length := by
      rw [List.filter_reverse, List.length_reverse]
    rw [← hreverse, ← htimes, List.filter_map, List.length_map]
    rfl
  refine ⟨fun hm hw t => ?_, fun hzero => ?_⟩
  · rw [hcount fun s => t - limits.categoryWindow ≤ s ∧ s ≤ t]
    have hspaced := hpaced.caps.ofKind (hlimits ▸ hw) (hlimits ▸ hm) kind
    rw [hlimits] at hspaced
    exact hspaced.length_filter_le t
  · rw [← List.length_map (·.time), htimes, List.length_reverse]
    exact hpaced.caps.once (hlimits ▸ hzero) kind

/-- One light in a second is allowed, so the lamp is dark exactly one second later, and on again a
millisecond after that. -/
theorem firings_of_kind_le_one :
    let settings : Settings Float := { Settings.standard with rateLimits := ⟨1, 1000, 10⟩ }
    let commands : List (Command Float) := [.loadRules [.unconditional "a" ⟨"lamp", "light", ""⟩],
      .evaluate ∅ none, .decide ∅, .advanceClock 1000, .evaluate ∅ none, .advanceClock 1,
      .evaluate ∅ none]
    let fresh := start settings 0 .steadyFloat
    let lights := (Run.collect run fired? fresh commands).filter (·.kind = "light")
    1 ≤ settings.rateLimits.categoryMax ∧ Run.Always run MovesForward fresh commands ∧
      leastWord ≤ 0 - settings.rateLimits.categoryWindow ∧ lights.map (·.time) = [0, 1001] ∧
      ∀ t, (lights.filter fun f => t - 1000 ≤ f.time ∧ f.time ≤ t).length ≤ 1 := by
  intro settings commands fresh lights
  have hf : Run.Always run MovesForward fresh commands := by decide +kernel
  have hm : 1 ≤ settings.rateLimits.categoryMax := by decide
  have hw : leastWord ≤ 0 - settings.rateLimits.categoryWindow := by decide
  exact ⟨hm, hf, hw, by decide +kernel, (firings_of_kind_le settings 0 _ "light" hf).1 hm hw⟩

/-- With a cap of zero the lamp still fires once. -/
theorem fires_despite_zero_cap :
    let settings : Settings Float := { Settings.standard with rateLimits := ⟨0, Duration.hour, 10⟩ }
    let commands : List (Command Float) := [.loadRules [.unconditional "a" ⟨"lamp", "light", ""⟩],
      .evaluate ∅ none]
    let fresh := start settings 0 .steadyFloat
    let lights := (Run.collect run fired? fresh commands).filter (·.kind = "light")
    Run.Always run MovesForward fresh commands ∧
      ¬ (lights.filter fun f => 0 - settings.rateLimits.categoryWindow ≤ f.time ∧
        f.time ≤ 0).length ≤ settings.rateLimits.categoryMax := by
  decide +kernel

end Engine

end ContextAdvisor
