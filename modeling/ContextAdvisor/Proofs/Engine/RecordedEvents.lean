import ContextAdvisor.Proofs.Arithmetic.Exact
import ContextAdvisor.Proofs.Engine.Frame
import ContextAdvisor.Proofs.EventLog

/-!
# An event that is reported now

The greatest age of events is measured against the newest one, which may lie after the clock. As
long as no event of the log lies so far ahead that a report at the present instant is too old beside
it, an event that is reported now is seen by every question about its kind. Otherwise it is dropped.
-/
namespace ContextAdvisor

namespace EventLog

variable {log : EventLog} {event : Event}

/-- Does a report at an instant come in time beside all events of the log? -/
def Admits (log : EventLog) (time : Instant) : Prop :=
  ∀ e ∈ log.events, wordDifference e.time log.maxAge ≤ time

theorem cutoff_le_iff {time : Instant} (ha : 0 ≤ log.maxAge) (ht : IsWord time) :
    wordDifference (log.newest time) log.maxAge ≤ time ↔ log.Admits time := by
  constructor
  · exact fun h e he =>
      (wordDifference_le_wordDifference ((log.le_newest time).2 e he) _).trans h
  · intro h
    rcases log.newest_mem time with hn | ⟨e, he, hn⟩
    · rw [hn]
      exact wordDifference_le_self ht ha
    · rw [hn]
      exact h e he

/-- A report that comes in time is in the log. -/
theorem mem_push (ha : 0 ≤ log.maxAge) (ht : IsWord event.time) (h : log.Admits event.time) :
    event ∈ (log.push event).events := by
  unfold push
  rw [if_neg (not_lt.mpr ((cutoff_le_iff ha ht).mpr h))]
  simp

/-- A report that comes too late adds nothing to the log. -/
theorem push_sublist (ha : 0 ≤ log.maxAge) (ht : IsWord event.time) (h : ¬ log.Admits event.time) :
    (log.push event).events.Sublist log.events := by
  unfold push
  rw [if_pos (not_le.mp ((cutoff_le_iff ha ht).not.mpr h))]
  exact List.filter_sublist

/-- An event of the log is found by a question about its kind, asked at its own instant. -/
theorem hasRecent_of_mem (h : event ∈ log.events) {window : Duration} (hw : 0 < window) :
    log.hasRecent event.time event.kind window := by
  have hself : wordDifference event.time event.time = 0 := by
    simp [wordDifference, leastWord, greatestWord]
  refine List.any_eq_true.mpr ⟨event, h, ?_⟩
  simp [inWindow, hself, hw]

end EventLog

/-- The question of a condition on a recent event. -/
theorem Condition.question?_of_recent {c : Condition} {kind : String} {window : Duration}
    (hop : c.op = .recent) (hkey : c.key = "event:" ++ kind) (hkind : kind ≠ "")
    (hw : c.window? = some window) : c.question? = some (.recent kind window) := by
  have hlabel : Text.afterLabel? "event:".toList c.key.toList = some kind.toList := by
    rw [hkey, Text.afterLabel?, List.isPrefixOf?_eq_some_iff_append_eq, String.toList_append]
  have hsome : kind.toList.isEmpty = false := by simpa using hkind
  simp only [question?, hop, hlabel, hw, hsome, Option.bind_eq_bind, Option.bind_some,
    Bool.false_eq_true, if_false, String.ofList_toList]

namespace Engine

variable {α : Type} [Analytic α]

/-- An event that is reported now, after any run, is seen now by every condition on a recent event
of its kind, unless some event of the log lies so far ahead of the clock that the report is too old
beside it. In that case it is dropped. -/
theorem report_seen_now {settings : Settings α} {clock : Instant} {generator : Generator α}
    {commands : List (Command α)} {engine : Engine α}
    (hengine : engine = Run.after run (start settings clock generator) commands)
    (hage : 0 ≤ settings.eventMaxAge) (hclock : IsWord engine.clock) {kind : String}
    (hkind : kind ≠ "") (snapshot : Context) :
    let later := engine.pushEvent kind snapshot none
    ((∀ e ∈ engine.events.events, wordDifference e.time settings.eventMaxAge ≤ engine.clock) →
      ∀ (c : Condition) (window : Duration) (context : Context), c.op = .recent →
        c.key = "event:" ++ kind → c.window? = some window → 0 < window →
        c.score (later.events.history later.clock) context = (1.0 : α)) ∧
    ((∃ e ∈ engine.events.events, engine.clock < wordDifference e.time settings.eventMaxAge) →
      later.events.events.Sublist engine.events.events) := by
  intro later
  have hmax : engine.events.maxAge = settings.eventMaxAge :=
    hengine ▸ congrArg (·.2.1) (constants_after_start settings clock generator commands)
  have hnonneg : 0 ≤ engine.events.maxAge := hmax ▸ hage
  refine ⟨fun hahead c window context hop hkey hwindow hpos => ?_, ?_⟩
  · have hmem : (⟨kind, snapshot, engine.clock⟩ : Event) ∈ later.events.events := by
      refine EventLog.mem_push hnonneg hclock fun e he => ?_
      rw [hmax]
      exact hahead e he
    have hseen : later.events.history later.clock (.recent kind window) = true :=
      EventLog.hasRecent_of_mem hmem hpos
    simp [Condition.score, hop, Operator.isTemporal,
      Condition.question?_of_recent hop hkey hkind hwindow, hseen, Scalar.ofBool]
  · rintro ⟨e, he, hlate⟩
    refine EventLog.push_sublist hnonneg hclock fun hadmits => hlate.not_ge ?_
    rw [← hmax]
    exact hadmits e he

/-- Beside an event that lies a day ahead of the clock, an event that is reported now is seen within
a second. -/
theorem report_seen_now_beside_day_ahead :
    let engine : Engine ℝ := Run.after run (start Settings.standard 0 .steady)
      [.setClock 5000, .pushEvent "leave" ∅ (some 86405000)]
    let later := engine.pushEvent "enter" ∅ none
    engine.events.events.map (·.time) = [86405000] ∧ engine.settings.eventMaxAge = 86400000 ∧
      IsWord engine.clock ∧
      (∀ e ∈ engine.events.events,
        wordDifference e.time engine.settings.eventMaxAge ≤ engine.clock) ∧
      (Condition.score (later.events.history later.clock) ∅ ⟨"event:enter", .recent, "1000"⟩ : ℝ) =
        1 := by
  intro engine later
  have hclock : IsWord engine.clock := ⟨by decide, by decide⟩
  have hengine : engine = Run.after run (start Settings.standard 0 .steady)
      [.setClock 5000, .pushEvent "leave" ∅ (some 86405000)] := rfl
  have hahead : ∀ e ∈ engine.events.events,
      wordDifference e.time engine.settings.eventMaxAge ≤ engine.clock := by decide
  have hseen := (report_seen_now hengine (by decide) hclock (by decide : "enter" ≠ "") ∅).1
    hahead ⟨"event:enter", .recent, "1000"⟩ 1000 ∅ rfl rfl (by decide) (by decide)
  exact ⟨by decide, by decide, hclock, hahead, by simpa using hseen⟩

/-- Beside an event that lies a day and a millisecond ahead of the clock, an event that is reported
now is not seen. -/
theorem report_dropped_beside_event_ahead :
    let engine : Engine ℝ :=
      Run.after run (start Settings.standard 0 .steady) [.pushEvent "leave" ∅ (some 86400001)]
    let later := engine.pushEvent "enter" ∅ none
    0 ≤ engine.settings.eventMaxAge ∧ IsWord engine.clock ∧
      (Condition.score (later.events.history later.clock) ∅ ⟨"event:enter", .recent, "1000"⟩ : ℝ) ≠
        1 := by
  intro engine later
  refine ⟨by decide, ⟨by decide, by decide⟩, ?_⟩
  have hquestion : (⟨"event:enter", .recent, "1000"⟩ : Condition).question? =
      some (.recent "enter" 1000) := by decide
  have hunseen : later.events.history later.clock (.recent "enter" 1000) = false := by decide
  simp [Condition.score, Operator.isTemporal, hquestion, hunseen, Scalar.ofBool]

end Engine

end ContextAdvisor
