import ContextAdvisor.Arithmetic.Window
import ContextAdvisor.EventLog
import Mathlib.Tactic

/-!
# The log of recent events and the list of all reports

As long as the reports come in the order of time, the log holds those of the last reports, as many
as its capacity admits, that are not too old beside the very last one. What is left out because of
its age lies outside every window that is not longer than this age. So the limit on the age saves
room and never changes an answer.
-/
namespace ContextAdvisor

/-- A difference that stops at the lower end of the words is still below the same words. -/
theorem wordDifference_le_iff {a b t : Int} (ha : IsWord a) (hb : 0 ≤ b) (ht : IsWord t) :
    wordDifference a b ≤ t ↔ a - b ≤ t := by
  unfold wordDifference IsWord leastWord greatestWord at *
  omega

/-- A difference that stops at the upper end of the words still reaches every word it reached. -/
theorem le_wordDifference {a b t : Int} (ht : IsWord t) (h : t ≤ a - b) :
    t ≤ wordDifference a b := by
  unfold wordDifference IsWord leastWord greatestWord at *
  omega

theorem wordDifference_le_wordDifference {a a' : Int} (h : a ≤ a') (b : Int) :
    wordDifference a b ≤ wordDifference a' b := by
  unfold wordDifference leastWord greatestWord
  omega

/-- A word does not come before itself, less an age. -/
theorem wordDifference_le_self {t age : Int} (ht : IsWord t) (ha : 0 ≤ age) :
    wordDifference t age ≤ t :=
  (wordDifference_le_iff ht ha ht).mpr (Int.sub_le_self _ ha)

namespace EventLog

/-- The log after some reports. -/
def ofReports (capacity : Nat) (maxAge : Duration) (reports : List Event) : EventLog :=
  reports.foldl push (.empty capacity maxAge)

/-- Is an event not too old beside the last report? -/
def isFresh (maxAge : Duration) (reports : List Event) (event : Event) : Bool :=
  ∀ newest ∈ reports.getLast?, newest.time - maxAge ≤ event.time

variable {capacity : Nat} {maxAge : Duration} {reports : List Event} {event : Event}

/-- A report changes the events only. -/
theorem push_eq (log : EventLog) (event : Event) :
    log.push event = { log with events := (log.push event).events } := by
  unfold push
  dsimp only
  split_ifs <;> rfl

@[simp] theorem push_maxAge (log : EventLog) (event : Event) :
    (log.push event).maxAge = log.maxAge := by
  rw [push_eq]

theorem ofReports_concat : ofReports capacity maxAge (reports ++ [event]) =
    (ofReports capacity maxAge reports).push event := by
  rw [ofReports, List.foldl_append]
  rfl

/-- Beside a new report an event is fresh if it is not too old beside this report. -/
theorem isFresh_concat (e : Event) :
    isFresh maxAge (reports ++ [event]) e = decide (event.time - maxAge ≤ e.time) := by
  simp [isFresh]

/-- The newest instant is not before the report, nor before any event of the log. -/
theorem le_newest (log : EventLog) (time : Instant) :
    time ≤ log.newest time ∧ ∀ e ∈ log.events, e.time ≤ log.newest time := by
  obtain ⟨capacity, maxAge, events⟩ := log
  induction events generalizing time with
  | nil => exact ⟨le_rfl, by simp⟩
  | cons first rest ih =>
    obtain ⟨htime, hrest⟩ := ih (max time first.time)
    obtain ⟨hreport, hfirst⟩ := max_le_iff.mp htime
    exact ⟨hreport, List.forall_mem_cons.mpr ⟨hfirst, hrest⟩⟩

/-- The newest instant is that of the report or of an event of the log. -/
theorem newest_mem (log : EventLog) (time : Instant) :
    log.newest time = time ∨ ∃ e ∈ log.events, log.newest time = e.time := by
  obtain ⟨capacity, maxAge, events⟩ := log
  induction events generalizing time with
  | nil => exact .inl rfl
  | cons first rest ih =>
    rcases ih (max time first.time) with h | ⟨e, he, h⟩
    · rcases max_choice time first.time with hm | hm
      · exact .inl (h.trans hm)
      · exact .inr ⟨first, List.mem_cons_self, h.trans hm⟩
    · exact .inr ⟨e, List.mem_cons_of_mem _ he, h⟩

/-- No event of a log is newer than a report that does not come before any of them. -/
theorem newest_eq {log : EventLog} {time : Instant} (h : ∀ e ∈ log.events, e.time ≤ time) :
    log.newest time = time := by
  obtain ⟨capacity, maxAge, events⟩ := log
  induction events with
  | nil => rfl
  | cons e rest ih =>
    rw [newest, List.foldl_cons, max_eq_left (h e List.mem_cons_self)]
    exact ih fun e' he => h e' (List.mem_cons_of_mem _ he)

/-- A report that does not come before any event of the log is added, after the events that are too
old beside it have been dropped. -/
theorem push_of_latest {log : EventLog} (hc : 1 ≤ log.capacity) (ha : 0 ≤ log.maxAge)
    (hw : IsWord event.time) (hwords : ∀ e ∈ log.events, IsWord e.time)
    (h : ∀ e ∈ log.events, e.time ≤ event.time) :
    log.push event = { log with
      events := Window.push log.capacity
        (log.events.filter fun e => event.time - log.maxAge ≤ e.time) event } := by
  have hkept : (log.events.filter fun e => wordDifference event.time log.maxAge ≤ e.time) =
      log.events.filter fun e => event.time - log.maxAge ≤ e.time :=
    List.filter_congr fun e he => decide_eq_decide.mpr (wordDifference_le_iff hw ha (hwords e he))
  have hlate : ¬ event.time < wordDifference event.time log.maxAge := by
    rw [not_lt, wordDifference_le_iff hw ha hw]
    exact Int.sub_le_self _ ha
  simp only [push, newest_eq h, hkept, if_neg hlate, Window.push, Window.last, List.length_append,
    List.length_singleton]
  rw [List.drop_append_of_le_length (by omega)]

/-- The log holds the last reports, but for those that are too old beside the very last one. -/
theorem ofReports_eq (hc : 1 ≤ capacity) (ha : 0 ≤ maxAge) (hw : ∀ e ∈ reports, IsWord e.time)
    (h : reports.Pairwise fun a b => a.time ≤ b.time) :
    ofReports capacity maxAge reports =
      ⟨capacity, maxAge, (Window.last capacity reports).filter (isFresh maxAge reports)⟩ := by
  induction reports using List.reverseRecOn with
  | nil => simp [ofReports, empty, Window.last]
  | append_singleton reports event ih =>
    obtain ⟨hreports, -, hlatest⟩ := List.pairwise_append.mp h
    have hnew : ∀ e ∈ reports, e.time ≤ event.time := fun e he => hlatest e he event (by simp)
    have hwords : ∀ e ∈ reports, IsWord e.time := fun e he => hw e (List.mem_append_left _ he)
    have hheld : ∀ e ∈ (Window.last capacity reports).filter (isFresh maxAge reports),
        e ∈ reports :=
      fun e he => (Window.last_sublist _ _).subset (List.mem_of_mem_filter he)
    -- what is fresh beside the new report was fresh before
    have hfresh : ((Window.last capacity reports).filter (isFresh maxAge reports)).filter
        (fun e => event.time - maxAge ≤ e.time) =
          (Window.last capacity reports).filter (isFresh maxAge (reports ++ [event])) := by
      rw [List.filter_filter]
      refine List.filter_congr fun e _ => ?_
      rw [isFresh_concat, Bool.and_eq_left_iff_imp]
      intro he
      simp only [isFresh, decide_eq_true_eq] at he ⊢
      intro newest hlast
      exact (Int.sub_le_sub_right (hnew newest (List.mem_of_getLast? hlast)) _).trans he
    have hascends : (reports ++ [event]).Pairwise fun a b =>
        isFresh maxAge (reports ++ [event]) a → isFresh maxAge (reports ++ [event]) b := by
      refine h.imp fun hab ha => ?_
      rw [isFresh_concat, decide_eq_true_eq] at ha ⊢
      exact ha.trans hab
    have hself : isFresh maxAge (reports ++ [event]) event := by
      rw [isFresh_concat, decide_eq_true_eq]
      exact Int.sub_le_self _ ha
    rw [ofReports_concat, ih hwords hreports, push_of_latest hc ha (hw event (by simp))
      (fun e he => hwords e (hheld e he)) (fun e he => hnew e (hheld e he)), hfresh,
      Window.filter_last (List.pairwise_append.mp hascends).1, Window.push_last,
      Window.filter_last hascends, List.filter_append, List.filter_cons_of_pos hself,
      List.filter_nil]

section

variable {log : EventLog} {now : Instant} {window : Duration} {p : Event → Bool}

theorem any_filter_of_imp {events : List Event} {q : Event → Bool} (h : ∀ e ∈ events, q e → p e) :
    (events.filter p).any q = events.any q := by
  rw [List.any_filter, Bool.eq_iff_iff, List.any_eq_true, List.any_eq_true]
  refine exists_congr fun e => and_congr_right fun he => ?_
  rw [Bool.and_eq_right_iff_imp.mpr (h e he)]

/-- Events outside the window do not matter for whether there was one of a kind. -/
theorem hasRecent_filter (h : ∀ e ∈ log.events, inWindow now window e → p e) (kind : String) :
    hasRecent { log with events := log.events.filter p } now kind window =
      log.hasRecent now kind window := by
  refine any_filter_of_imp fun e he hq => h e he ?_
  exact (Bool.and_eq_true_iff.mp hq).2

/-- Events outside the window do not matter for whether there was a sequence. -/
theorem hasSequence_filter (h : ∀ e ∈ log.events, inWindow now window e → p e)
    (first second : String) :
    hasSequence { log with events := log.events.filter p } now first second window =
      log.hasSequence now first second window := by
  have hseconds : (log.events.filter p).filter
      (fun e => e.kind == second && inWindow now window e) =
        log.events.filter fun e => e.kind == second && inWindow now window e := by
    rw [List.filter_filter]
    refine List.filter_congr fun e he => Bool.and_eq_left_iff_imp.mpr fun hq => h e he ?_
    exact (Bool.and_eq_true_iff.mp hq).2
  have hfirsts : ∀ latest : Instant, ((log.events.filter p).any fun e =>
      e.kind == first && e.time < latest && inWindow now window e) =
        log.events.any fun e => e.kind == first && e.time < latest && inWindow now window e := by
    refine fun latest => any_filter_of_imp fun e he hq => h e he ?_
    exact (Bool.and_eq_true_iff.mp hq).2
  simp only [hasSequence, hseconds, hfirsts]

end

/-- What is not fresh beside the last report lies outside every window that is not longer than the
greatest age. -/
theorem isFresh_of_inWindow {now : Instant} {window : Duration} (hm : IsWord maxAge)
    (hnow : ∀ e ∈ reports, e.time ≤ now) (hwindow : window ≤ maxAge)
    (h : inWindow now window event) : isFresh maxAge reports event := by
  rw [isFresh, decide_eq_true_eq]
  intro newest hlast
  by_contra hold
  have hnewest := hnow newest (List.mem_of_getLast? hlast)
  have hage : maxAge ≤ now - event.time := by linarith only [hold, hnewest]
  have hreached : window ≤ max (wordDifference now event.time) 0 :=
    (hwindow.trans (le_wordDifference hm hage)).trans (le_max_left _ _)
  exact hreached.not_gt (of_decide_eq_true h)

/-- After reports in the order of time the log holds those of the last reports, as many as its
capacity admits, that are not too old beside the very last one. About every window that is not
longer than the greatest age, it answers like a log that leaves none of the last reports out. -/
theorem log_eq_last_reports (hc : 1 ≤ capacity) (ha : 0 ≤ maxAge) (hm : IsWord maxAge)
    (hw : ∀ e ∈ reports, IsWord e.time) (h : reports.Pairwise fun a b => a.time ≤ b.time) :
    let log := ofReports capacity maxAge reports
    let unaged : EventLog := ⟨capacity, maxAge, Window.last capacity reports⟩
    log.events = unaged.events.filter (isFresh maxAge reports) ∧
      ∀ now window, (∀ e ∈ reports, e.time ≤ now) → window ≤ maxAge →
        (∀ kind, log.hasRecent now kind window = unaged.hasRecent now kind window) ∧
          ∀ first second, log.hasSequence now first second window =
            unaged.hasSequence now first second window := by
  intro log unaged
  have hlog : log = { unaged with events := unaged.events.filter (isFresh maxAge reports) } :=
    ofReports_eq hc ha hw h
  rw [hlog]
  refine ⟨rfl, fun now window hnow hwindow => ?_⟩
  have hfresh : ∀ e ∈ unaged.events, inWindow now window e → isFresh maxAge reports e :=
    fun e _ he => isFresh_of_inWindow hm hnow hwindow he
  exact ⟨hasRecent_filter hfresh, hasSequence_filter hfresh⟩

/-- Of four reports the first gives way to the last, and the second is too old beside it by the
smallest difference. -/
theorem log_eq_last_reports_four :
    let reports : List Event :=
      [⟨"enter", ∅, 0⟩, ⟨"enter", ∅, 100⟩, ⟨"exit", ∅, 600⟩, ⟨"enter", ∅, 1101⟩]
    let log := ofReports 3 1000 reports
    log.events.map (·.time) = [600, 1101] ∧
      log.hasSequence 1101 "enter" "exit" 1000 =
        hasSequence ⟨3, 1000, Window.last 3 reports⟩ 1101 "enter" "exit" 1000 := by
  intro reports log
  have hw : ∀ e ∈ reports, IsWord e.time := by
    simp [reports, IsWord, leastWord, greatestWord]
  have hnow : ∀ e ∈ reports, e.time ≤ 1101 := by simp [reports]
  obtain ⟨hevents, hanswers⟩ := log_eq_last_reports (by decide : 1 ≤ 3)
    (by decide : (0 : Duration) ≤ 1000) ⟨by decide, by decide⟩ hw (by simp [reports])
  refine ⟨?_, (hanswers 1101 1000 hnow le_rfl).2 "enter" "exit"⟩
  rw [hevents]
  rfl

end EventLog

end ContextAdvisor
