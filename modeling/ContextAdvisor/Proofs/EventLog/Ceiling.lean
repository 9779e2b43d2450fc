import ContextAdvisor.Proofs.EventLog

/-!
# How old an event of the log can be

The greatest age is measured against the newest event that the log still holds, and an event that
gives way to a full log may be the newest one. But a report takes at least as many later ones to be
forgotten as the log has room for: until then the log holds an event that is not older, or one
beside which the report came too late. So no event of the log is too old beside any of the last
reports, one more than the capacity admits, and if the newest event is among them, none is too old
beside any report at all.
-/
namespace ContextAdvisor

namespace EventLog

/-- What can happen to a log. -/
inductive Operation where
  | push (event : Event)
  | clear

/-- Carries out an operation. -/
def perform (log : EventLog) : Operation → EventLog
  | .push event => log.push event
  | .clear => log.clear

/-- The reports since the log was last cleared. -/
def reported (operations : List Operation) : List Event :=
  operations.foldl (fun reports operation => match operation with
    | .push event => reports ++ [event]
    | .clear => []) []

variable {log : EventLog} {event : Event}

theorem ofReports_clear (capacity : Nat) (maxAge : Duration) (reports : List Event) :
    (ofReports capacity maxAge reports).clear = .empty capacity maxAge := by
  induction reports using List.reverseRecOn with
  | nil => rfl
  | append_singleton reports event ih =>
    rw [ofReports_concat, push_eq]
    exact ih

/-- A log knows of nothing that happened before it was last cleared. -/
theorem foldl_perform (capacity : Nat) (maxAge : Duration) (operations : List Operation) :
    operations.foldl perform (.empty capacity maxAge) =
      ofReports capacity maxAge (reported operations) := by
  induction operations using List.reverseRecOn with
  | nil => rfl
  | append_singleton operations operation ih =>
    rw [List.foldl_append, ih]
    cases operation with
    | push event =>
      have hreported : reported (operations ++ [.push event]) = reported operations ++ [event] := by
        rw [reported, List.foldl_append]
        rfl
      rw [hreported]
      exact ofReports_concat.symm
    | clear =>
      have hreported : reported (operations ++ [.clear]) = [] := by
        rw [reported, List.foldl_append]
        rfl
      rw [hreported]
      exact ofReports_clear capacity maxAge _

/-- The instant before which an event is too old beside a report and the events of the log. -/
def cutoff (log : EventLog) (time : Instant) : Instant :=
  wordDifference (log.newest time) log.maxAge

/-- The events that are not too old beside a report. -/
def kept (log : EventLog) (time : Instant) : List Event :=
  log.events.filter fun e => log.cutoff time ≤ e.time

theorem mem_kept {time : Instant} {e : Event} :
    e ∈ log.kept time ↔ e ∈ log.events ∧ log.cutoff time ≤ e.time := by
  rw [kept, List.mem_filter, decide_eq_true_eq]

theorem push_of_late (h : event.time < log.cutoff event.time) :
    (log.push event).events = log.kept event.time := by
  unfold push
  exact congrArg events (if_pos h)

theorem push_of_timely (hc : 1 ≤ log.capacity) (h : log.cutoff event.time ≤ event.time) :
    (log.push event).events = Window.push log.capacity (log.kept event.time) event := by
  have hroom : (log.kept event.time ++ [event]).length - log.capacity ≤
      (log.kept event.time).length := by
    simp only [List.length_append, List.length_singleton]
    omega
  unfold push
  refine (congrArg events (if_neg h.not_gt)).trans ?_
  rw [Window.push, Window.last, List.drop_append_of_le_length hroom, List.length_append]
  rfl

theorem mem_of_mem_push {e : Event} (hc : 1 ≤ log.capacity) (h : e ∈ (log.push event).events) :
    e ∈ log.events ∨ e = event := by
  rcases lt_or_ge event.time (log.cutoff event.time) with hlate | htimely
  · rw [push_of_late hlate] at h
    exact .inl (mem_kept.mp h).1
  · rw [push_of_timely hc htimely] at h
    rcases List.mem_append.mp ((Window.last_sublist _ _).subset h) with h | h
    · exact .inl (mem_kept.mp h).1
    · exact .inr (List.mem_singleton.mp h)

/-- No event of the log is too old beside the newest one. -/
theorem cutoff_le_of_mem_push {e : Event} (hc : 1 ≤ log.capacity)
    (h : e ∈ (log.push event).events) : log.cutoff event.time ≤ e.time := by
  rcases lt_or_ge event.time (log.cutoff event.time) with hlate | htimely
  · rw [push_of_late hlate] at h
    exact (mem_kept.mp h).2
  · rw [push_of_timely hc htimely] at h
    rcases List.mem_append.mp ((Window.last_sublist _ _).subset h) with h | h
    · exact (mem_kept.mp h).2
    · rw [List.mem_singleton.mp h]
      exact htimely

theorem length_push_events_le (hc : 1 ≤ log.capacity) (h : log.events.length ≤ log.capacity) :
    (log.push event).events.length ≤ log.capacity := by
  rcases lt_or_ge event.time (log.cutoff event.time) with hlate | htimely
  · rw [push_of_late hlate]
    exact (List.length_filter_le _ _).trans h
  · rw [push_of_timely hc htimely]
    exact Window.length_push_le _ _ _

/-- Is one of the last `n` events of the log not older than a report, or is there an event beside
which the report is too old? -/
def Recalls (log : EventLog) (n : Nat) (report : Event) : Prop :=
  (∃ e ∈ Window.last n log.events, report.time ≤ e.time) ∨
    ∃ e ∈ log.events, report.time < wordDifference e.time log.maxAge

variable {n : Nat} {report : Event}

theorem Recalls.le_newest (ha : 0 ≤ log.maxAge) (hwords : ∀ e ∈ log.events, IsWord e.time)
    (h : log.Recalls n report) (time : Instant) : report.time ≤ log.newest time := by
  rcases h with ⟨e, he, hle⟩ | ⟨e, he, hlt⟩
  · exact hle.trans ((log.le_newest time).2 e ((Window.last_sublist _ _).subset he))
  · have hself : report.time ≤ e.time :=
      hlt.le.trans (wordDifference_le_self (hwords e he) ha)
    exact hself.trans ((log.le_newest time).2 e he)

/-- What recalls a report is kept, or the report is too old by now. -/
theorem Recalls.kept (h : log.Recalls n report) (time : Instant) :
    (∃ e ∈ Window.last n (log.kept time), report.time ≤ e.time) ∨
      report.time < log.cutoff time := by
  rcases h with ⟨e, he, hle⟩ | ⟨e, he, hlt⟩
  · rcases lt_or_ge e.time (log.cutoff time) with hold | hkept
    · exact .inr (hle.trans_lt hold)
    · exact .inl ⟨e, Window.mem_last_filter he (decide_eq_true hkept), hle⟩
  · exact .inr (hlt.trans_le
      (wordDifference_le_wordDifference ((log.le_newest time).2 e he) log.maxAge))

/-- A report that comes too late is recalled by the newest event. -/
theorem exists_mem_kept_of_late (ha : 0 ≤ log.maxAge) (hwords : ∀ e ∈ log.events, IsWord e.time)
    (hw : IsWord event.time) (h : event.time < log.cutoff event.time) :
    ∃ e ∈ log.kept event.time, wordDifference e.time log.maxAge = log.cutoff event.time := by
  rcases log.newest_mem event.time with hn | ⟨e, he, hn⟩
  · rw [cutoff, hn] at h
    exact absurd (wordDifference_le_self hw ha) h.not_ge
  · have hcutoff : wordDifference e.time log.maxAge = log.cutoff event.time := by rw [cutoff, hn]
    refine ⟨e, mem_kept.mpr ⟨he, ?_⟩, hcutoff⟩
    rw [← hcutoff]
    exact wordDifference_le_self (hwords e he) ha

/-- One more report moves what recalls an earlier one by at most one place. -/
theorem Recalls.push (hn : n < log.capacity) (ha : 0 ≤ log.maxAge)
    (hwords : ∀ e ∈ log.events, IsWord e.time) (hw : IsWord event.time)
    (h : log.Recalls n report) : (log.push event).Recalls (n + 1) report := by
  rw [Recalls, push_maxAge]
  rcases lt_or_ge event.time (log.cutoff event.time) with hlate | htimely
  · rw [push_of_late hlate]
    rcases h.kept event.time with ⟨e, he, hle⟩ | hold
    · exact .inl ⟨e, Window.mem_last_of_le he n.le_succ, hle⟩
    · obtain ⟨e, he, hcutoff⟩ := exists_mem_kept_of_late ha hwords hw hlate
      exact .inr ⟨e, he, hcutoff ▸ hold⟩
  · rw [push_of_timely (Nat.one_le_of_lt hn) htimely, Window.push, Window.last_last hn,
      Window.last_concat]
    rcases h.kept event.time with ⟨e, he, hle⟩ | hold
    · exact .inl ⟨e, List.mem_append_left _ he, hle⟩
    · exact .inl ⟨event, by simp, hold.le.trans htimely⟩

/-- A report is recalled right after it was made. -/
theorem recalls_push_self (hn : n < log.capacity) (ha : 0 ≤ log.maxAge)
    (hwords : ∀ e ∈ log.events, IsWord e.time) (hw : IsWord event.time) :
    (log.push event).Recalls (n + 1) event := by
  rw [Recalls, push_maxAge]
  rcases lt_or_ge event.time (log.cutoff event.time) with hlate | htimely
  · obtain ⟨e, he, hcutoff⟩ := exists_mem_kept_of_late ha hwords hw hlate
    rw [push_of_late hlate]
    exact .inr ⟨e, he, hcutoff ▸ hlate⟩
  · rw [push_of_timely (Nat.one_le_of_lt hn) htimely, Window.push, Window.last_last hn,
      Window.last_concat]
    exact .inl ⟨event, by simp, le_rfl⟩

variable {capacity : Nat} {maxAge : Duration} {reports : List Event}

theorem ofReports_capacity : (ofReports capacity maxAge reports).capacity = capacity := by
  have h := congrArg EventLog.capacity (ofReports_clear capacity maxAge reports)
  exact h

theorem ofReports_maxAge : (ofReports capacity maxAge reports).maxAge = maxAge := by
  have h := congrArg EventLog.maxAge (ofReports_clear capacity maxAge reports)
  exact h

theorem mem_of_mem_ofReports (hc : 1 ≤ capacity) {e : Event}
    (h : e ∈ (ofReports capacity maxAge reports).events) : e ∈ reports := by
  induction reports using List.reverseRecOn with
  | nil => exact h
  | append_singleton reports event ih =>
    rw [ofReports_concat] at h
    rcases mem_of_mem_push (by rwa [ofReports_capacity]) h with h | rfl
    · exact List.mem_append_left _ (ih h)
    · simp

theorem length_ofReports_events_le (hc : 1 ≤ capacity) :
    (ofReports capacity maxAge reports).events.length ≤ capacity := by
  induction reports using List.reverseRecOn with
  | nil => exact Nat.zero_le _
  | append_singleton reports event ih =>
    have hpush := @length_push_events_le (ofReports capacity maxAge reports) event
    rw [ofReports_capacity] at hpush
    rw [ofReports_concat]
    exact hpush hc ih

/-- Each of the last reports is recalled by as many events of the log, as long as there is room for
them. -/
theorem recalls_ofReports (ha : 0 ≤ maxAge) (hw : ∀ r ∈ reports, IsWord r.time)
    (hn : n ≤ capacity) (h : report ∈ Window.last n reports) :
    (ofReports capacity maxAge reports).Recalls n report := by
  induction reports using List.reverseRecOn generalizing n with
  | nil => simp [Window.last] at h
  | append_singleton reports event ih =>
    cases n with
    | zero => simp [Window.last] at h
    | succ n =>
      have hreports : ∀ r ∈ reports, IsWord r.time := fun r hr => hw r (List.mem_append_left _ hr)
      have hroom : n < (ofReports capacity maxAge reports).capacity := by
        rw [ofReports_capacity]
        exact hn
      have hage : 0 ≤ (ofReports capacity maxAge reports).maxAge := by rwa [ofReports_maxAge]
      have hwords : ∀ e ∈ (ofReports capacity maxAge reports).events, IsWord e.time :=
        fun e he => hreports e (mem_of_mem_ofReports (Nat.one_le_of_lt hn) he)
      rw [Window.last_concat, List.mem_append, List.mem_singleton] at h
      rw [ofReports_concat]
      rcases h with h | rfl
      · exact (ih hreports (Nat.le_of_lt hn) h).push hroom hage hwords (hw event (by simp))
      · exact recalls_push_self hroom hage hwords (hw report (by simp))

/-- No event of the log is too old beside one of the last reports, one more than the capacity, or
beside another event of the log. -/
theorem sub_maxAge_le_of_mem (hc : 1 ≤ capacity) (ha : 0 ≤ maxAge)
    (hw : ∀ r ∈ reports, IsWord r.time) {e : Event}
    (he : e ∈ (ofReports capacity maxAge reports).events)
    (hr : report ∈ Window.last (capacity + 1) reports ∨
      report ∈ (ofReports capacity maxAge reports).events) : report.time - maxAge ≤ e.time := by
  have hreport : report ∈ reports :=
    hr.elim (fun h => (Window.last_sublist _ _).subset h) (mem_of_mem_ofReports hc)
  rw [← wordDifference_le_iff (hw report hreport) ha (hw e (mem_of_mem_ofReports hc he))]
  induction reports using List.reverseRecOn with
  | nil => exact absurd hreport List.not_mem_nil
  | append_singleton reports event =>
    have hreports : ∀ r ∈ reports, IsWord r.time := fun r hr => hw r (List.mem_append_left _ hr)
    have hwords : ∀ e ∈ (ofReports capacity maxAge reports).events, IsWord e.time :=
      fun e he => hreports e (mem_of_mem_ofReports hc he)
    rw [ofReports_concat] at he hr
    have hnewest : report.time ≤ (ofReports capacity maxAge reports).newest event.time := by
      rw [Window.last_concat, List.mem_append, List.mem_singleton] at hr
      rcases hr with (hr | rfl) | hr
      · exact (recalls_ofReports ha hreports le_rfl hr).le_newest (by rwa [ofReports_maxAge]) hwords
          event.time
      · exact (le_newest _ _).1
      · rcases mem_of_mem_push (by rwa [ofReports_capacity]) hr with hr | rfl
        · exact (le_newest _ _).2 report hr
        · exact (le_newest _ _).1
    have hcutoff := cutoff_le_of_mem_push (by rwa [ofReports_capacity]) he
    rw [cutoff, ofReports_maxAge] at hcutoff
    exact (wordDifference_le_wordDifference hnewest maxAge).trans hcutoff

/-- After any reports, in any order of time, and any clearing, the log holds no more events than its
capacity admits. None of them is too old beside another one, or beside one of the last reports, one
more than the capacity. If the newest report since the log was cleared is among all these, no event
is too old beside any report. -/
theorem within_ceiling (hc : 1 ≤ capacity) (ha : 0 ≤ maxAge) {operations : List Operation}
    (hw : ∀ r ∈ reported operations, IsWord r.time) :
    let log := operations.foldl perform (.empty capacity maxAge)
    let recalled := Window.last (capacity + 1) (reported operations) ++ log.events
    log.size ≤ capacity ∧
      (∀ e ∈ log.events, ∀ r ∈ recalled, r.time - maxAge ≤ e.time) ∧
      ((∃ newest ∈ recalled, ∀ r ∈ reported operations, r.time ≤ newest.time) →
        ∀ e ∈ log.events, ∀ r ∈ reported operations, r.time - maxAge ≤ e.time) := by
  intro log recalled
  have hlog : log = ofReports capacity maxAge (reported operations) :=
    foldl_perform capacity maxAge operations
  have hrecalled : ∀ e ∈ log.events, ∀ r ∈ recalled, r.time - maxAge ≤ e.time := by
    intro e he r hr
    rw [List.mem_append] at hr
    rw [hlog] at he hr
    exact sub_maxAge_le_of_mem hc ha hw he hr
  refine ⟨?_, hrecalled, ?_⟩
  · rw [hlog]
    exact length_ofReports_events_le hc
  · rintro ⟨newest, hnewest, hall⟩ e he r hr
    exact (Int.sub_le_sub_right (hall r hr) maxAge).trans (hrecalled e he newest hnewest)

/-- In a log for two events the newest one gives way to the second report after it. The next report
still comes too late beside it, and everything else is measured against it. -/
theorem within_ceiling_two :
    let operations : List Operation := [.push ⟨"sleep", ∅, 5000⟩, .clear, .push ⟨"enter", ∅, 940⟩,
      .push ⟨"stay", ∅, 1000⟩, .push ⟨"stay", ∅, 950⟩, .push ⟨"leave", ∅, 905⟩]
    let log := operations.foldl perform (.empty 2 100)
    log.events.map (·.time) = [950, 905] ∧ ∀ e ∈ log.events, 1000 - 100 ≤ e.time := by
  intro operations log
  have hw : ∀ r ∈ reported operations, IsWord r.time := by
    simp [operations, reported, IsWord, leastWord, greatestWord]
  obtain ⟨-, hrecalled, -⟩ :=
    within_ceiling (by decide : 1 ≤ 2) (by decide : (0 : Duration) ≤ 100) hw
  refine ⟨rfl, fun e he => hrecalled e he ⟨"stay", ∅, 1000⟩ (List.mem_append_left _ ?_)⟩
  simp [reported, operations, Window.last]

/-- In a log for one event the newest one gives way to the next report, and the report after that
is held although it is too old beside the newest one. -/
theorem holds_event_below_ceiling :
    let reports : List Event := [⟨"enter", ∅, 1000⟩, ⟨"stay", ∅, 950⟩, ⟨"leave", ∅, 860⟩]
    ∃ e ∈ (ofReports 1 100 reports).events, ∃ r ∈ reports, e.time < r.time - 100 :=
  ⟨⟨"leave", ∅, 860⟩, by
    simp [ofReports, push, newest, empty, wordDifference, leastWord, greatestWord],
    ⟨"enter", ∅, 1000⟩, by simp, by decide⟩

end EventLog

end ContextAdvisor
