import ContextAdvisor.Proofs.EventLog

/-!
# What the answers of the log mean

A question about a sequence is answered by the latest event of the second kind alone: if any event
of that kind in the window has one of the first kind before it, the latest has. So the answer is
yes exactly if the window holds such a pair. Neither this nor the answer to a question about a
single kind depends on the order of the reports, and a wider window never turns a yes into a no.
-/
namespace ContextAdvisor

/-- A difference that stops at the ends of the words is below the same words as one that does not,
and one below zero counts as zero. -/
theorem max_wordDifference_lt_iff {a b t : Int} (ht : IsWord t) :
    max (wordDifference a b) 0 < t ↔ 0 < t ∧ a - b < t := by
  unfold wordDifference IsWord leastWord greatestWord at *
  omega

namespace EventLog

variable {log other : EventLog} {now : Instant} {window wider : Duration}
  {kind first second : String}

/-- The window holds what happened less than its length ago, and what is still to happen. -/
theorem inWindow_iff (hw : IsWord window) (event : Event) :
    inWindow now window event = true ↔ 0 < window ∧ now - event.time < window := by
  rw [inWindow, decide_eq_true_eq]
  exact max_wordDifference_lt_iff hw

theorem inWindow_mono (h : window ≤ wider) {event : Event} (he : inWindow now window event) :
    inWindow now wider event :=
  decide_eq_true ((of_decide_eq_true he).trans_le h)

theorem hasRecent_iff : log.hasRecent now kind window = true ↔
    ∃ e ∈ log.events, e.kind = kind ∧ inWindow now window e := by
  simp [hasRecent]

/-- Something comes before the latest of some instants if and only if it comes before any. -/
theorem exists_lt_latestTime? {times : List Instant} {time : Instant} :
    (∃ latest ∈ latestTime? times, time < latest) ↔ ∃ t ∈ times, time < t := by
  rw [latestTime?]
  constructor
  · rintro ⟨latest, hlatest, hlt⟩
    exact ⟨latest, (List.max?_eq_some_iff.mp hlatest).1, hlt⟩
  · rintro ⟨t, ht, hlt⟩
    cases hmax : times.max? with
    | none => simp [List.max?_eq_none_iff.mp hmax] at ht
    | some latest =>
      exact ⟨latest, rfl, hlt.trans_le ((List.max?_eq_some_iff.mp hmax).2 t ht)⟩

/-- The events of the second kind matter by their latest instant only. -/
theorem hasSequence_iff_latest : log.hasSequence now first second window = true ↔
    ∃ a ∈ log.events, a.kind = first ∧ inWindow now window a ∧
      ∃ latest ∈ latestTime? ((log.events.filter fun e =>
        e.kind == second && inWindow now window e).map (·.time)), a.time < latest := by
  rw [hasSequence]
  split
  · next hnone => simp [hnone]
  · next latest hlatest =>
    simp only [hlatest, List.any_eq_true, Bool.and_eq_true, beq_iff_eq, decide_eq_true_eq,
      Option.mem_some_iff, exists_eq_left']
    exact exists_congr fun a => and_congr_right fun _ => by tauto

/-- The answer is yes if and only if the window holds an event of the first kind and a later one of
the second. -/
theorem hasSequence_iff : log.hasSequence now first second window = true ↔
    ∃ a ∈ log.events, ∃ b ∈ log.events, a.kind = first ∧ b.kind = second ∧ a.time < b.time ∧
      inWindow now window a ∧ inWindow now window b := by
  rw [hasSequence_iff_latest]
  simp only [exists_lt_latestTime?, List.mem_map, List.mem_filter, Bool.and_eq_true, beq_iff_eq]
  constructor
  · rintro ⟨a, ha, hfirst, hawin, _, ⟨b, ⟨hb, hsecond, hbwin⟩, rfl⟩, hlt⟩
    exact ⟨a, ha, b, hb, hfirst, hsecond, hlt, hawin, hbwin⟩
  · rintro ⟨a, ha, b, hb, hfirst, hsecond, hlt, hawin, hbwin⟩
    exact ⟨a, ha, hfirst, hawin, b.time, ⟨b, ⟨hb, hsecond, hbwin⟩, rfl⟩, hlt⟩

/-- Logs with the same events, in whatever order, give the same answers. -/
theorem history_congr (h : ∀ e, e ∈ other.events ↔ e ∈ log.events) :
    other.history now = log.history now := by
  funext question
  cases question with
  | recent kind window =>
    rw [history, history, Bool.eq_iff_iff, hasRecent_iff, hasRecent_iff]
    simp only [h]
  | sequence first second window =>
    rw [history, history, Bool.eq_iff_iff, hasSequence_iff, hasSequence_iff]
    simp only [h]

theorem hasRecent_mono (h : window ≤ wider) (hr : log.hasRecent now kind window) :
    log.hasRecent now kind wider := by
  obtain ⟨e, he, hkind, hwin⟩ := hasRecent_iff.mp hr
  exact hasRecent_iff.mpr ⟨e, he, hkind, inWindow_mono h hwin⟩

theorem hasSequence_mono (h : window ≤ wider) (hs : log.hasSequence now first second window) :
    log.hasSequence now first second wider := by
  obtain ⟨a, ha, b, hb, hfirst, hsecond, hlt, hawin, hbwin⟩ := hasSequence_iff.mp hs
  exact hasSequence_iff.mpr
    ⟨a, ha, b, hb, hfirst, hsecond, hlt, inWindow_mono h hawin, inWindow_mono h hbwin⟩

/-- A sequence is reported if and only if the log holds two events of its kinds in the window, the
first of them strictly earlier. In the window is what happened less than its length ago, and what
is still to happen. The order of the reports does not matter for any answer, and what is answered
with yes for a window is so for every wider one. -/
theorem answers_mean_pairs (log : EventLog) (now : Instant) (window : Duration) :
    (∀ first second, log.hasSequence now first second window = true ↔
      ∃ a ∈ log.events, ∃ b ∈ log.events, a.kind = first ∧ b.kind = second ∧ a.time < b.time ∧
        inWindow now window a ∧ inWindow now window b) ∧
      (IsWord window → ∀ e, inWindow now window e = true ↔
        0 < window ∧ now - e.time < window) ∧
      (∀ other : EventLog, other.events.Perm log.events → other.history now = log.history now) ∧
      ∀ wider, window ≤ wider →
        (∀ kind, log.hasRecent now kind window → log.hasRecent now kind wider) ∧
          ∀ first second, log.hasSequence now first second window →
            log.hasSequence now first second wider :=
  ⟨fun _ _ => hasSequence_iff, fun hw e => inWindow_iff hw e,
    fun _ hperm => history_congr fun _ => hperm.mem_iff,
    fun _ hwider => ⟨fun _ => hasRecent_mono hwider, fun _ _ => hasSequence_mono hwider⟩⟩

/-- The later of two events of a kind was reported first, and one of another kind happens together
with it. -/
theorem answers_mean_pairs_three :
    let enter : Event := ⟨"enter", ∅, 500⟩
    let exit : Event := ⟨"exit", ∅, 0⟩
    let stay : Event := ⟨"stay", ∅, 500⟩
    let log : EventLog := ⟨8, 1000, [enter, stay, exit]⟩
    inWindow 600 601 exit = true ∧ log.hasSequence 600 "exit" "enter" 601 = true ∧
      log.hasSequence 600 "exit" "enter" 700 = true ∧
      log.hasSequence 600 "stay" "enter" 601 = false ∧
      history ⟨8, 1000, [exit, enter, stay]⟩ 600 = log.history 600 := by
  intro enter exit stay log
  obtain ⟨hpair, hwindow, horder, hwider⟩ := answers_mean_pairs log 600 601
  have hin : ∀ e, inWindow 600 601 e = true ↔ (0 : Int) < 601 ∧ 600 - e.time < 601 :=
    hwindow ⟨by decide, by decide⟩
  have hsequence : log.hasSequence 600 "exit" "enter" 601 = true :=
    (hpair "exit" "enter").mpr ⟨exit, by simp [log], enter, by simp [log], rfl, rfl, by decide,
      (hin exit).mpr (by decide), (hin enter).mpr (by decide)⟩
  exact ⟨(hin exit).mpr (by decide), hsequence,
    (hwider 700 (by decide)).2 "exit" "enter" hsequence, by decide,
    horder _ ((List.Perm.swap enter exit [stay]).trans (.cons enter (.swap stay exit [])))⟩

end EventLog

end ContextAdvisor
