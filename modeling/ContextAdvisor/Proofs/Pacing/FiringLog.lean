import ContextAdvisor.Dictionary.Lemmas
import ContextAdvisor.Pacing.Limiter
import ContextAdvisor.Proofs.Run
import Mathlib.Data.List.TakeWhile

/-!
# The limiter and the log of all firings

A plain log keeps every firing and every end of a cooldown, and answers each question by counting.
As long as time does not run backwards, the limiter gives the same answers, although it keeps less:
what it has dropped is too old for every later question. So it does not matter which questions were
asked in between. All this is about differences of times that do not wrap around. For what the
limiter holds it is enough that the cutoff of a window does not wrap at the lower end of the words:
wrapping at the upper end only makes it drop less.
-/
namespace ContextAdvisor

/-- A firing of a rule with an action of some kind. -/
structure Firing where
  id : String
  kind : String
  time : Instant

/-- What a log notes. -/
inductive LogEntry where
  | fired (firing : Firing)
  /-- The cooldown of a rule was ended. -/
  | forgotten (id : String)

namespace LogEntry

/-- Is the entry about a rule? -/
def concerns (id : String) : LogEntry → Bool
  | fired firing => firing.id == id
  | forgotten other => other == id

/-- The firing that was noted. -/
def firing? : LogEntry → Option Firing
  | fired firing => some firing
  | forgotten _ => none

end LogEntry

/-- Everything that was noted, the latest entry first. -/
structure FiringLog where
  limits : FiringLimits
  entries : List LogEntry

namespace FiringLog

/-- The log before any firing. -/
def ofLimits (limits : FiringLimits) : FiringLog := ⟨limits, []⟩

/-- All firings, the latest first. -/
def firings (log : FiringLog) : List Firing := log.entries.filterMap LogEntry.firing?

/-- The firing that a rule still rests from: its last one, unless its cooldown was ended since. -/
def lastFiring? (log : FiringLog) (id : String) : Option Firing :=
  (log.entries.find? (LogEntry.concerns id)).bind LogEntry.firing?

/-- The number of firings from an instant on. -/
def count (log : FiringLog) (since : Instant) : Nat :=
  (log.firings.filter fun f => since ≤ f.time).length

/-- The number of firings of a kind from an instant on. -/
def countOf (log : FiringLog) (kind : String) (since : Instant) : Nat :=
  (log.firings.filter fun f => f.kind = kind ∧ since ≤ f.time).length

/-- Which limit forbids a rule to fire? -/
def refusal? (log : FiringLog) (id : String) (cooldown : Duration) (kind : String)
    (now : Instant) : Option Refusal :=
  let resting := (log.lastFiring? id).filter fun f => 0 < cooldown ∧ now - f.time < cooldown
  match resting with
  | some f => some (.cooldown (cooldown - (now - f.time)))
  | none =>
    if log.limits.categoryMax ≤ log.countOf kind (now - log.limits.categoryWindow) then
      some (.category kind)
    else if log.limits.globalMaxPerHour ≤ log.count (now - Duration.hour) then some .global
    else none

end FiringLog

/-- A use of a limiter. -/
inductive LimiterUse where
  | check (id : String) (cooldown : Duration) (kind : String) (now : Instant)
  | record (id kind : String) (now : Instant)
  | globalCount (now : Instant)
  | forget (id : String)
  | reset

/-- When a use happens, if that makes a difference. -/
def LimiterUse.time? : LimiterUse → Option Instant
  | check _ _ _ now => some now
  | record _ _ now => some now
  | globalCount now => some now
  | forget _ => none
  | reset => none

/-- Do the differences of times that the log's answer rests on fit a word? -/
def FiringLog.FitsWords (log : FiringLog) : LimiterUse → Prop
  | .check id cooldown _ now =>
    (∀ f ∈ log.lastFiring? id, IsWord (now - f.time) ∧
      (0 < cooldown ∧ now - f.time < cooldown → IsWord (cooldown - (now - f.time)))) ∧
    IsWord (now - log.limits.categoryWindow) ∧ IsWord (now - Duration.hour)
  | .globalCount now => IsWord (now - Duration.hour)
  | _ => True

instance FiringLog.decidableFitsWords (log : FiringLog) (call : LimiterUse) :
    Decidable (log.FitsWords call) := by
  cases call <;> unfold FitsWords <;> infer_instance

/-- What a use of a limiter gives back. -/
inductive LimiterAnswer where
  | verdict (refusal : Option Refusal)
  | count (n : Nat)
  | nothing
  deriving DecidableEq

/-- Lets a limiter answer. -/
def Limiter.perform (limiter : Limiter) : LimiterUse → LimiterAnswer × Limiter
  | .check id cooldown kind now =>
    let (refusal, limiter) := limiter.check id cooldown kind now
    (.verdict refusal, limiter)
  | .record id kind now => (.nothing, limiter.record id kind now)
  | .globalCount now =>
    let (n, limiter) := limiter.globalCount now
    (.count n, limiter)
  | .forget id => (.nothing, limiter.forget id)
  | .reset => (.nothing, limiter.reset)

/-- The log with one more firing. -/
def FiringLog.noting (log : FiringLog) (firing : Firing) : FiringLog :=
  { log with entries := .fired firing :: log.entries }

/-- Lets a log answer. Questions leave it as it is. -/
def FiringLog.perform (log : FiringLog) : LimiterUse → LimiterAnswer × FiringLog
  | .check id cooldown kind now => (.verdict (log.refusal? id cooldown kind now), log)
  | .record id kind now => (.nothing, log.noting ⟨id, kind, now⟩)
  | .globalCount now => (.count (log.count (now - Duration.hour)), log)
  | .forget id => (.nothing, { log with entries := .forgotten id :: log.entries })
  | .reset => (.nothing, ofLimits log.limits)

/-- The times of all firings, the latest first. -/
def FiringLog.times (log : FiringLog) : List Instant := log.firings.map (·.time)

/-- The times of all firings of a kind, the latest first. -/
def FiringLog.timesOf (log : FiringLog) (kind : String) : List Instant :=
  (log.firings.filter (·.kind = kind)).map (·.time)

@[simp] theorem FiringLog.firings_noting (log : FiringLog) (firing : Firing) :
    (log.noting firing).firings = firing :: log.firings := rfl

@[simp] theorem FiringLog.times_noting (log : FiringLog) (firing : Firing) :
    (log.noting firing).times = firing.time :: log.times := rfl

theorem FiringLog.timesOf_noting (log : FiringLog) (firing : Firing) (kind : String) :
    (log.noting firing).timesOf kind =
      if firing.kind = kind then firing.time :: log.timesOf kind else log.timesOf kind := by
  simp only [timesOf, firings_noting, List.filter_cons]
  by_cases h : firing.kind = kind <;> simp [h]

theorem FiringLog.count_eq (log : FiringLog) (since : Instant) :
    log.count since = (log.times.filter (since ≤ ·)).length := by
  simp only [count, times, List.filter_map, List.length_map, Function.comp_def]

theorem FiringLog.countOf_eq (log : FiringLog) (kind : String) (since : Instant) :
    log.countOf kind since = ((log.timesOf kind).filter (since ≤ ·)).length := by
  simp only [countOf, timesOf, List.filter_map, List.length_map, Function.comp_def,
    List.filter_filter, Bool.decide_and, Bool.and_comm]

/-- A list, oldest time first, holds all of `times`, latest time first, but for some before a
cutoff. -/
def Remains (cutoff : Instant) (times held : List Instant) : Prop :=
  ∃ dropped, times = held.reverse ++ dropped ∧ ∀ t ∈ dropped, t < cutoff

namespace Remains

variable {cutoff : Instant} {times held : List Instant}

theorem nil : Remains cutoff [] [] := ⟨[], rfl, by simp⟩

theorem mono {later : Instant} (h : Remains cutoff times held) (hc : cutoff ≤ later) :
    Remains later times held := by
  obtain ⟨dropped, rfl, hd⟩ := h
  exact ⟨dropped, rfl, fun t ht => (hd t ht).trans_le hc⟩

theorem record (h : Remains cutoff times held) (t : Instant) :
    Remains cutoff (t :: times) (held ++ [t]) := by
  obtain ⟨dropped, rfl, hd⟩ := h
  exact ⟨dropped, by simp, hd⟩

/-- Pruning no later than at the cutoff drops nothing that matters from the cutoff on. -/
theorem pruned (h : Remains cutoff times held) {earlier : Instant} (he : earlier ≤ cutoff) :
    Remains cutoff times (Limiter.pruned earlier held) := by
  obtain ⟨dropped, rfl, hd⟩ := h
  refine ⟨(held.takeWhile (· < earlier)).reverse ++ dropped, ?_, fun t ht => ?_⟩
  · rw [← List.append_assoc, ← List.reverse_append, Limiter.pruned,
      List.takeWhile_append_dropWhile]
  · rcases List.mem_append.mp ht with ht | ht
    · have hold : t < earlier := by simpa using List.mem_takeWhile_imp (List.mem_reverse.mp ht)
      exact hold.trans_le he
    · exact hd t ht

/-- What counts from the cutoff on is all held. -/
theorem length_filter_le (h : Remains cutoff times held) :
    (times.filter (cutoff ≤ ·)).length ≤ held.length := by
  obtain ⟨dropped, rfl, hd⟩ := h
  have hnone : dropped.filter (cutoff ≤ ·) = [] :=
    List.filter_eq_nil_iff.mpr fun t ht => by simpa using hd t ht
  rw [List.filter_append, hnone, List.append_nil]
  exact (List.length_filter_le _ _).trans_eq List.length_reverse

end Remains

/-- In a list that ascends, the times before a cutoff are those at the front. -/
theorem Limiter.pruned_eq_filter {cutoff : Instant} {times : List Instant}
    (h : times.Pairwise (· ≤ ·)) : pruned cutoff times = times.filter (cutoff ≤ ·) := by
  induction times with
  | nil => rfl
  | cons t rest ih =>
    obtain ⟨hfirst, hrest⟩ := List.pairwise_cons.mp h
    by_cases ht : t < cutoff
    · have hskip : ¬ cutoff ≤ t := not_le.mpr ht
      rw [pruned, List.dropWhile_cons_of_pos (by simpa using ht),
        List.filter_cons_of_neg (by simpa using hskip)]
      exact ih hrest
    · -- from here on nothing is before the cutoff
      have hall : ∀ s ∈ t :: rest, cutoff ≤ s := by
        intro s hs
        rcases List.mem_cons.mp hs with rfl | hs
        · exact not_lt.mp ht
        · exact (not_lt.mp ht).trans (hfirst s hs)
      rw [pruned, List.dropWhile_cons_of_neg (by simpa using ht),
        List.filter_eq_self.mpr (by simpa using hall)]

/-- After pruning as many times are left as there are from the cutoff on. -/
theorem Remains.length_pruned {cutoff : Instant} {times held : List Instant}
    (h : Remains cutoff times held) (hs : times.Pairwise (· ≥ ·)) :
    (Limiter.pruned cutoff held).length = (times.filter (cutoff ≤ ·)).length := by
  obtain ⟨dropped, rfl, hd⟩ := h
  have hheld : held.Pairwise (· ≤ ·) := List.pairwise_reverse.mp (List.pairwise_append.mp hs).1
  have hnone : dropped.filter (cutoff ≤ ·) = [] :=
    List.filter_eq_nil_iff.mpr fun t ht => by simpa using hd t ht
  rw [Limiter.pruned_eq_filter hheld, List.filter_append, hnone, List.append_nil,
    List.filter_reverse, List.length_reverse]

namespace Limiter

variable {limiter : Limiter} {log : FiringLog} {now : Instant}

/-- The times of a kind that still count. -/
def current? (limiter : Limiter) (kind : String) (now : Instant) : Option (List Instant) :=
  (limiter.byKind.get? kind).map (pruned (wrappedDifference now limiter.limits.categoryWindow))

theorem get?_pruneKind (limiter : Limiter) (kind other : String) :
    (limiter.pruneKind kind now).byKind.get? other =
      if other = kind then limiter.current? kind now else limiter.byKind.get? other := by
  unfold pruneKind current?
  cases hk : limiter.byKind.get? kind with
  | some times => simp
  | none =>
    split_ifs with h
    · rw [h, hk]
      rfl
    · rfl

theorem pruneKind_eq (limiter : Limiter) (kind : String) : limiter.pruneKind kind now =
    { limiter with byKind := (limiter.pruneKind kind now).byKind } := by
  unfold pruneKind
  split <;> rfl

/-- What both ways of pruning keep, a check keeps. -/
theorem check_snd_of_kept {P : Limiter → Prop} (hp : P limiter) {kind : String}
    (pruneKind : P limiter → P (limiter.pruneKind kind now))
    (pruneAll : ∀ other : Limiter, other.limits = limiter.limits → P other →
      P (other.pruneAll now)) (id : String) (cooldown : Duration) :
    P (limiter.check id cooldown kind now).2 := by
  have hlimits : (limiter.pruneKind kind now).limits = limiter.limits := by rw [pruneKind_eq]
  unfold check
  split
  · exact hp
  · dsimp only
    split_ifs
    · exact pruneKind hp
    · exact pruneAll _ hlimits (pruneKind hp)
    · exact pruneAll _ hlimits (pruneKind hp)

/-- The times that are held of a kind. -/
def held (limiter : Limiter) (kind : String) : List Instant :=
  (limiter.byKind.get? kind).getD []

theorem held_pruneKind (limiter : Limiter) (kind other : String) :
    (limiter.pruneKind kind now).held other = if other = kind then
      pruned (wrappedDifference now limiter.limits.categoryWindow) (limiter.held other)
    else limiter.held other := by
  rw [held, get?_pruneKind, held]
  split_ifs with h
  · subst h
    rw [current?]
    cases limiter.byKind.get? other <;> rfl
  · rfl

/-- A kind without firings is not exhausted, since at least one firing is allowed. -/
theorem kindExhausted_iff (hm : 1 ≤ limiter.limits.categoryMax) (kind : String) :
    limiter.kindExhausted kind = true ↔
      limiter.limits.categoryMax ≤ (limiter.held kind).length := by
  unfold kindExhausted held
  cases limiter.byKind.get? kind with
  | none => simp [Nat.pos_iff_ne_zero.mp hm]
  | some times => simp

/-- Does the limiter hold all firings of a log that lie within the last hour? -/
def HoldsHour (limiter : Limiter) (log : FiringLog) (now : Instant) : Prop :=
  Remains (now - Duration.hour) log.times limiter.all

/-- Does the limiter hold all firings of a log that lie within the window of their kind? -/
def HoldsKinds (limiter : Limiter) (log : FiringLog) (now : Instant) : Prop :=
  ∀ kind, Remains (now - limiter.limits.categoryWindow) (log.timesOf kind) (limiter.held kind)

theorem holdsHour_ofLimits (limits : FiringLimits) (now : Instant) :
    (ofLimits limits).HoldsHour (.ofLimits limits) now := .nil

theorem holdsKinds_ofLimits (limits : FiringLimits) (now : Instant) :
    (ofLimits limits).HoldsKinds (.ofLimits limits) now := fun _ => .nil

namespace HoldsHour

theorem later (h : limiter.HoldsHour log now) {next : Instant} (hn : now ≤ next) :
    limiter.HoldsHour log next :=
  h.mono (Int.sub_le_sub_right hn _)

theorem pruneKind (h : limiter.HoldsHour log now) (kind : String) :
    (limiter.pruneKind kind now).HoldsHour log now := by
  rw [pruneKind_eq]
  exact h

theorem pruneAll (h : limiter.HoldsHour log now) (hw : leastWord ≤ now - Duration.hour) :
    (limiter.pruneAll now).HoldsHour log now :=
  h.pruned (wrappedDifference_le hw)

theorem record (h : limiter.HoldsHour log now) (id kind : String) :
    (limiter.record id kind now).HoldsHour (log.noting ⟨id, kind, now⟩) now :=
  Remains.record h now

end HoldsHour

namespace HoldsKinds

theorem later (h : limiter.HoldsKinds log now) {next : Instant} (hn : now ≤ next) :
    limiter.HoldsKinds log next :=
  fun kind => (h kind).mono (Int.sub_le_sub_right hn _)

theorem pruneKind (h : limiter.HoldsKinds log now)
    (hw : leastWord ≤ now - limiter.limits.categoryWindow) (kind : String) :
    (limiter.pruneKind kind now).HoldsKinds log now := by
  intro other
  have hlimits : (limiter.pruneKind kind now).limits = limiter.limits := by rw [pruneKind_eq]
  rw [held_pruneKind, hlimits]
  split_ifs
  · exact (h other).pruned (wrappedDifference_le hw)
  · exact h other

theorem pruneAll (h : limiter.HoldsKinds log now) : (limiter.pruneAll now).HoldsKinds log now := h

theorem record (h : limiter.HoldsKinds log now) (id kind : String) :
    (limiter.record id kind now).HoldsKinds (log.noting ⟨id, kind, now⟩) now := by
  intro other
  have hother := h other
  rw [FiringLog.timesOf_noting]
  simp only [held, Limiter.record, Dictionary.get?_insert] at hother ⊢
  by_cases ho : kind = other
  · subst ho
    simpa using hother.record now
  · simpa [ho, Ne.symm ho] using hother

end HoldsKinds

/-- A limiter holds what matters of a log from an instant on. -/
structure Follows (limiter : Limiter) (log : FiringLog) (now : Instant) : Prop where
  limits : limiter.limits = log.limits
  lastFired : ∀ id, limiter.lastFired.get? id = (log.lastFiring? id).map (·.time)
  hour : limiter.HoldsHour log now
  kinds : limiter.HoldsKinds log now
  chronological : (now :: log.times).Pairwise (· ≥ ·)

theorem follows_ofLimits (limits : FiringLimits) (now : Instant) :
    (ofLimits limits).Follows (.ofLimits limits) now where
  limits := rfl
  lastFired _ := rfl
  hour := holdsHour_ofLimits limits now
  kinds := holdsKinds_ofLimits limits now
  chronological := List.pairwise_singleton _ _

namespace Follows

theorem later (h : limiter.Follows log now) {next : Instant} (hn : now ≤ next) :
    limiter.Follows log next where
  limits := h.limits
  lastFired := h.lastFired
  hour := h.hour.later hn
  kinds := h.kinds.later hn
  chronological := by
    obtain ⟨hnow, htimes⟩ := List.pairwise_cons.mp h.chronological
    exact List.pairwise_cons.mpr ⟨fun t ht => (hnow t ht).trans hn, htimes⟩

theorem times_descend (h : limiter.Follows log now) : log.times.Pairwise (· ≥ ·) :=
  (List.pairwise_cons.mp h.chronological).2

theorem timesOf_descend (h : limiter.Follows log now) (kind : String) :
    (log.timesOf kind).Pairwise (· ≥ ·) :=
  h.times_descend.sublist ((List.filter_sublist).map _)

theorem cooldownLeft?_eq (h : limiter.Follows log now) {id : String} {cooldown : Duration}
    (hw : ∀ f ∈ log.lastFiring? id, IsWord (now - f.time) ∧
      (0 < cooldown ∧ now - f.time < cooldown → IsWord (cooldown - (now - f.time)))) :
    limiter.cooldownLeft? id cooldown now = ((log.lastFiring? id).filter fun f =>
      0 < cooldown ∧ now - f.time < cooldown).map fun f => cooldown - (now - f.time) := by
  rw [cooldownLeft?, h.lastFired]
  cases hlast : log.lastFiring? id with
  | none => rfl
  | some f =>
    obtain ⟨helapsed, hleft⟩ := hw f hlast
    by_cases hr : 0 < cooldown ∧ now - f.time < cooldown
    · simp [hr, wrappedDifference_eq helapsed, wrappedDifference_eq (hleft hr)]
    · simp only [Option.map_some, Option.filter_some, wrappedDifference_eq helapsed, hr,
        decide_false, if_false]
      rfl

theorem pruneKind (h : limiter.Follows log now)
    (hw : leastWord ≤ now - log.limits.categoryWindow) (kind : String) :
    (limiter.pruneKind kind now).Follows log now := by
  have hkinds := h.kinds.pruneKind (h.limits ▸ hw) kind
  have hhour := h.hour.pruneKind kind
  rw [pruneKind_eq] at hkinds hhour ⊢
  exact ⟨h.limits, h.lastFired, hhour, hkinds, h.chronological⟩

theorem pruneAll (h : limiter.Follows log now) (hw : leastWord ≤ now - Duration.hour) :
    (limiter.pruneAll now).Follows log now :=
  ⟨h.limits, h.lastFired, h.hour.pruneAll hw, h.kinds.pruneAll, h.chronological⟩

/-- After pruning a kind counts as exhausted if its share of the log is used up. -/
theorem kindExhausted_pruneKind (h : limiter.Follows log now) (hm : 1 ≤ log.limits.categoryMax)
    (hw : IsWord (now - log.limits.categoryWindow)) (kind : String) :
    (limiter.pruneKind kind now).kindExhausted kind = true ↔
      log.limits.categoryMax ≤ log.countOf kind (now - log.limits.categoryWindow) := by
  have hlimits : (limiter.pruneKind kind now).limits = log.limits :=
    (h.pruneKind hw.1 kind).limits
  have hheld := h.kinds kind
  rw [h.limits] at hheld
  rw [kindExhausted_iff (hlimits ▸ hm), hlimits, held_pruneKind, if_pos rfl, h.limits,
    wrappedDifference_eq hw, hheld.length_pruned (h.timesOf_descend kind), log.countOf_eq]

theorem length_pruneAll (h : limiter.Follows log now) (hw : IsWord (now - Duration.hour)) :
    (limiter.pruneAll now).all.length = log.count (now - Duration.hour) := by
  rw [log.count_eq, Limiter.pruneAll, wrappedDifference_eq hw]
  exact Remains.length_pruned h.hour h.times_descend

/-- A check answers from the whole log, and what it drops does not matter. -/
theorem check (h : limiter.Follows log now) (hm : 1 ≤ log.limits.categoryMax) {id : String}
    {cooldown : Duration} {kind : String} (hw : log.FitsWords (.check id cooldown kind now)) :
    (limiter.check id cooldown kind now).1 = log.refusal? id cooldown kind now ∧
      (limiter.check id cooldown kind now).2.Follows log now := by
  obtain ⟨hrest, hwindow, hhour⟩ := hw
  have hkind := h.pruneKind hwindow.1 kind
  refine ⟨?_, check_snd_of_kept (P := fun l => l.Follows log now) h
    (fun h => h.pruneKind hwindow.1 kind) (fun _ _ h => h.pruneAll hhour.1) id cooldown⟩
  unfold Limiter.check FiringLog.refusal?
  rw [h.cooldownLeft?_eq hrest]
  cases (log.lastFiring? id).filter fun f => 0 < cooldown ∧ now - f.time < cooldown with
  | some f => rfl
  | none =>
    have hlimits : ((limiter.pruneKind kind now).pruneAll now).limits = log.limits := hkind.limits
    simp only [Option.map_none, h.kindExhausted_pruneKind hm hwindow, hkind.length_pruneAll hhour,
      hlimits]
    split_ifs <;> rfl

theorem record (h : limiter.Follows log now) (id kind : String) :
    (limiter.record id kind now).Follows (log.noting ⟨id, kind, now⟩) now where
  limits := h.limits
  lastFired other := by
    have hother := h.lastFired other
    simp only [Limiter.record, Dictionary.get?_insert, FiringLog.lastFiring?] at hother ⊢
    by_cases ho : other = id
    · simp [ho, FiringLog.noting, LogEntry.concerns, LogEntry.firing?]
    · simpa [ho, FiringLog.noting, LogEntry.concerns, Ne.symm ho] using hother
  hour := h.hour.record id kind
  kinds := h.kinds.record id kind
  chronological := by
    obtain ⟨hnow, htimes⟩ := List.pairwise_cons.mp h.chronological
    refine List.pairwise_cons.mpr ⟨fun t ht => ?_, h.chronological⟩
    rcases List.mem_cons.mp ht with rfl | ht
    · exact le_refl _
    · exact hnow t ht

theorem forget (h : limiter.Follows log now) (id : String) :
    (limiter.forget id).Follows { log with entries := .forgotten id :: log.entries } now where
  limits := h.limits
  lastFired other := by
    have hother := h.lastFired other
    simp only [Limiter.forget, Dictionary.get?_erase, FiringLog.lastFiring?] at hother ⊢
    by_cases ho : other = id
    · simp [ho, LogEntry.concerns, LogEntry.firing?]
    · simpa [ho, LogEntry.concerns, Ne.symm ho] using hother
  hour := h.hour
  kinds := h.kinds
  chronological := h.chronological

theorem reset (h : limiter.Follows log now) :
    limiter.reset.Follows (.ofLimits log.limits) now := by
  rw [Limiter.reset, h.limits]
  exact follows_ofLimits _ _

/-- Every use that does not lie in the past is answered from the whole log. -/
theorem perform (h : limiter.Follows log now) (hm : 1 ≤ log.limits.categoryMax)
    {call : LimiterUse} (ht : ∀ t ∈ call.time?, now ≤ t) (hw : log.FitsWords call) :
    (limiter.perform call).1 = (log.perform call).1 ∧
      (limiter.perform call).2.Follows (log.perform call).2 (call.time?.getD now) := by
  cases call with
  | check id cooldown kind next =>
    obtain ⟨hanswer, hnext⟩ := (h.later (ht next rfl)).check hm hw
    exact ⟨congrArg LimiterAnswer.verdict hanswer, hnext⟩
  | record id kind next => exact ⟨rfl, (h.later (ht next rfl)).record id kind⟩
  | globalCount next =>
    have hnext := h.later (ht next rfl)
    exact ⟨congrArg LimiterAnswer.count (hnext.length_pruneAll hw), hnext.pruneAll hw.1⟩
  | forget id => exact ⟨rfl, h.forget id⟩
  | reset => exact ⟨rfl, h.reset⟩

end Follows

end Limiter

@[simp] theorem FiringLog.perform_limits (log : FiringLog) (call : LimiterUse) :
    (log.perform call).2.limits = log.limits := by
  cases call <;> rfl

/-- Do the uses happen in the order of their times? -/
def Chronological (calls : List LimiterUse) : Prop :=
  (calls.filterMap LimiterUse.time?).Pairwise (· ≤ ·)

/-- From an instant on a limiter that follows a log gives the answers of the log. -/
theorem Limiter.Follows.answers_eq {limiter : Limiter} {log : FiringLog} {now : Instant}
    (h : limiter.Follows log now) (hm : 1 ≤ log.limits.categoryMax) {calls : List LimiterUse}
    (hc : Chronological calls) (hw : Run.Always FiringLog.perform FiringLog.FitsWords log calls)
    (hn : ∀ t ∈ calls.filterMap LimiterUse.time?, now ≤ t) :
    Run.answers Limiter.perform limiter calls = Run.answers FiringLog.perform log calls := by
  induction calls generalizing limiter log now with
  | nil => rfl
  | cons call rest ih =>
    have hcall : ∀ t ∈ call.time?, now ≤ t := fun t ht =>
      hn t (List.mem_filterMap.mpr ⟨call, List.mem_cons_self, ht⟩)
    obtain ⟨hanswer, hnext⟩ := h.perform hm hcall hw.1
    have hrest : ∀ t ∈ rest.filterMap LimiterUse.time?, call.time?.getD now ≤ t := by
      intro t ht
      cases ha : call.time? with
      | none => exact hn t (by simpa [ha] using ht)
      | some first =>
        rw [Chronological, List.filterMap_cons_some ha] at hc
        exact (List.pairwise_cons.mp hc).1 t ht
    have hc' : Chronological rest :=
      hc.sublist ((List.sublist_cons_self call rest).filterMap _)
    rw [Run.answers, Run.answers, hanswer, ih hnext (by simpa using hm) hc' hw.2 hrest]

namespace Limiter

theorem answers_eq {limits : FiringLimits} (hm : 1 ≤ limits.categoryMax)
    {calls : List LimiterUse} (hc : Chronological calls)
    (hw : Run.Always FiringLog.perform FiringLog.FitsWords (.ofLimits limits) calls) :
    Run.answers perform (ofLimits limits) calls =
      Run.answers FiringLog.perform (.ofLimits limits) calls := by
  cases ht : calls.filterMap LimiterUse.time? with
  | nil => exact (follows_ofLimits limits 0).answers_eq hm hc hw (by simp [ht])
  | cons first rest =>
    -- nothing happens before the first time
    refine (follows_ofLimits limits first).answers_eq hm hc hw fun t hmem => ?_
    rw [Chronological, ht] at hc
    rw [ht] at hmem
    rcases List.mem_cons.mp hmem with rfl | hmem
    · exact le_refl _
    · exact (List.pairwise_cons.mp hc).1 t hmem

/-- A check changes no later answer. -/
theorem answers_of_check {limits : FiringLimits} (hm : 1 ≤ limits.categoryMax)
    {front rest : List LimiterUse} {id : String} {cooldown : Duration} {kind : String}
    {now : Instant} (hc : Chronological (front ++ .check id cooldown kind now :: rest))
    (hw : Run.Always FiringLog.perform FiringLog.FitsWords (.ofLimits limits)
      (front ++ .check id cooldown kind now :: rest)) :
    Run.answers perform
        (Run.after perform (ofLimits limits) (front ++ [.check id cooldown kind now])) rest =
      Run.answers perform (Run.after perform (ofLimits limits) front) rest := by
  have hshort : Chronological (front ++ rest) :=
    hc.sublist (((List.sublist_cons_self _ _).append_left front).filterMap _)
  -- the log is the same with and without the check
  have hfits : Run.Always FiringLog.perform FiringLog.FitsWords (.ofLimits limits)
      (front ++ rest) := by
    obtain ⟨hfront, -, hrest⟩ := Run.always_append.mp hw
    exact Run.always_append.mpr ⟨hfront, hrest⟩
  have hwith := answers_eq hm hc hw
  have hwithout := answers_eq hm hshort hfits
  simp only [Run.answers_append, Run.answers, Run.after_append, Run.after_cons, Run.after_nil]
    at hwith hwithout ⊢
  have hlong := (List.append_inj hwith (by simp)).2
  have hlater := (List.append_inj hwithout (by simp)).2
  exact (List.cons_eq_cons.mp hlong).2.trans hlater.symm

/-- As long as time does not run backwards, no difference of times leaves the words and a kind may
fire at all, the limiter gives the answers of the log of all firings, and no check changes a later
answer. -/
theorem perform_eq_log {limits : FiringLimits} (hm : 1 ≤ limits.categoryMax)
    {calls : List LimiterUse} (hc : Chronological calls)
    (hw : Run.Always FiringLog.perform FiringLog.FitsWords (.ofLimits limits) calls) :
    Run.answers perform (ofLimits limits) calls =
        Run.answers FiringLog.perform (.ofLimits limits) calls ∧
      ∀ front id cooldown kind now rest, calls = front ++ .check id cooldown kind now :: rest →
        Run.answers perform
            (Run.after perform (ofLimits limits) (front ++ [.check id cooldown kind now])) rest =
          Run.answers perform (Run.after perform (ofLimits limits) front) rest := by
  refine ⟨answers_eq hm hc hw, ?_⟩
  rintro front id cooldown kind now rest rfl
  exact answers_of_check hm hc hw

/-- A rule that rests, a kind and an hour that are used up, and firings that leave their windows. -/
theorem perform_eq_log_hour :
    let limits : FiringLimits := ⟨1, 30 * Duration.minute, 2⟩
    let calls : List LimiterUse := [.record "a" "light" 0, .check "a" 1000 "sound" 400,
      .forget "a", .check "a" 1000 "light" 400, .record "b" "sound" 1800000,
      .check "a" 1000 "light" 1800001, .check "b" 1000 "sound" 3600000, .globalCount 3600000,
      .check "b" 1000 "sound" 3600001]
    1 ≤ limits.categoryMax ∧ Chronological calls ∧
      Run.Always FiringLog.perform FiringLog.FitsWords (.ofLimits limits) calls ∧
      Run.answers perform (ofLimits limits) calls =
        Run.answers FiringLog.perform (.ofLimits limits) calls ∧
      Run.answers FiringLog.perform (.ofLimits limits) calls = [.nothing,
        .verdict (some (.cooldown 600)), .nothing, .verdict (some (.category "light")), .nothing,
        .verdict (some .global), .verdict (some (.category "sound")), .count 2,
        .verdict none] := by
  intro limits calls
  have hm : 1 ≤ limits.categoryMax := by decide
  have hc : Chronological calls := by
    rw [Chronological]
    decide
  have hw : Run.Always FiringLog.perform FiringLog.FitsWords (.ofLimits limits) calls := by
    decide
  exact ⟨hm, hc, hw, (perform_eq_log hm hc hw).1, by decide⟩

end Limiter

end ContextAdvisor
