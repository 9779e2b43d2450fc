import ContextAdvisor.Arithmetic.Window
import ContextAdvisor.Proofs.Run
import ContextAdvisor.Safeguard.Monitor
import Mathlib.Data.List.DropRight
import Mathlib.Data.List.ReduceOption

/-!
# The monitor and the log of all rewards

A plain log keeps every reward with the notice that it gave rise to, and every average that was
stored with a checkpoint. It judges a reward by the mean of the last rewards of all. The monitor
keeps no more than a window, which it empties whenever it advises to roll back; still it gives the
same notices, because until the window is full again there is nothing to judge. So there is a whole
window of rewards between any two such pieces of advice.
-/
namespace ContextAdvisor

variable {π α : Type}

/-- A use of a monitor. -/
inductive MonitorUse (π α : Type) where
  | observe (reward : α)
  | store (state : π) (average : α)

/-- Is a checkpoint stored? -/
def MonitorUse.isStore : MonitorUse π α → Bool
  | observe _ => false
  | store _ _ => true

/-- Is the notice advice to roll back? -/
def MonitorNotice.isRollback : MonitorNotice α → Bool
  | rollback _ => true
  | _ => false

/-- Lets a monitor answer. -/
def Monitor.perform [Scalar α] (monitor : Monitor π α) :
    MonitorUse π α → Option (MonitorNotice α) × Monitor π α
  | .observe reward =>
    let (notice, monitor) := monitor.observe reward
    (some notice, monitor)
  | .store state average => (none, monitor.store state average)

/-- What a log notes. -/
inductive MonitorEntry (α : Type) where
  | observed (reward : α) (notice : MonitorNotice α)
  /-- A checkpoint was stored, with an average and the number of rewards until then. -/
  | stored (average : α) (update : Nat)

namespace MonitorEntry

/-- The reward that was noted. -/
def reward? : MonitorEntry α → Option α
  | observed reward _ => some reward
  | stored _ _ => none

/-- The notice that was noted. -/
def notice? : MonitorEntry α → Option (MonitorNotice α)
  | observed _ notice => some notice
  | stored _ _ => none

/-- The average and the number of rewards that were stored. -/
def checkpoint? : MonitorEntry α → Option (α × Nat)
  | observed _ _ => none
  | stored average update => some (average, update)

/-- Is the entry about a reward that led to a rollback? -/
def isRollback (entry : MonitorEntry α) : Bool := entry.notice?.any (·.isRollback)

end MonitorEntry

/-- Everything that happened, the latest entry last. -/
structure MonitorLog (α : Type) where
  settings : GuardSettings α
  entries : List (MonitorEntry α)

namespace MonitorLog

/-- The log before any reward. -/
def ofSettings (settings : GuardSettings α) : MonitorLog α := ⟨settings, []⟩

/-- The log with one more entry. -/
def add (log : MonitorLog α) (entry : MonitorEntry α) : MonitorLog α :=
  { log with entries := log.entries ++ [entry] }

/-- All rewards. -/
def rewards (log : MonitorLog α) : List α := log.entries.filterMap MonitorEntry.reward?

/-- All notices. -/
def notices (log : MonitorLog α) : List (MonitorNotice α) :=
  log.entries.filterMap MonitorEntry.notice?

/-- All averages that were stored, with the numbers of rewards until then. -/
def checkpoints (log : MonitorLog α) : List (α × Nat) :=
  log.entries.filterMap MonitorEntry.checkpoint?

/-- The rewards since the last rollback. -/
def recent (log : MonitorLog α) : List α :=
  (log.entries.rtakeWhile fun entry => !entry.isRollback).filterMap MonitorEntry.reward?

/-- How many rewards make up an average. -/
def size (log : MonitorLog α) : Nat := max 1 log.settings.monitorWindow

/-- How many rewards lie between two checkpoints. -/
def interval (log : MonitorLog α) : Nat := max 1 log.settings.checkpointInterval

section

variable (log : MonitorLog α) (reward average : α) (update : Nat) (notice : MonitorNotice α)

@[simp] theorem rewards_observed :
    (log.add (.observed reward notice)).rewards = log.rewards ++ [reward] := List.filterMap_append

@[simp] theorem rewards_stored : (log.add (.stored average update)).rewards = log.rewards := by
  simp [rewards, add, MonitorEntry.reward?]

@[simp] theorem notices_observed :
    (log.add (.observed reward notice)).notices = log.notices ++ [notice] := List.filterMap_append

@[simp] theorem notices_stored : (log.add (.stored average update)).notices = log.notices := by
  simp [notices, add, MonitorEntry.notice?]

@[simp] theorem checkpoints_observed :
    (log.add (.observed reward notice)).checkpoints = log.checkpoints := by
  simp [checkpoints, add, MonitorEntry.checkpoint?]

@[simp] theorem checkpoints_stored :
    (log.add (.stored average update)).checkpoints = log.checkpoints ++ [(average, update)] :=
  List.filterMap_append

theorem recent_observed : (log.add (.observed reward notice)).recent =
    if notice.isRollback then [] else log.recent ++ [reward] := by
  cases h : notice.isRollback <;>
    simp [recent, add, MonitorEntry.isRollback, MonitorEntry.notice?, h,
      MonitorEntry.reward?]

@[simp] theorem recent_stored : (log.add (.stored average update)).recent = log.recent := by
  simp [recent, add, MonitorEntry.isRollback, MonitorEntry.notice?,
    MonitorEntry.reward?]

end

/-- The rewards since the last rollback are the last rewards. -/
theorem recent_suffix (log : MonitorLog α) : log.recent <:+ log.rewards :=
  (List.rtakeWhile_suffix _ _).filterMap _

variable [Scalar α]

/-- The advice that an average gives against the latest checkpoint. -/
def regression? (log : MonitorLog α) (average : α) : Option (Rollback α) :=
  let regressed := log.checkpoints.getLast?.filter fun (baseline, _) =>
    1e-9 < Scalar.abs baseline ∧
      Scalar.abs baseline * log.settings.rollbackDrop < baseline - average
  regressed.map fun (baseline, update) => ⟨baseline, average, update⟩

/-- What one more reward gives rise to. -/
def notice (log : MonitorLog α) (reward : α) : MonitorNotice α :=
  let rewards := log.rewards ++ [reward]
  let average := Scalar.sum (Window.last log.size rewards) / Scalar.ofNat log.size
  if (log.recent ++ [reward]).length < log.size then .nothing
  else match log.regression? average with
    | some signal => .rollback signal
    | none => if log.interval ∣ rewards.length then .checkpointDue average else .nothing

/-- Lets a log answer. -/
def perform (log : MonitorLog α) : MonitorUse π α → Option (MonitorNotice α) × MonitorLog α
  | .observe reward =>
    (some (log.notice reward), log.add (.observed reward (log.notice reward)))
  | .store _ average => (none, log.add (.stored average log.rewards.length))

end MonitorLog

namespace Monitor

/-- Does a monitor hold what is left of a log: the last rewards since the last rollback, the latest
checkpoint and the counts? -/
structure Follows (monitor : Monitor π α) (log : MonitorLog α) : Prop where
  size : monitor.size = log.size
  interval : monitor.interval = log.interval
  drop : monitor.drop = log.settings.rollbackDrop
  window : monitor.window = Window.last log.size log.recent
  updates : monitor.updates = log.rewards.length
  checkpoint : monitor.checkpoint.map (fun c => (c.average, c.atUpdate)) =
    log.checkpoints.getLast?
  checkpoints : monitor.checkpoints = log.checkpoints.length
  rollbacks : monitor.rollbacks = log.notices.countP (·.isRollback)

theorem follows_ofSettings (settings : GuardSettings α) :
    (ofSettings settings : Monitor π α).Follows (.ofSettings settings) where
  size := max_comm _ _
  interval := max_comm _ _
  drop := rfl
  window := (Window.last_nil _).symm
  updates := rfl
  checkpoint := rfl
  checkpoints := rfl
  rollbacks := rfl

/-- The monitor with one more reward in its window. -/
def withReward (monitor : Monitor π α) (reward : α) : Monitor π α :=
  { monitor with
    window := Window.push monitor.size monitor.window reward
    updates := monitor.updates + 1 }

variable [Scalar α] {monitor : Monitor π α} {log : MonitorLog α}

theorem hasRegressed_iff {baseline current : α} : monitor.hasRegressed baseline current = true ↔
    1e-9 < Scalar.abs baseline ∧ Scalar.abs baseline * monitor.drop < baseline - current := by
  rw [hasRegressed, Bool.and_eq_true, decide_eq_true_eq, decide_eq_true_eq]
  rfl

/-- The advice depends on the average and on the latest checkpoint. -/
theorem Follows.regression?_eq (h : monitor.Follows log) :
    monitor.regression? = log.regression? monitor.average := by
  rw [MonitorLog.regression?, ← h.checkpoint, ← h.drop, regression?]
  cases monitor.checkpoint with
  | none => rfl
  | some c =>
    simp only [hasRegressed_iff, Option.map_some, Option.filter_some, decide_eq_true_eq]
    split_ifs <;> rfl

/-- With a full window, the average is that of the last rewards of all. -/
theorem mean_last_recent {reward : α} (hfull : log.size ≤ (log.recent ++ [reward]).length) :
    Scalar.mean (Window.last log.size (log.recent ++ [reward])) =
      Scalar.sum (Window.last log.size (log.rewards ++ [reward])) / Scalar.ofNat log.size := by
  have hlength : (Window.last log.size (log.recent ++ [reward])).length = log.size := by
    rw [Window.length_last, min_eq_left hfull]
  have hne : (Window.last log.size (log.recent ++ [reward])).isEmpty = false := by
    rw [List.isEmpty_eq_false_iff, ← List.length_pos_iff_ne_nil, hlength]
    exact Nat.lt_of_lt_of_le Nat.one_pos (le_max_left _ _)
  obtain ⟨earlier, hearlier⟩ := log.recent_suffix
  rw [Scalar.mean, hne, if_neg Bool.false_ne_true, hlength, ← hearlier, List.append_assoc,
    Window.last_append_of_le hfull]

omit [Scalar α] in
theorem Follows.window_withReward (h : monitor.Follows log) (reward : α) :
    (monitor.withReward reward).window = Window.last log.size (log.recent ++ [reward]) := by
  rw [withReward, h.size, h.window, Window.push_last]

omit [Scalar α] in
/-- One more reward is counted; a rollback empties the window and is counted, too. -/
theorem Follows.observed (h : monitor.Follows log) {reward : α} {notice : MonitorNotice α}
    {window : List α} {rollbacks : Nat}
    (hw : window = if notice.isRollback then [] else (monitor.withReward reward).window)
    (hr : rollbacks = monitor.rollbacks + notice.isRollback.toNat) :
    ({ monitor.withReward reward with window := window, rollbacks := rollbacks }).Follows
      (log.add (.observed reward notice)) where
  size := h.size
  interval := h.interval
  drop := h.drop
  window := by
    rw [hw, MonitorLog.recent_observed, h.window_withReward]
    split_ifs
    · exact (Window.last_nil _).symm
    · rfl
  updates := by
    rw [MonitorLog.rewards_observed, List.length_append, ← h.updates]
    rfl
  checkpoint := by
    rw [MonitorLog.checkpoints_observed]
    exact h.checkpoint
  checkpoints := by
    rw [MonitorLog.checkpoints_observed]
    exact h.checkpoints
  rollbacks := by
    rw [MonitorLog.notices_observed, List.countP_append, ← h.rollbacks, hr]
    cases hn : notice.isRollback <;> simp [hn]

/-- An observation, in terms of the monitor with one more reward. -/
theorem observe_eq (monitor : Monitor π α) (reward : α) : monitor.observe reward =
    let seen := monitor.withReward reward
    if seen.window.length < seen.size then (.nothing, seen)
    else match seen.regression? with
      | some signal =>
        (.rollback signal, { seen with window := [], rollbacks := monitor.rollbacks + 1 })
      | none =>
        if seen.updates % seen.interval = 0 then (.checkpointDue seen.average, seen)
        else (.nothing, seen) := rfl

/-- A monitor that follows a log gives the notice of the log, and goes on to follow it. -/
theorem Follows.observe (h : monitor.Follows log) (reward : α) :
    (monitor.observe reward).1 = log.notice reward ∧
      (monitor.observe reward).2.Follows (log.add (.observed reward (log.notice reward))) := by
  have hseen : (monitor.withReward reward).Follows (log.add (.observed reward .nothing)) :=
    h.observed rfl rfl
  have hshort : (monitor.withReward reward).window.length < (monitor.withReward reward).size ↔
      (log.recent ++ [reward]).length < log.size := by
    rw [h.window_withReward, Window.length_last, hseen.size]
    exact min_lt_iff.trans (or_iff_right (lt_irrefl _))
  rw [observe_eq, MonitorLog.notice]
  dsimp only
  by_cases hs : (log.recent ++ [reward]).length < log.size
  · rw [if_pos (hshort.mpr hs), if_pos hs]
    exact ⟨rfl, hseen⟩
  · have haverage : (monitor.withReward reward).average =
        Scalar.sum (Window.last log.size (log.rewards ++ [reward])) / Scalar.ofNat log.size := by
      rw [average, h.window_withReward, mean_last_recent (not_lt.mp hs)]
    have hadvice : (monitor.withReward reward).regression? =
        log.regression? (monitor.withReward reward).average := by
      rw [hseen.regression?_eq, MonitorLog.regression?, MonitorLog.checkpoints_observed]
      rfl
    have hdue : (monitor.withReward reward).updates % (monitor.withReward reward).interval = 0 ↔
        log.interval ∣ (log.rewards ++ [reward]).length := by
      rw [hseen.updates, hseen.interval, MonitorLog.rewards_observed, Nat.dvd_iff_mod_eq_zero]
      rfl
    rw [if_neg (mt hshort.mp hs), if_neg hs, hadvice, ← haverage]
    cases log.regression? (monitor.withReward reward).average with
    | some signal => exact ⟨rfl, h.observed rfl rfl⟩
    | none =>
      dsimp only
      by_cases hd : log.interval ∣ (log.rewards ++ [reward]).length
      · rw [if_pos (hdue.mpr hd), if_pos hd]
        exact ⟨rfl, h.observed rfl rfl⟩
      · rw [if_neg (mt hdue.mp hd), if_neg hd]
        exact ⟨rfl, hseen⟩

omit [Scalar α] in
theorem Follows.store (h : monitor.Follows log) (state : π) (average : α) :
    (monitor.store state average).Follows (log.add (.stored average log.rewards.length)) where
  size := h.size
  interval := h.interval
  drop := h.drop
  window := by
    rw [MonitorLog.recent_stored]
    exact h.window
  updates := by
    rw [MonitorLog.rewards_stored]
    exact h.updates
  checkpoint := by
    rw [MonitorLog.checkpoints_stored, List.getLast?_concat, ← h.updates]
    rfl
  checkpoints := by
    rw [MonitorLog.checkpoints_stored, List.length_append, ← h.checkpoints]
    rfl
  rollbacks := by
    rw [MonitorLog.notices_stored]
    exact h.rollbacks

/-- Every use is answered alike. -/
theorem Follows.perform (h : monitor.Follows log) (use : MonitorUse π α) :
    (monitor.perform use).1 = (log.perform use).1 ∧
      (monitor.perform use).2.Follows (log.perform use).2 := by
  cases use with
  | observe reward => exact ⟨congrArg some (h.observe reward).1, (h.observe reward).2⟩
  | store state average => exact ⟨rfl, h.store state average⟩

end Monitor

/-- Is the notice at a place advice to roll back? -/
def RollbackAt (notices : List (MonitorNotice α)) (i : Nat) : Prop :=
  ∃ notice ∈ notices[i]?, notice.isRollback

theorem RollbackAt.lt_length {notices : List (MonitorNotice α)} {i : Nat}
    (h : RollbackAt notices i) : i < notices.length := by
  obtain ⟨notice, hnotice, -⟩ := h
  exact (List.getElem?_eq_some_iff.mp hnotice).1

theorem rollbackAt_concat {notices : List (MonitorNotice α)} {notice : MonitorNotice α} {i : Nat} :
    RollbackAt (notices ++ [notice]) i ↔
      RollbackAt notices i ∨ i = notices.length ∧ notice.isRollback := by
  rcases Nat.lt_trichotomy i notices.length with h | rfl | h
  · simp [RollbackAt, List.getElem?_append_left h, h.ne]
  · simp [RollbackAt]
  · simp [RollbackAt, h.ne', List.getElem?_eq_none_iff.mpr h.le, List.getElem?_append_right h.le,
      Nat.sub_ne_zero_of_lt h]

namespace MonitorLog

/-- Is there a whole window of rewards between any two rollbacks, and does none come later than
the rewards that were seen since? -/
structure Spaced (log : MonitorLog α) : Prop where
  apart : ∀ i j, i < j → RollbackAt log.notices i → RollbackAt log.notices j → i + log.size ≤ j
  recent : ∀ i, RollbackAt log.notices i → i + 1 + log.recent.length ≤ log.notices.length

theorem spaced_ofSettings (settings : GuardSettings α) : (ofSettings settings).Spaced := by
  have hnone : ∀ i, ¬ RollbackAt (ofSettings settings).notices i := by
    rintro i ⟨notice, hnotice, -⟩
    cases hnotice
  exact ⟨fun i _ _ hi => absurd hi (hnone i), fun i hi => absurd hi (hnone i)⟩

theorem length_rewards (log : MonitorLog α) : log.rewards.length = log.notices.length := by
  obtain ⟨settings, entries⟩ := log
  induction entries with
  | nil => rfl
  | cons entry rest ih =>
    cases entry with
    | observed => exact congrArg (· + 1) ih
    | stored => exact ih

variable [Scalar α] {log : MonitorLog α}

/-- Advice to roll back needs a whole window of rewards since the last one. -/
theorem size_le_of_isRollback {reward : α} (h : (log.notice reward).isRollback) :
    log.size ≤ log.recent.length + 1 := by
  by_contra hshort
  have hn : log.notice reward = .nothing := by
    refine if_pos ?_
    rw [List.length_append]
    exact not_le.mp hshort
  rw [hn] at h
  cases h

/-- A rollback comes a whole window of rewards after the last one, and starts anew. -/
theorem Spaced.observed (h : log.Spaced) (reward : α) :
    (log.add (.observed reward (log.notice reward))).Spaced where
  apart i j hij hi hj := by
    rw [notices_observed, rollbackAt_concat] at hi hj
    rcases hj with hj | ⟨rfl, hroll⟩
    · rcases hi with hi | ⟨rfl, -⟩
      · exact h.apart i j hij hi hj
      · exact absurd hj.lt_length hij.not_gt
    · rcases hi with hi | ⟨rfl, -⟩
      · have hrecent := h.recent i hi
        have hsize := size_le_of_isRollback hroll
        show i + log.size ≤ log.notices.length
        omega
      · exact absurd hij (lt_irrefl _)
  recent i hi := by
    rw [notices_observed, rollbackAt_concat] at hi
    rw [notices_observed, List.length_append, List.length_singleton, recent_observed]
    rcases hi with hi | ⟨rfl, hroll⟩
    · have hrecent := h.recent i hi
      split_ifs
      · rw [List.length_nil]
        omega
      · rw [List.length_append, List.length_singleton]
        omega
    · rw [if_pos hroll, List.length_nil]

omit [Scalar α] in
theorem Spaced.stored (h : log.Spaced) (average : α) (update : Nat) :
    (log.add (.stored average update)).Spaced where
  apart := by
    rw [notices_stored]
    exact h.apart
  recent := by
    rw [notices_stored, recent_stored]
    exact h.recent

theorem Spaced.perform (h : log.Spaced) (use : MonitorUse π α) : (log.perform use).2.Spaced := by
  cases use with
  | observe reward => exact h.observed reward
  | store state average => exact h.stored average _

theorem settings_after (log : MonitorLog α) (uses : List (MonitorUse π α)) :
    (Run.after perform log uses).settings = log.settings := by
  refine Run.after_of_kept (Q := fun next : MonitorLog α => next.settings = log.settings)
    (fun next use h => ?_) rfl uses
  cases use <;> exact h

/-- The notices of a log are what it answered. -/
theorem notices_after (log : MonitorLog α) (uses : List (MonitorUse π α)) :
    (Run.after perform log uses).notices =
      log.notices ++ (Run.answers perform log uses).reduceOption := by
  induction uses generalizing log with
  | nil => exact (List.append_nil _).symm
  | cons use rest ih =>
    rw [Run.after_cons, ih, Run.answers]
    cases use with
    | observe reward =>
      rw [perform, notices_observed, List.reduceOption_cons_of_some, List.append_assoc]
      rfl
    | store state average => rw [perform, notices_stored, List.reduceOption_cons_of_none]

/-- The log notes every checkpoint that is stored. -/
theorem length_checkpoints_after (log : MonitorLog α) (uses : List (MonitorUse π α)) :
    (Run.after perform log uses).checkpoints.length =
      log.checkpoints.length + uses.countP (·.isStore) := by
  induction uses generalizing log with
  | nil => rfl
  | cons use rest ih =>
    rw [Run.after_cons, ih]
    cases use with
    | observe reward =>
      rw [perform, checkpoints_observed, List.countP_cons_of_neg (by simp [MonitorUse.isStore])]
    | store state average =>
      rw [perform, checkpoints_stored, List.countP_cons_of_pos (by simp [MonitorUse.isStore]),
        List.length_append, List.length_singleton]
      omega

end MonitorLog

namespace Monitor

variable [Scalar α]

/-- Whatever a monitor is used for, it gives the notices of the log, in exact and in rounded
arithmetic alike. Any two pieces of advice to roll back are a whole window of rewards apart, and the
counts are those of the rewards, of the checkpoints that were stored and of such advice. -/
theorem answers_eq_log (settings : GuardSettings α) (uses : List (MonitorUse π α)) :
    let answers := Run.answers perform (ofSettings settings) uses
    let monitor := Run.after perform (ofSettings settings) uses
    let notices := answers.reduceOption
    answers = Run.answers MonitorLog.perform (.ofSettings settings) uses ∧
      (∀ i j, i < j → RollbackAt notices i → RollbackAt notices j →
        i + max 1 settings.monitorWindow ≤ j) ∧
      monitor.updates = notices.length ∧
      monitor.checkpoints = uses.countP (·.isStore) ∧
      monitor.rollbacks = notices.countP (·.isRollback) := by
  intro answers monitor notices
  obtain ⟨hanswers, hfollows⟩ := Run.answers_of_related (R := Follows (π := π))
    (fun _ _ use h => h.perform use) (follows_ofSettings settings) uses
  have hspaced : (Run.after MonitorLog.perform (.ofSettings settings) uses).Spaced :=
    Run.after_of_kept (fun _ use h => h.perform use) (MonitorLog.spaced_ofSettings settings) uses
  have hnotices : (Run.after MonitorLog.perform (.ofSettings settings) uses).notices = notices := by
    rw [MonitorLog.notices_after, ← hanswers]
    rfl
  have hsize : (Run.after MonitorLog.perform (.ofSettings settings) uses).size =
      max 1 settings.monitorWindow := by
    rw [MonitorLog.size, MonitorLog.settings_after]
    rfl
  refine ⟨hanswers, fun i j hij hi hj => ?_, ?_, ?_, ?_⟩
  · rw [← hsize]
    exact hspaced.apart i j hij (hnotices ▸ hi) (hnotices ▸ hj)
  · rw [← hnotices, ← MonitorLog.length_rewards]
    exact hfollows.updates
  · rw [hfollows.checkpoints, MonitorLog.length_checkpoints_after]
    exact Nat.zero_add _
  · rw [← hnotices]
    exact hfollows.rollbacks

end Monitor

end ContextAdvisor
