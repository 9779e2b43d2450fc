import ContextAdvisor.Proofs.Pacing.Deliveries

/-!
# How many actions wait, and for how long

The queue checks after every minor offer, with the offered action among those that wait, whether it
is time to deliver. So fewer actions are left waiting than it takes for a delivery. An action can
outstay the window only as long as nobody asks: a minor offer and a request for what is due leave
nothing behind that has waited for the whole window, however the clock was moved before. This
presupposes that a word can tell how long each action has waited. If it cannot, the wait seems to be
negative, and the action goes on waiting.
-/
namespace ContextAdvisor

/-- The instant at which the use looks for actions that have waited too long. -/
def QueueUse.reviewTime? : QueueUse → Option Instant
  | offer _ _ urgency now => if urgency = .low ∨ urgency = .normal then some now else none
  | flushDue now => some now
  | flush => none

namespace DigestQueue

variable {queue : DigestQueue} {now : Instant}

/-- Either all that waits leaves, or the offer joins what waits, and there is no reason for a
delivery. -/
theorem perform_snd_cases (queue : DigestQueue) (call : QueueUse) :
    (queue.perform call).2 = { queue with pending := [] } ∨
      (queue.perform call).2 = { queue with pending := queue.pending ++ call.minor?.toList } ∧
        (∀ p ∈ call.minor?, queue.pending.length + 1 < queue.policy.threshold) ∧
        ∀ now ∈ call.reviewTime?, (queue.perform call).2.isDue now = false := by
  cases call with
  | offer ruleId action urgency now =>
    by_cases hminor : urgency = .low ∨ urgency = .normal
    · have hwait : urgency.mayWait = true := Urgency.mayWait_eq_true.mpr hminor
      simp only [perform, offer, hwait, if_true, QueueUse.minor?, QueueUse.reviewTime?, hminor,
        Option.toList_some, Option.mem_some_iff, forall_eq']
      split_ifs with hfull
      · exact .inl rfl
      · rw [not_or, not_le, List.length_append, List.length_singleton] at hfull
        exact .inr ⟨rfl, hfull.1, Bool.eq_false_of_not_eq_true hfull.2⟩
    · have hpressing := Urgency.pressing_of_not_minor hminor
      refine .inr ⟨?_, ?_, ?_⟩
      · simp only [perform, offer_of_pressing _ _ _ hpressing, QueueUse.minor?, if_neg hminor,
          Option.toList_none, List.append_nil]
      · simp [QueueUse.minor?, hminor]
      · simp [QueueUse.reviewTime?, hminor]
  | flushDue now =>
    simp only [perform, flushDue]
    split_ifs with hdue
    · exact .inl rfl
    · refine .inr ⟨by simp [QueueUse.minor?], by simp [QueueUse.minor?], ?_⟩
      simpa [QueueUse.reviewTime?] using hdue
  | flush => exact .inl rfl

/-- Do fewer actions wait than it takes for a delivery? If one or none suffices, no action waits. -/
def HasRoom (queue : DigestQueue) : Prop := queue.size < max 1 queue.policy.threshold

theorem HasRoom.perform (h : queue.HasRoom) (call : QueueUse) :
    (queue.perform call).2.HasRoom := by
  have hpositive : 0 < max 1 queue.policy.threshold := Nat.lt_of_lt_of_le one_pos (le_max_left _ _)
  rcases queue.perform_snd_cases call with hnext | ⟨hnext, hfew, -⟩
  · rw [hnext]
    exact hpositive
  · rw [hnext]
    cases hminor : call.minor? with
    | none => simpa [HasRoom, size, hminor] using h
    | some p =>
      have hbelow := (hfew p hminor).trans_le (le_max_right 1 _)
      simpa [HasRoom, size, hminor] using hbelow

end DigestQueue

end ContextAdvisor
