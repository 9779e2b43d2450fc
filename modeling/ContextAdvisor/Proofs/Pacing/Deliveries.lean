import ContextAdvisor.Pacing.DigestQueue
import ContextAdvisor.Proofs.Json.RoundTrip
import ContextAdvisor.Proofs.Run

/-!
# What the queue delivers

A pressing action passes the queue by. Every minor one leaves it in exactly one delivery, in the
order of the offers, whichever way the queue is emptied: a delivery carries all that waited, and a
summary says how many actions that were, and which.
-/
namespace ContextAdvisor

namespace Urgency

theorem highest_eq_or (a b : Urgency) : highest a b = a ∨ highest a b = b := by
  rw [highest]
  split_ifs
  · exact .inr rfl
  · exact .inl rfl

theorem rank_highest (a b : Urgency) : (highest a b).rank = max a.rank b.rank := by
  rw [highest]
  split_ifs with h
  · exact (max_eq_right h).symm
  · exact (max_eq_left (Nat.le_of_lt (Nat.lt_of_not_le h))).symm

/-- The most pressing tier is one of the tiers, and none exceeds it. -/
theorem foldl_highest (a : Urgency) (tiers : List Urgency) :
    tiers.foldl highest a ∈ a :: tiers ∧
      ∀ u ∈ a :: tiers, u.rank ≤ (tiers.foldl highest a).rank := by
  induction tiers generalizing a with
  | nil => simp
  | cons b rest ih =>
    obtain ⟨hmem, hmax⟩ := ih (highest a b)
    have hab : (highest a b).rank ≤ (rest.foldl highest (highest a b)).rank :=
      hmax _ List.mem_cons_self
    rw [rank_highest, max_le_iff] at hab
    refine ⟨?_, fun u hu => ?_⟩
    · rw [List.foldl_cons]
      rcases List.mem_cons.mp hmem with h | h
      · rw [h]
        rcases highest_eq_or a b with h | h <;> simp [h]
      · exact List.mem_cons_of_mem _ (List.mem_cons_of_mem _ h)
    · rw [List.foldl_cons]
      rcases List.mem_cons.mp hu with rfl | hu
      · exact hab.1
      · rcases List.mem_cons.mp hu with rfl | hu
        · exact hab.2
        · exact hmax u (List.mem_cons_of_mem _ hu)

/-- Nothing is less pressing than the lowest tier, so it may stand in front of the others. -/
theorem foldl_highest_low {tiers : List Urgency} (h : tiers ≠ []) :
    tiers.foldl highest low ∈ tiers := by
  obtain ⟨hmem, hmax⟩ := foldl_highest low tiers
  rcases List.mem_cons.mp hmem with hlow | hmem
  · obtain ⟨u, hu⟩ := List.exists_mem_of_ne_nil tiers h
    have hrank := hmax u (List.mem_cons_of_mem _ hu)
    rw [hlow] at hrank ⊢
    cases u <;> simp [rank] at hrank
    exact hu
  · exact hmem

theorem mayWait_eq_true {u : Urgency} : u.mayWait = true ↔ u = low ∨ u = normal := by
  cases u <;> decide

theorem pressing_of_not_minor {u : Urgency} (h : ¬ (u = low ∨ u = normal)) :
    u = high ∨ u = urgent := by
  cases u <;> simp at h ⊢

end Urgency

theorem Json.itemDecimals_strings {ι : Type} (name : ι → String) (items : List ι) :
    itemDecimals (items.map fun i => .string (name i)) = [] := by
  induction items with
  | nil => rfl
  | cons i rest ih => exact ih

theorem Json.itemsToSyntax_strings {ι : Type} (name : ι → String) (items : List ι) :
    itemsToSyntax (items.map fun i => .string (name i)) =
      items.map fun i => .string (some (name i)) := by
  induction items with
  | nil => rfl
  | cons i rest ih => exact congrArg _ ih

namespace Delivery

theorem parse?_summaryPayload (held : List WaitingAction) :
    Syntax.parse? (Json.compact (summaryPayload held)) = some (.object
      [(some "count", .integer held.length),
        (some "ids", .array (held.map fun p => .string (some p.action.id)))]) := by
  have hdecimals : Json.decimals (summaryPayload held) = [] := by
    simp only [summaryPayload, Json.decimals, Json.memberDecimals, Json.itemDecimals_strings,
      List.append_nil]
  rw [Syntax.parse?_compact _ (by simp [hdecimals])]
  simp only [summaryPayload, Json.toSyntax, Json.membersToSyntax, Json.itemsToSyntax_strings]

/-- A delivery for exactly the held actions: a single one as it was offered, several as a summary
of the most pressing tier that counts and names them. -/
structure Carries (d : Delivery) (held : List WaitingAction) : Prop where
  nonempty : held ≠ []
  ruleIds : d.ruleIds = held.map (·.ruleId)
  unchanged : ∀ p, held = [p] → d.action = p.action ∧ d.urgency = p.urgency
  summary : 2 ≤ held.length → d.action.id = "merged_summary" ∧ d.action.kind = "merged_summary" ∧
    Syntax.parse? d.action.payload = some (.object [(some "count", .integer held.length),
      (some "ids", .array (held.map fun p => .string (some p.action.id)))])
  urgency_mem : ∃ p ∈ held, p.urgency = d.urgency
  urgency_max : ∀ p ∈ held, p.urgency.rank ≤ d.urgency.rank

theorem carries_single (p : WaitingAction) : (single p).Carries [p] where
  nonempty := List.cons_ne_nil _ _
  ruleIds := rfl
  unchanged := by
    rintro _ ⟨⟩
    exact ⟨rfl, rfl⟩
  summary h := by simp at h
  urgency_mem := ⟨p, List.mem_singleton_self p, rfl⟩
  urgency_max := by
    rintro _ (_ | ⟨_, ⟨⟩⟩)
    exact le_refl _

theorem carries_summary {held : List WaitingAction} (h : 2 ≤ held.length) :
    (Delivery.summary held).Carries held := by
  have hne : held ≠ [] := by
    rintro rfl
    simp at h
  obtain ⟨p, hp, hurgency⟩ :=
    List.mem_map.mp (Urgency.foldl_highest_low (List.map_eq_nil_iff.not.mpr hne))
  exact {
    nonempty := hne
    ruleIds := rfl
    unchanged := by
      rintro q rfl
      simp at h
    summary := fun _ => ⟨rfl, rfl, parse?_summaryPayload held⟩
    urgency_mem := ⟨p, hp, hurgency⟩
    urgency_max := fun q hq => (Urgency.foldl_highest .low _).2 _
      (List.mem_cons_of_mem _ (List.mem_map_of_mem hq)) }

end Delivery

/-- A use of a queue. -/
inductive QueueUse where
  | offer (ruleId : String) (action : Action) (urgency : Urgency) (now : Instant)
  | flushDue (now : Instant)
  | flush

namespace QueueUse

/-- Does the use offer an action of one of the two upper tiers? -/
def isPressing : QueueUse → Bool
  | offer _ _ urgency _ => urgency = .high ∨ urgency = .urgent
  | _ => false

/-- The action of one of the two lower tiers that the use offers. -/
def minor? : QueueUse → Option WaitingAction
  | offer ruleId action urgency now =>
    if urgency = .low ∨ urgency = .normal then some ⟨ruleId, action, urgency, now⟩ else none
  | _ => none

end QueueUse

namespace DigestQueue

/-- Carries out a use of a queue. -/
def perform (queue : DigestQueue) : QueueUse → Option Delivery × DigestQueue
  | .offer ruleId action urgency now => queue.offer ruleId action urgency now
  | .flushDue now => queue.flushDue now
  | .flush => queue.flush

/-- What a use delivers of what has waited: nothing if it is a pressing offer. -/
def delivered? (queue : DigestQueue) (call : QueueUse) : Option Delivery :=
  if call.isPressing then none else (queue.perform call).1

/-- The deliveries of a run apart from those of pressing offers. -/
def heldDeliveries (queue : DigestQueue) (calls : List QueueUse) : List Delivery :=
  (calls.zip (Run.answers perform queue calls)).filterMap fun (call, delivery) =>
    if call.isPressing then none else delivery

/-- A pressing offer is delivered as it is, and the queue stays as it was. -/
theorem offer_of_pressing (queue : DigestQueue) (ruleId : String) (action : Action)
    {urgency : Urgency} (h : urgency = .high ∨ urgency = .urgent) (now : Instant) :
    queue.offer ruleId action urgency now = (some ⟨action, urgency, [ruleId]⟩, queue) := by
  rcases h with rfl | rfl <;> rfl

/-- Do some deliveries carry, in order, all of `before` but what waits behind them? -/
def Conserves (deliveries : List Delivery) (before waiting : List WaitingAction) : Prop :=
  ∃ batches, List.Forall₂ Delivery.Carries deliveries batches ∧ batches.flatten ++ waiting = before

theorem conserves_nil (waiting : List WaitingAction) : Conserves [] waiting waiting :=
  ⟨[], .nil, rfl⟩

/-- A queue is emptied by a delivery of all that waits. -/
theorem conserves_flush (queue : DigestQueue) :
    Conserves queue.flush.1.toList queue.pending queue.flush.2.pending := by
  have hempty : queue.flush.2.pending = [] := rfl
  rw [hempty, flush]
  split
  · next h =>
    rw [h]
    exact conserves_nil []
  · next p h => exact ⟨[[p]], .cons (Delivery.carries_single p) .nil, h.symm⟩
  · next hnil hone =>
    have hlong : 2 ≤ queue.pending.length := by
      match hp : queue.pending with
      | [] => exact absurd hp hnil
      | [p] => exact absurd hp (hone p)
      | _ :: _ :: _ => simp
    exact ⟨[queue.pending], .cons (Delivery.carries_summary hlong) .nil, by simp⟩

/-- Whatever a use does, nothing that waits or is offered gets lost. -/
theorem conserves_perform (queue : DigestQueue) (call : QueueUse) :
    Conserves (queue.delivered? call).toList (queue.pending ++ call.minor?.toList)
      (queue.perform call).2.pending := by
  cases call with
  | offer ruleId action urgency now =>
    by_cases hminor : urgency = .low ∨ urgency = .normal
    · have hheld : (QueueUse.offer ruleId action urgency now).isPressing = false := by
        rcases hminor with rfl | rfl <;> rfl
      have hwait : urgency.mayWait = true := Urgency.mayWait_eq_true.mpr hminor
      simp only [delivered?, hheld, Bool.false_eq_true, if_false, perform, offer, hwait, if_true,
        QueueUse.minor?, hminor, Option.toList_some]
      split_ifs
      · exact conserves_flush _
      · exact conserves_nil _
    · have hpressing := Urgency.pressing_of_not_minor hminor
      simp only [delivered?, QueueUse.isPressing, hpressing, decide_true, if_true, QueueUse.minor?,
        hminor, if_false, perform, offer_of_pressing, Option.toList_none, List.append_nil]
      exact conserves_nil _
  | flushDue now =>
    simp only [delivered?, QueueUse.isPressing, perform, flushDue, QueueUse.minor?,
      Option.toList_none, List.append_nil]
    by_cases hdue : queue.isDue now = true
    · simp only [hdue, if_true]
      exact conserves_flush queue
    · simp only [hdue]
      exact conserves_nil _
  | flush =>
    simp only [delivered?, QueueUse.isPressing, perform, QueueUse.minor?, Option.toList_none,
      List.append_nil]
    exact conserves_flush queue

theorem Conserves.append {first second : List Delivery}
    {before between after offered : List WaitingAction}
    (h : Conserves first before between) (h' : Conserves second (between ++ offered) after) :
    Conserves (first ++ second) (before ++ offered) after := by
  obtain ⟨batches, hcarries, rfl⟩ := h
  obtain ⟨batches', hcarries', hall⟩ := h'
  refine ⟨batches ++ batches', List.rel_append hcarries hcarries', ?_⟩
  rw [List.flatten_append, List.append_assoc, hall, List.append_assoc]

theorem heldDeliveries_cons (queue : DigestQueue) (call : QueueUse) (rest : List QueueUse) :
    queue.heldDeliveries (call :: rest) =
      (queue.delivered? call).toList ++ (queue.perform call).2.heldDeliveries rest := by
  simp only [heldDeliveries, delivered?, Run.answers, List.zip_cons_cons]
  cases hd : if call.isPressing then none else (queue.perform call).1 <;> simp [hd]

/-- What waits at first and what is offered then is delivered, in order, or still waits. -/
theorem conserves_run (queue : DigestQueue) (calls : List QueueUse) :
    Conserves (queue.heldDeliveries calls) (queue.pending ++ calls.filterMap QueueUse.minor?)
      (Run.after perform queue calls).pending := by
  induction calls generalizing queue with
  | nil =>
    rw [List.filterMap_nil, List.append_nil]
    exact conserves_nil _
  | cons call rest ih =>
    have hoffers : (call :: rest).filterMap QueueUse.minor? =
        call.minor?.toList ++ rest.filterMap QueueUse.minor? := by
      cases hm : call.minor? <;> simp [hm]
    rw [heldDeliveries_cons, Run.after_cons, hoffers, ← List.append_assoc]
    exact (queue.conserves_perform call).append (ih _)

theorem Conserves.ruleIds {deliveries : List Delivery} {before waiting : List WaitingAction}
    (h : Conserves deliveries before waiting) :
    deliveries.flatMap (·.ruleIds) ++ waiting.map (·.ruleId) = before.map (·.ruleId) := by
  obtain ⟨batches, hcarries, rfl⟩ := h
  rw [List.map_append]
  congr 1
  induction hcarries with
  | nil => rfl
  | cons hc _ ih => rw [List.flatMap_cons, List.flatten_cons, List.map_append, hc.ruleIds, ih]

/-- A run that starts with nothing waiting delivers the minor offers in order, each in one delivery
that carries all that waited then, or keeps them; pressing offers are delivered at once as they
are. -/
theorem deliveries_conserve (policy : DigestPolicy) (calls : List QueueUse) :
    let deliveries := (ofPolicy policy).heldDeliveries calls
    let waiting := (Run.after perform (ofPolicy policy) calls).pending
    let offers := calls.filterMap QueueUse.minor?
    (∃ batches, List.Forall₂ Delivery.Carries deliveries batches ∧
        batches.flatten ++ waiting = offers) ∧
      deliveries.flatMap (·.ruleIds) ++ waiting.map (·.ruleId) = offers.map (·.ruleId) ∧
      ∀ queue ruleId action urgency now, urgency = .high ∨ urgency = .urgent →
        perform queue (.offer ruleId action urgency now) =
          (some ⟨action, urgency, [ruleId]⟩, queue) := by
  have h := (ofPolicy policy).conserves_run calls
  exact ⟨h, h.ruleIds, fun queue ruleId action _ now hu =>
    queue.offer_of_pressing ruleId action hu now⟩

/-- Three minor offers with a pressing one between them, then one that is delivered alone. -/
theorem deliveries_conserve_four :
    let minor (n : String) (urgency : Urgency) (now : Instant) : QueueUse :=
      .offer n ⟨n, "light", ""⟩ urgency now
    let calls : List QueueUse := [minor "a" .low 5, minor "b" .normal 3, minor "c" .urgent 4,
      minor "d" .low 0, minor "e" .low 7, .flushDue 0, .flush, .flush]
    let queue := ofPolicy .standard
    let deliveries := queue.heldDeliveries calls
    let waiting := (Run.after perform queue calls).pending
    deliveries.map (fun d => (d.ruleIds, d.urgency)) = [(["a", "b", "d"], .normal), (["e"], .low)] ∧
      deliveries.flatMap (·.ruleIds) ++ waiting.map (·.ruleId) = ["a", "b", "d", "e"] ∧
      perform queue (minor "c" .urgent 4) = (some ⟨⟨"c", "light", ""⟩, .urgent, ["c"]⟩, queue) := by
  intro minor calls queue deliveries waiting
  obtain ⟨-, hids, hpressing⟩ := deliveries_conserve .standard calls
  exact ⟨by decide, hids, hpressing queue "c" ⟨"c", "light", ""⟩ .urgent 4 (.inr rfl)⟩

end DigestQueue

end ContextAdvisor
