import ContextAdvisor.Dictionary.Lemmas
import ContextAdvisor.Proofs.Engine.Firings
import Mathlib.Data.List.DropRight

/-!
# Asking the limiter in another order

A check drops times that are too old at its instant. No other check at the same instant would have
counted them, so checks at one instant do not change each other's answers, and what they leave of
the limiter does not depend on their order.
-/
namespace ContextAdvisor

namespace Limiter

variable {now : Instant}

/-- A limiter is determined by its limits and by the times that it finds. -/
theorem eq_of_times {a b : Limiter} (limits : a.limits = b.limits)
    (lastFired : a.lastFired = b.lastFired)
    (byKind : ∀ kind, a.byKind.get? kind = b.byKind.get? kind) (all : a.all = b.all) : a = b := by
  obtain ⟨_, _, _, _⟩ := a
  obtain ⟨_, _, _, _⟩ := b
  have hkinds := Dictionary.ext byKind
  simp only at limits lastFired hkinds all
  rw [limits, lastFired, hkinds, all]

/-- What is too old is dropped once and for all. -/
@[simp] theorem pruned_pruned (cutoff : Instant) (times : List Instant) :
    pruned cutoff (pruned cutoff times) = pruned cutoff times :=
  List.dropWhile_idempotent _ _

/-- Has a kind used up its share, as far as its firings still count? -/
def kindFull (limiter : Limiter) (kind : String) (now : Instant) : Bool :=
  (limiter.current? kind now).any fun times => limiter.limits.categoryMax ≤ times.length

/-- Has the last hour used up the share of all kinds? -/
def hourFull (limiter : Limiter) (now : Instant) : Bool :=
  limiter.limits.globalMaxPerHour ≤
    (pruned (wrappedDifference now Duration.hour) limiter.all).length

theorem kindExhausted_pruneKind (limiter : Limiter) (kind : String) :
    (limiter.pruneKind kind now).kindExhausted kind = limiter.kindFull kind now := by
  have hlimits : (limiter.pruneKind kind now).limits = limiter.limits := by rw [pruneKind_eq]
  rw [kindExhausted, kindFull, get?_pruneKind, if_pos rfl, hlimits]
  cases limiter.current? kind now <;> rfl

/-- The answer of a check, in terms of the times that still count. -/
theorem check_fst (limiter : Limiter) (id : String) (cooldown : Duration) (kind : String) :
    (limiter.check id cooldown kind now).1 =
      match limiter.cooldownLeft? id cooldown now with
      | some remaining => some (.cooldown remaining)
      | none =>
        if limiter.kindFull kind now then some (.category kind)
        else if limiter.hourFull now then some .global else none := by
  unfold check
  cases limiter.cooldownLeft? id cooldown now with
  | some remaining => rfl
  | none =>
    have hhour : (((limiter.pruneKind kind now).pruneAll now).limits.globalMaxPerHour ≤
        ((limiter.pruneKind kind now).pruneAll now).all.length) =
          (limiter.hourFull now = true) := by
      rw [pruneKind_eq]
      simp [hourFull, pruneAll]
    simp only [kindExhausted_pruneKind, hhour]
    split_ifs <;> rfl

/-- What a check leaves of the limiter. -/
theorem check_snd (limiter : Limiter) (id : String) (cooldown : Duration) (kind : String) :
    (limiter.check id cooldown kind now).2 =
      if (limiter.cooldownLeft? id cooldown now).isSome then limiter
      else if limiter.kindFull kind now then limiter.pruneKind kind now
      else (limiter.pruneKind kind now).pruneAll now := by
  unfold check
  cases limiter.cooldownLeft? id cooldown now with
  | some remaining => rfl
  | none =>
    simp only [kindExhausted_pruneKind]
    split_ifs <;> simp_all

theorem check_snd_limits (limiter : Limiter) (id : String) (cooldown : Duration) (kind : String) :
    (limiter.check id cooldown kind now).2.limits = limiter.limits := by
  rw [check_snd, pruneKind_eq]
  split_ifs <;> rfl

/-- A check may drop old times of its own kind. -/
theorem get?_check_snd (limiter : Limiter) (id : String) (cooldown : Duration)
    (kind other : String) : (limiter.check id cooldown kind now).2.byKind.get? other =
      if other = kind ∧ limiter.cooldownLeft? id cooldown now = none then limiter.current? kind now
      else limiter.byKind.get? other := by
  have hprune : (limiter.pruneKind kind now).byKind.get? other =
      if other = kind then limiter.current? kind now else limiter.byKind.get? other :=
    limiter.get?_pruneKind kind other
  rw [check_snd]
  cases limiter.cooldownLeft? id cooldown now with
  | some remaining => simp
  | none =>
    simp only [Option.isSome_none, Bool.false_eq_true, if_false, and_true]
    split_ifs at hprune ⊢ <;> exact hprune

/-- A check may drop what is more than an hour old. -/
theorem all_check_snd (limiter : Limiter) (id : String) (cooldown : Duration) (kind : String) :
    (limiter.check id cooldown kind now).2.all =
      if limiter.cooldownLeft? id cooldown now = none ∧ limiter.kindFull kind now = false then
        pruned (wrappedDifference now Duration.hour) limiter.all
      else limiter.all := by
  rw [check_snd, pruneKind_eq]
  cases limiter.cooldownLeft? id cooldown now with
  | some remaining => simp
  | none => cases limiter.kindFull kind now <;> simp [pruneAll]

section

variable (limiter : Limiter) (id other : String) (cooldown pause : Duration) (kind sort : String)

theorem cooldownLeft?_check_snd :
    (limiter.check id cooldown kind now).2.cooldownLeft? other pause now =
      limiter.cooldownLeft? other pause now := by
  rw [cooldownLeft?, check_snd_lastFired, cooldownLeft?]

theorem current?_check_snd : (limiter.check id cooldown kind now).2.current? sort now =
    limiter.current? sort now := by
  rw [current?, check_snd_limits, get?_check_snd]
  split_ifs with h
  · rw [h.1, current?, Option.map_map]
    congr 1
    funext times
    exact pruned_pruned _ _
  · rfl

theorem kindFull_check_snd : (limiter.check id cooldown kind now).2.kindFull sort now =
    limiter.kindFull sort now := by
  rw [kindFull, current?_check_snd, check_snd_limits, kindFull]

theorem hourFull_check_snd :
    (limiter.check id cooldown kind now).2.hourFull now = limiter.hourFull now := by
  rw [hourFull, check_snd_limits, all_check_snd, hourFull]
  split_ifs <;> simp

/-- A check does not change the answer of another one. -/
theorem check_fst_check_snd :
    ((limiter.check id cooldown kind now).2.check other pause sort now).1 =
      (limiter.check other pause sort now).1 := by
  rw [check_fst, cooldownLeft?_check_snd, kindFull_check_snd, hourFull_check_snd, check_fst]

/-- Two checks leave the same of a limiter in either order. -/
theorem check_snd_comm : ((limiter.check id cooldown kind now).2.check other pause sort now).2 =
    ((limiter.check other pause sort now).2.check id cooldown kind now).2 := by
  refine eq_of_times ?_ ?_ (fun k => ?_) ?_
  · simp only [check_snd_limits]
  · simp only [check_snd_lastFired]
  · simp only [get?_check_snd, cooldownLeft?_check_snd, current?_check_snd]
    split_ifs <;> simp_all
  · simp only [all_check_snd, cooldownLeft?_check_snd, kindFull_check_snd]
    split_ifs <;> rfl

end

end Limiter

namespace ScoredRule

variable {α : Type}

/-- Does the limiter let a result pass? -/
def passes (limiter : Limiter) (now : Instant) (s : ScoredRule α) : Bool :=
  (limiter.check s.rule.id s.rule.cooldown s.rule.action.kind now).1.isNone

/-- What is left of the limiter after it was asked about a result. -/
def asked (now : Instant) (limiter : Limiter) (s : ScoredRule α) : Limiter :=
  (limiter.check s.rule.id s.rule.cooldown s.rule.action.kind now).2

/-- Each result passes or not as if it were the only one to be put to the limiter. -/
theorem admitted_eq (limiter : Limiter) (now : Instant) (results : List (ScoredRule α)) :
    admitted limiter now results =
      (results.filter (passes limiter now), results.foldl (asked now) limiter) := by
  induction results generalizing limiter with
  | nil => rfl
  | cons s rest ih =>
    have hpasses : passes (asked now limiter s) now = passes (α := α) limiter now := by
      funext t
      exact congrArg Option.isNone (limiter.check_fst_check_snd ..)
    have hrest := ih (asked now limiter s)
    rw [hpasses] at hrest
    rw [List.filter_cons, List.foldl_cons]
    unfold admitted
    split
    · next next hc =>
      have hs : passes limiter now s = true := by rw [passes, hc]; rfl
      have hnext : asked now limiter s = next := congrArg Prod.snd hc
      rw [hs, ← hnext, hrest]
      rfl
    · next next hc =>
      have hs : passes limiter now s = false := by rw [passes, hc]; rfl
      have hnext : asked now limiter s = next := congrArg Prod.snd hc
      rw [hs, ← hnext, hrest]
      rfl

/-- Of reordered results the same ones pass, and the same is left of the limiter. -/
theorem admitted_perm {results others : List (ScoredRule α)} (h : results.Perm others)
    (limiter : Limiter) (now : Instant) :
    (admitted limiter now results).1.Perm (admitted limiter now others).1 ∧
      (admitted limiter now results).2 = (admitted limiter now others).2 := by
  rw [admitted_eq, admitted_eq]
  refine ⟨h.filter _, h.foldl_eq' (fun s _ t _ l => ?_) _⟩
  exact l.check_snd_comm ..

end ScoredRule

end ContextAdvisor
