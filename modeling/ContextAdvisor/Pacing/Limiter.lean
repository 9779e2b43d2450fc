import ContextAdvisor.Dictionary
import ContextAdvisor.Time

/-!
# Limits on how often rules fire

Three limits hold at once: a rule is silent for its cooldown after it fired, only so many actions of
one kind fire within a window, and only so many actions at all within an hour. The limiter keeps
the times of past firings and drops those at the front of a list that are too old when it is asked.
Differences of times wrap around, so near the ends of the clock's range old and new may be confused.
-/
namespace ContextAdvisor

/-- How many firings are allowed. -/
structure FiringLimits where
  categoryMax : Nat
  categoryWindow : Duration
  globalMaxPerHour : Nat
  deriving DecidableEq

/-- Three actions of a kind in half an hour, and ten actions in an hour. -/
def FiringLimits.standard : FiringLimits := ⟨3, 30 * .minute, 10⟩

/-- Why a rule may not fire now. -/
inductive Refusal where
  | cooldown (remaining : Duration)
  | category (kind : String)
  | global
  deriving DecidableEq

/-- The times of past firings: the last one of each rule, all of each kind, and all. -/
structure Limiter where
  limits : FiringLimits
  lastFired : Dictionary Instant
  byKind : Dictionary (List Instant)
  all : List Instant

namespace Limiter

/-- The limiter before any firing. -/
def ofLimits (limits : FiringLimits) : Limiter := ⟨limits, ∅, ∅, []⟩

/-- Drops times before the cutoff from the front of a list. -/
def pruned (cutoff : Instant) (times : List Instant) : List Instant :=
  times.dropWhile (· < cutoff)

/-- Drops firings of a kind that are out of its window. -/
def pruneKind (limiter : Limiter) (kind : String) (now : Instant) : Limiter :=
  match limiter.byKind.get? kind with
  | some times =>
    let kept := pruned (wrappedDifference now limiter.limits.categoryWindow) times
    { limiter with byKind := limiter.byKind.insert kind kept }
  | none => limiter

/-- Drops firings that are more than an hour old. -/
def pruneAll (limiter : Limiter) (now : Instant) : Limiter :=
  { limiter with all := pruned (wrappedDifference now Duration.hour) limiter.all }

/-- What is left of a rule's cooldown. -/
def cooldownLeft? (limiter : Limiter) (id : String) (cooldown : Duration) (now : Instant) :
    Option Duration :=
  match limiter.lastFired.get? id with
  | some last =>
    let elapsed := wrappedDifference now last
    if 0 < cooldown ∧ elapsed < cooldown then some (wrappedDifference cooldown elapsed) else none
  | none => none

/-- Has a kind used up its share? A kind that never fired has not. -/
def kindExhausted (limiter : Limiter) (kind : String) : Bool :=
  match limiter.byKind.get? kind with
  | some times => limiter.limits.categoryMax ≤ times.length
  | none => false

/-- May a rule fire? The first limit that forbids it is named. -/
def check (limiter : Limiter) (id : String) (cooldown : Duration) (kind : String)
    (now : Instant) : Option Refusal × Limiter :=
  match limiter.cooldownLeft? id cooldown now with
  | some remaining => (some (.cooldown remaining), limiter)
  | none =>
    let limiter := limiter.pruneKind kind now
    if limiter.kindExhausted kind then (some (.category kind), limiter)
    else
      let limiter := limiter.pruneAll now
      if limiter.limits.globalMaxPerHour ≤ limiter.all.length then (some .global, limiter)
      else (none, limiter)

/-- Notes that a rule fired. -/
def record (limiter : Limiter) (id kind : String) (now : Instant) : Limiter :=
  { limiter with
    lastFired := limiter.lastFired.insert id now
    byKind := limiter.byKind.insert kind ((limiter.byKind.get? kind).getD [] ++ [now])
    all := limiter.all ++ [now] }

/-- The number of firings in the last hour. -/
def globalCount (limiter : Limiter) (now : Instant) : Nat × Limiter :=
  let limiter := limiter.pruneAll now
  (limiter.all.length, limiter)

/-- Ends a rule's cooldown. -/
def forget (limiter : Limiter) (id : String) : Limiter :=
  { limiter with lastFired := limiter.lastFired.erase id }

/-- Forgets all firings. -/
def reset (limiter : Limiter) : Limiter := ofLimits limiter.limits

end Limiter

end ContextAdvisor
