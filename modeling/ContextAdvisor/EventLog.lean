import ContextAdvisor.Rule.Scoring
import ContextAdvisor.Time

/-!
# The log of recent events

The log keeps the latest events in the order in which they were reported, up to a capacity and an
age. Ages are measured against the newest event, so a report that comes too late is dropped, and an
event far in the future drops what is too old beside it. Questions look at a window before a given
instant; an event after that instant counts as one that happens at it.
-/
namespace ContextAdvisor

/-- Something that happened, with the context in which it did. -/
structure Event where
  kind : String
  snapshot : Context
  time : Instant

/-- The latest events, oldest report first. -/
structure EventLog where
  capacity : Nat
  maxAge : Duration
  events : List Event

namespace EventLog

/-- How many events are kept. -/
def defaultCapacity : Nat := 100

/-- How old an event may be against the newest one. -/
def defaultMaxAge : Duration := .day

/-- The log without events. -/
def empty (capacity : Nat) (maxAge : Duration) : EventLog := ⟨capacity, maxAge, []⟩

/-- The instant of the newest event when one more is reported at `time`. -/
def newest (log : EventLog) (time : Instant) : Instant :=
  log.events.foldl (fun newest event => max newest event.time) time

/-- Reports an event. -/
def push (log : EventLog) (event : Event) : EventLog :=
  let cutoff := wordDifference (log.newest event.time) log.maxAge
  let kept := log.events.filter fun e => cutoff ≤ e.time
  if event.time < cutoff then { log with events := kept }
  else
    { log with events := kept.drop (kept.length + 1 - log.capacity) ++ [event] }

/-- Forgets all events. -/
def clear (log : EventLog) : EventLog := { log with events := [] }

/-- The number of events. -/
def size (log : EventLog) : Nat := log.events.length

/-- Did the event happen less than `window` before `now`? -/
def inWindow (now : Instant) (window : Duration) (event : Event) : Bool :=
  max (wordDifference now event.time) 0 < window

/-- Was there an event of a kind in the window? -/
def hasRecent (log : EventLog) (now : Instant) (kind : String) (window : Duration) : Bool :=
  log.events.any fun e => e.kind == kind && inWindow now window e

/-- The latest instant in a list. -/
def latestTime? (times : List Instant) : Option Instant := times.max?

/-- Was there an event of the first kind before the latest of the second, both in the window? -/
def hasSequence (log : EventLog) (now : Instant) (first second : String) (window : Duration) :
    Bool :=
  let seconds := log.events.filter fun e => e.kind == second && inWindow now window e
  match latestTime? (seconds.map (·.time)) with
  | none => false
  | some latest =>
    log.events.any fun e => e.kind == first && e.time < latest && inWindow now window e

/-- The answers of the log at an instant. -/
def history (log : EventLog) (now : Instant) : History
  | .recent kind window => log.hasRecent now kind window
  | .sequence first second window => log.hasSequence now first second window

/-- The latest event of a kind; of several at one instant, the one reported last. -/
def latest? (log : EventLog) (kind : String) : Option Event :=
  (log.events.filter (·.kind == kind)).foldl (fun latest event =>
    match latest with
    | some l => if event.time < l.time then some l else some event
    | none => some event) none

end EventLog

end ContextAdvisor
