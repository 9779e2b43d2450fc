import ContextAdvisor.Arithmetic.Window
import ContextAdvisor.Safeguard.Settings

/-!
# Watching the average reward

The monitor averages the last rewards. At regular intervals it asks for a checkpoint of the learner;
when the average has fallen too far below that of the checkpoint, it advises to roll back and starts
a new window.
-/
namespace ContextAdvisor

/-- A copy of the learner's state, with the average and the number of rewards at that time. -/
structure Checkpoint (π α : Type) where
  state : π
  average : α
  atUpdate : Nat

/-- The advice to roll back. -/
structure Rollback (α : Type) where
  baseline : α
  current : α
  checkpointUpdate : Nat
  deriving BEq

/-- What a reward gives rise to. -/
inductive MonitorNotice (α : Type) where
  | nothing
  | checkpointDue (average : α)
  | rollback (signal : Rollback α)

/-- The last rewards, the latest checkpoint and what was counted so far. -/
structure Monitor (π α : Type) where
  window : List α
  size : Nat
  interval : Nat
  drop : α
  updates : Nat
  checkpoint : Option (Checkpoint π α)
  checkpoints : Nat
  rollbacks : Nat

namespace Monitor

variable {π α : Type} [Scalar α]

/-- The monitor before any reward. Windows and intervals have at least length one. -/
def ofSettings (settings : GuardSettings α) : Monitor π α where
  window := []
  size := max settings.monitorWindow 1
  interval := max settings.checkpointInterval 1
  drop := settings.rollbackDrop
  updates := 0
  checkpoint := none
  checkpoints := 0
  rollbacks := 0

/-- The average of the window. -/
def average (monitor : Monitor π α) : α := Scalar.mean monitor.window

/-- A baseline smaller than this is too close to zero to measure a loss against. -/
def negligibleBaseline : α := 1e-9

/-- Has the average lost more than the allowed share of the baseline? -/
def hasRegressed (monitor : Monitor π α) (baseline current : α) : Bool :=
  negligibleBaseline < Scalar.abs baseline &&
    Scalar.abs baseline * monitor.drop < baseline - current

/-- The advice that the current average gives against the latest checkpoint. -/
def regression? (monitor : Monitor π α) : Option (Rollback α) :=
  match monitor.checkpoint with
  | some c =>
    if monitor.hasRegressed c.average monitor.average then
      some ⟨c.average, monitor.average, c.atUpdate⟩
    else none
  | none => none

/-- Takes a reward into account. -/
def observe (monitor : Monitor π α) (reward : α) : MonitorNotice α × Monitor π α :=
  let monitor := { monitor with
    window := Window.push monitor.size monitor.window reward
    updates := monitor.updates + 1 }
  if monitor.window.length < monitor.size then (.nothing, monitor)
  else match monitor.regression? with
    | some signal =>
      (.rollback signal, { monitor with window := [], rollbacks := monitor.rollbacks + 1 })
    | none =>
      if monitor.updates % monitor.interval = 0 then (.checkpointDue monitor.average, monitor)
      else (.nothing, monitor)

/-- Keeps a copy of the learner's state as the latest checkpoint. -/
def store (monitor : Monitor π α) (state : π) (average : α) : Monitor π α :=
  { monitor with
    checkpoint := some ⟨state, average, monitor.updates⟩
    checkpoints := monitor.checkpoints + 1 }

end Monitor

end ContextAdvisor
