import PlaneStore.Value.Basic

/-!
# The scheduler

The queue of deferred calls as committed, and the record of what the queue was told.
-/

namespace PlaneStore

inductive SchedulerEvent where
  | schedule (call : CallRef) (due : Nat)
  | cancel (call : CallRef)
  deriving DecidableEq, Repr

structure Scheduler where
  /-- When each queued call is due. -/
  queue : Std.TreeMap CallRef Nat := ∅
  /-- Everything the scheduler was told, in order. -/
  events : Array SchedulerEvent := #[]

namespace Scheduler

def schedule (s : Scheduler) (call : CallRef) (due : Nat) : Scheduler :=
  { queue := s.queue.insert call due, events := s.events.push (.schedule call due) }

def cancel (s : Scheduler) (call : CallRef) : Scheduler :=
  { queue := s.queue.erase call, events := s.events.push (.cancel call) }

/-- Replaces a queued call. -/
def reschedule (s : Scheduler) (call : CallRef) (due : Nat) : Scheduler :=
  (s.cancel call).schedule call due

end Scheduler

end PlaneStore
