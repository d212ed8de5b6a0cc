/-
Rms.Util.Syncqueue — `lib/util/async.c` and the POSIX half of the events
of `lib/util/uthread.c`: a queue with a consumer that waits for data.

One consumer calls `syncqueue_wait_data` again and again, and any number
of producers call `syncqueue_signal_data`. Every section between a lock
and the unlock that belongs to it is one step; so is the part of
`uthread_evt_wait` up to the point where `pthread_cond_wait` gives the
mutex back, and each round of its loop after a wake-up. A step of
somebody who cannot move has no result.

`pthread_cond_signal` wakes the consumer if it is waiting at that moment
and is forgotten otherwise. POSIX also lets a waiting thread wake up for
no reason (`Event.spurious`).
-/
import Mathlib.Data.List.Basic
import Mathlib.Logic.Function.Basic

namespace Rms.Util

/-- Where the consumer is: outside, before the section of `syncqueue_size`,
before `uthread_evt_wait`, blocked in `pthread_cond_wait`, woken but not
yet back in the loop, or before the section of `syncqueue_deq`. -/
inductive Consumer
  | idle
  | toSize
  | toWait
  | waiting
  | woken
  | toDeq
  deriving DecidableEq

/-- Where a producer is: outside, before the section of `syncqueue_enq`, or
before `uthread_evt_signal`. -/
inductive Producer (α : Type*)
  | idle
  | toEnq (data : α)
  | toSignal
  deriving DecidableEq

/-- The queue, the event's `status`, and everybody's place. `got` lists what
`syncqueue_wait_data` returned, `none` for NULL. -/
structure Syncqueue (α : Type*) where
  queue : List α
  status : Int
  consumer : Consumer
  producers : Nat → Producer α
  got : List (Option α)

variable {α : Type*}

def syncqueueInit : Syncqueue α :=
  { queue := [], status := 0, consumer := .idle, producers := fun _ => .idle, got := [] }

/-! ## The sections -/

def syncqueueSize (s : Syncqueue α) : Int := s.queue.length

def syncqueueEnq (s : Syncqueue α) (data : α) : Syncqueue α :=
  { s with queue := s.queue ++ [data] }

def syncqueueDeq (s : Syncqueue α) : Option α × Syncqueue α :=
  (s.queue.head?, { s with queue := s.queue.tail })

def uthreadEvtSignal (s : Syncqueue α) : Syncqueue α :=
  if s.status ≠ 0 ∧ s.consumer = .waiting then { s with consumer := .woken } else s

/-- The test of the loop in `uthread_evt_wait`, and what follows it. -/
def evtWaitLoop (s : Syncqueue α) : Syncqueue α :=
  if s.status ≠ 0 then { s with consumer := .waiting }
  else { s with status := s.status - 1, consumer := .toDeq }

/-- `uthread_evt_wait`, up to the first `pthread_cond_wait`. -/
def uthreadEvtWait (s : Syncqueue α) : Syncqueue α :=
  evtWaitLoop { s with status := s.status + 1 }

/-! ## The threads -/

/-- The next section of the consumer, which calls `syncqueue_wait_data`. -/
def consumerStep (s : Syncqueue α) : Option (Syncqueue α) :=
  match s.consumer with
  | .idle => some { s with consumer := .toSize }
  | .toSize =>
      some { s with consumer := if syncqueueSize s < 1 then .toWait else .toDeq }
  | .toWait => some (uthreadEvtWait s)
  | .waiting => none
  | .woken => some (evtWaitLoop s)
  | .toDeq =>
      let (data, s) := syncqueueDeq s
      some { s with consumer := .idle, got := s.got ++ [data] }

def setProducer (s : Syncqueue α) (p : Nat) (pc : Producer α) : Syncqueue α :=
  { s with producers := Function.update s.producers p pc }

/-- The next section of a producer in `syncqueue_signal_data`. -/
def producerStep (s : Syncqueue α) (p : Nat) : Option (Syncqueue α) :=
  match s.producers p with
  | .idle => none
  | .toEnq data => some (setProducer (syncqueueEnq s data) p .toSignal)
  | .toSignal => some (setProducer (uthreadEvtSignal s) p .idle)

/-- The scheduler's choice. -/
inductive Event (α : Type*)
  | consumer
  | spurious
  /-- A producer calls `syncqueue_signal_data`. -/
  | signalData (p : Nat) (data : α)
  | producer (p : Nat)

def syncStep (s : Syncqueue α) : Event α → Option (Syncqueue α)
  | .consumer => consumerStep s
  | .spurious =>
      match s.consumer with
      | .waiting => some { s with consumer := .woken }
      | _ => none
  | .signalData p data =>
      match s.producers p with
      | .idle => some (setProducer s p (.toEnq data))
      | _ => none
  | .producer p => producerStep s p

end Rms.Util
