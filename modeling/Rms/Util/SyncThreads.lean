/-
Rms.Util.SyncThreads — `lib/util/async.c` and the POSIX half of the events
of `lib/util/uthread.c` with any number of threads, lock by lock.

`Syncqueue` takes every section between a lock and its unlock as one step
and has one consumer. Here each thread may call any function of the two
files, taking a mutex and giving it back are steps of their own, and a
call of `mqueue` inside a section takes two steps: it reads the queue, and
later writes what it makes of what it read. The queue is the one of
`Mqueue`, node by node.

A section is named by what the function does in it; `Section.mutex` is the
mutex around it. `pthread_cond_signal` wakes one of the blocked threads,
`pick` says which one, and does nothing when nobody is blocked. A blocked
thread may also wake up for no reason, or because its time is over, at any
moment.

`log` is a history variable: the calls of `mqueue`, in the order in which
they wrote the queue, with their callers and answers.
-/
import Rms.Util.MqueueRefinement
import Mathlib.Data.Fintype.Basic

namespace Rms.Util

variable {τ α : Type*}

inductive Mutex
  | mutx
  | condVarMutex
  deriving DecidableEq

/-- What follows `syncqueue_size`. -/
inductive AfterSize
  | ret
  | waitData
  | timedwaitData (timeoutms : Int)
  deriving DecidableEq

/-- What is done under a mutex. `deq` says that `syncqueue_deq` follows the
wait, `signal` that `uthread_evt_signal` follows the enqueueing. -/
inductive Section (α : Type*)
  | size (after : AfterSize)
  | enq (data : α) (signal : Bool)
  | deq
  | signal
  | broadcast
  | waitcount
  | wait (deq : Bool)
  | timedwait (timeoutms : Int) (deq : Bool)
  deriving DecidableEq

def Section.mutex : Section α → Mutex
  | .size _ => .mutx
  | .enq _ _ => .mutx
  | .deq => .mutx
  | _ => .condVarMutex

/-- The call of `mqueue` in a section. -/
def Section.op : Section α → Option (MqueueOp α)
  | .size _ => some .size
  | .enq data _ => some (.append data)
  | .deq => some .remove
  | _ => none

/-- `uthread_evt_timedwait`: a negative time means `uthread_evt_wait`. -/
def evtTimedwait (timeoutms : Int) (deq : Bool) : Section α :=
  if timeoutms < 0 then .wait deq else .timedwait timeoutms deq

/-- The section after one that ended in the given answer, if there is one. -/
def Section.next : Section α → MqueueAnswer α → Option (Section α)
  | .size .waitData, .size count => some (if count < 1 then .wait true else .deq)
  | .size (.timedwaitData timeoutms), .size count =>
      some (if count < 1 then evtTimedwait timeoutms true else .deq)
  | .enq _ true, _ => some .signal
  | _, _ => none

/-- The functions that a thread may call. -/
inductive SyncCall (α : Type*)
  | size
  | enq (data : α)
  | deq
  | signal
  | signalData (data : α)
  | waitCount
  | waitData
  | timedwaitData (timeoutms : Int)
  | evtBroadcast
  | evtWait
  | evtTimedwait (timeoutms : Int)

/-- The first section of a call. -/
def SyncCall.first : SyncCall α → Section α
  | .size => .size .ret
  | .enq data => .enq data false
  | .deq => .deq
  | .signal => .signal
  | .signalData data => .enq data true
  | .waitCount => .waitcount
  | .waitData => .size .waitData
  | .timedwaitData timeoutms => .size (.timedwaitData timeoutms)
  | .evtBroadcast => .broadcast
  | .evtWait => .wait false
  | .evtTimedwait timeoutms => Rms.Util.evtTimedwait timeoutms false

/-- Where a thread is: outside; before a lock; behind it; inside a call of
`mqueue` that has read `q`; blocked on the condition variable; woken, but
without the mutex; with the mutex again; before the unlock. -/
inductive Place (α : Type*)
  | idle
  | acquire (c : Section α)
  | inside (c : Section α)
  | working (c : Section α) (q : Mqueue α)
  | blocked (c : Section α)
  | woken (c : Section α)
  | back (c : Section α)
  | release (m : Mutex) (next : Option (Section α))

def Place.isBlocked : Place α → Bool
  | .blocked _ => true
  | _ => false

structure SyncThreads (τ α : Type*) where
  queue : Mqueue α
  holder : Mutex → Option τ
  status : Int
  threads : τ → Place α
  log : List (τ × MqueueOp α × MqueueAnswer α)

/-- `syncqueue_init`. -/
def syncThreadsInit (garbage : Nat → MqueueItem α) (init : Int) : SyncThreads τ α :=
  { queue := mqueueInit garbage init, holder := fun _ => none, status := 0
    threads := fun _ => .idle, log := [] }

variable [DecidableEq τ]

def SyncThreads.goTo (s : SyncThreads τ α) (t : τ) (p : Place α) : SyncThreads τ α :=
  { s with threads := Function.update s.threads t p }

def SyncThreads.setHolder (s : SyncThreads τ α) (m : Mutex) (t : Option τ) : SyncThreads τ α :=
  { s with holder := Function.update s.holder m t }

/-- `pthread_mutex_lock`: it returns once nobody has the mutex. -/
def SyncThreads.lock (s : SyncThreads τ α) (t : τ) (m : Mutex) (p : Place α) :
    Option (SyncThreads τ α) :=
  if s.holder m = none then some ((s.setHolder m (some t)).goTo t p) else none

/-- `pthread_cond_wait` gives the mutex back and blocks. -/
def SyncThreads.block (s : SyncThreads τ α) (t : τ) (c : Section α) : SyncThreads τ α :=
  (s.setHolder .condVarMutex none).goTo t (.blocked c)

/-- The end of a wait: `status--`. -/
def SyncThreads.endWait (s : SyncThreads τ α) (t : τ) (deq : Bool) : SyncThreads τ α :=
  { s with status := s.status - 1 }.goTo t
    (.release .condVarMutex (if deq then some .deq else none))

/-- The test of the loop in `uthread_evt_wait`, and what follows it. -/
def SyncThreads.waitLoop (s : SyncThreads τ α) (t : τ) (deq : Bool) : SyncThreads τ α :=
  if s.status ≠ 0 then s.block t (.wait deq) else s.endWait t deq

/-- `cond_var_timeout.tv_nsec`. POSIX has `pthread_cond_timedwait` fail at
once when it is not below a second. -/
def timeoutNsec (usec : Nat) (timeoutms : Int) : Int :=
  (usec : Int) * 1000 + Int.tmod timeoutms 1000 * 1000000

variable [Fintype τ]

/-- `pthread_cond_signal`. -/
def SyncThreads.wakeOne (s : SyncThreads τ α) (pick : Option τ) : Option (SyncThreads τ α) :=
  match pick with
  | none => if ∃ u, (s.threads u).isBlocked then none else some s
  | some u =>
      match s.threads u with
      | .blocked c => some (s.goTo u (.woken c))
      | _ => none

omit [DecidableEq τ] [Fintype τ] in
/-- `pthread_cond_broadcast`. -/
def SyncThreads.wakeAll (s : SyncThreads τ α) : SyncThreads τ α :=
  { s with threads := fun u =>
      match s.threads u with
      | .blocked c => .woken c
      | p => p }

/-- A thread does what it has the mutex for. -/
def SyncThreads.body (s : SyncThreads τ α) (t : τ) (pick : Option τ) (usec : Nat) :
    Section α → Option (SyncThreads τ α)
  | .signal =>
      (if s.status ≠ 0 then s.wakeOne pick else some s).map (·.goTo t (.release .condVarMutex none))
  | .broadcast =>
      some ((if s.status ≠ 0 then s.wakeAll else s).goTo t (.release .condVarMutex none))
  | .waitcount => some (s.goTo t (.release .condVarMutex none))
  | .wait deq => some ({ s with status := s.status + 1 }.waitLoop t deq)
  | .timedwait timeoutms deq =>
      let s := { s with status := s.status + 1 }
      if timeoutNsec usec timeoutms < 1000000000 then some (s.block t (.timedwait timeoutms deq))
      else some (s.endWait t deq)
  | c => some (s.goTo t (.working c s.queue))

/-- The call of `mqueue` writes the queue. -/
def SyncThreads.commit (s : SyncThreads τ α) (t : τ) (c : Section α) (q : Mqueue α) :
    Option (SyncThreads τ α) :=
  match c.op with
  | none => none
  | some op =>
      (mqueueStep q op).map fun r =>
        { s with queue := r.1, log := s.log ++ [(t, op, r.2)] }.goTo t
          (.release .mutx (c.next r.2))

/-- The next step of a thread. -/
def SyncThreads.move (s : SyncThreads τ α) (t : τ) (pick : Option τ) (usec : Nat) :
    Option (SyncThreads τ α) :=
  match s.threads t with
  | .idle => none
  | .acquire c => s.lock t c.mutex (.inside c)
  | .inside c => s.body t pick usec c
  | .working c q => s.commit t c q
  | .blocked _ => none
  | .woken c => s.lock t .condVarMutex (.back c)
  | .back (.wait deq) => some (s.waitLoop t deq)
  | .back (.timedwait _ deq) => some (s.endWait t deq)
  | .back _ => none
  | .release m next =>
      some ((s.setHolder m none).goTo t (match next with | none => .idle | some c => .acquire c))

/-- The scheduler's choice. -/
inductive ThreadEvent (τ α : Type*)
  | call (t : τ) (c : SyncCall α)
  | move (t : τ) (pick : Option τ) (usec : Nat)
  | timeout (t : τ)
  | spurious (t : τ)

def threadStep (s : SyncThreads τ α) : ThreadEvent τ α → Option (SyncThreads τ α)
  | .call t c =>
      match s.threads t with
      | .idle => some (s.goTo t (.acquire c.first))
      | _ => none
  | .move t pick usec => s.move t pick usec
  | .timeout t =>
      match s.threads t with
      | .blocked (.timedwait timeoutms deq) => some (s.goTo t (.woken (.timedwait timeoutms deq)))
      | _ => none
  | .spurious t =>
      match s.threads t with
      | .blocked c => some (s.goTo t (.woken c))
      | _ => none

end Rms.Util
