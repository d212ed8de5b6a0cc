/-
Rms.V01.LifeCycle — the sockets and the threads of a node.

`fds` are the open descriptors of the process. What the system calls
return is an input, within what the kernel promises: a new descriptor is
not an open one, and an option cannot be set on one that is closed.

`threads` are the daemons in the order in which they were started. A daemon
looks at `active` at the top of its loop and nowhere else. `rmcast_leave`
clears the flag and returns without waiting for it, and `rmcast_join_on`
looks at nothing but the flag.

`rmcastd` is what `pthread_create` stored last: the daemon it started. If
it failed, what it stored is undefined, also if the field named a daemon
before; the field then names none, as before the first join.

`rmcast_close` waits for `rmcastd` in `pthread_join`, so it is two steps,
`close` and `joined`. A call with a field that names no thread fails, and
`rmcast_close` goes on at once. Nobody can wait for a thread that was
joined before; the step then has no result. What is done after `closed` is
done with freed memory.
-/
import Mathlib.Data.Finset.Basic
import Rms.V01.Format

namespace Rms.V01

/-! ## Sockets -/

structure Sockets where
  fds : Finset Int
  initialized : Int
  ipcSvrSock : Int
  ipcCliSock : Int
  ipcSock : Int
  mcastSock : Int
  maxsock : Int
  maxrcv : Int

namespace Sockets

/-- `socket` or `accept` returned `fd`. -/
def new (fd : Int) (s : Sockets) : Option Sockets :=
  if fd < 0 then some s
  else if fd ∈ s.fds then none
  else some { s with fds := insert fd s.fds }

def close (fd : Int) (s : Sockets) : Sockets := { s with fds := s.fds.erase fd }

/-- `setsockopt` on `fd`. -/
def setsockopt (fd ret : Int) (s : Sockets) : Int := if 0 ≤ fd ∧ fd ∈ s.fds then ret else -1

/-- The control block in static storage, before `rmcast_init`. -/
def boot (fds : Finset Int) : Sockets := ⟨fds, 0, 0, 0, 0, 0, 0, 0⟩

end Sockets

/-- The results of the calls of `init_ipc_sockets`. -/
structure IpcSetup where
  svr : Int
  svrOpt : Int
  svrBind : Int
  listen : Int
  cli : Int
  cliOpt : Int
  cliBind : Int
  connect : Int
  accept : Int

/-- `init_ipc_sockets`. The statement that should set `initialized` compares
it. -/
def initIpcSockets (i : IpcSetup) (s : Sockets) : Option (Sockets × Int) := do
  if s.initialized = 12345 then
    return (s, 0)
  let s ← s.new i.svr
  let s := { s with ipcSvrSock := i.svr }
  if s.ipcSvrSock < 0 then
    return (s, s.ipcSvrSock)
  if i.svrOpt < 0 then
    return (s.close s.ipcSvrSock, -1)
  if i.svrBind < 0 then
    return (s.close s.ipcSvrSock, -1)
  if i.listen < 0 then
    return (s.close s.ipcSvrSock, i.listen)
  let s ← s.new i.cli
  let s := { s with ipcCliSock := i.cli }
  if s.ipcCliSock < 0 then
    return (s.close s.ipcSvrSock, s.ipcCliSock)
  if i.cliOpt < 0 then
    return ((s.close s.ipcSvrSock).close s.ipcCliSock, -1)
  let s := { s with maxrcv := s.ipcCliSock + 1 }
  if i.cliBind < 0 then
    return ((s.close s.ipcSvrSock).close s.ipcCliSock, -1)
  if i.connect < 0 then
    return ((s.close s.ipcSvrSock).close s.ipcCliSock, i.connect)
  let s ← s.new i.accept
  let s := { s with ipcSock := i.accept }
  if s.ipcSock < 0 then
    return ((s.close s.ipcSvrSock).close s.ipcCliSock, s.ipcSock)
  return ({ s with maxsock := s.ipcSock + 1 }, 0)

/-- The results of the calls of `init_mcast_socket`. -/
structure McastSetup where
  sock : Int
  reuse : Int
  loop : Int
  bind : Int

/-- `init_mcast_socket`. If an option cannot be set, the IPC sockets are
closed as well. -/
def initMcastSocket (i : McastSetup) (s : Sockets) : Option (Sockets × Int) := do
  let s ← s.new i.sock
  let s := { s with mcastSock := i.sock }
  if s.mcastSock < 0 then
    return (s, s.mcastSock)
  let s := if s.maxsock ≤ s.mcastSock then { s with maxsock := s.mcastSock + 1 } else s
  if i.reuse < 0 then
    return (((s.close s.mcastSock).close s.ipcSvrSock).close s.ipcCliSock, -1)
  if i.loop < 0 then
    return (((s.close s.mcastSock).close s.ipcSvrSock).close s.ipcCliSock, -1)
  return (s, i.bind)

/-! ## Threads -/

inductive Thread
  | running
  | ended
  | joined
  deriving DecidableEq

structure Life where
  cb : RmcCtrlBlock
  socks : Sockets
  active : Bool
  threads : List Thread
  /-- The thread that `rmcastd` names. -/
  rmcastd : Option Nat
  /-- The client is in `pthread_join`. -/
  closing : Bool
  closed : Bool

/-- What `rmcast_init` leaves. -/
def Life.start (cb : RmcCtrlBlock) (socks : Sockets) : Life :=
  ⟨cb, socks, false, [], none, false, false⟩

/-- The results of the calls of `rmcast_join_on`. -/
structure JoinInput where
  mcast : McastSetup
  ttl : Int
  membership : Int
  create : Int

/-- `rmcast_join_on`. The result of `init_mcast_socket` is not looked at. -/
def rmcastJoinOn (j : JoinInput) (s : Life) : Option (Life × Int) := do
  if s.active then
    return (s, -1)
  let (socks, _) ← initMcastSocket j.mcast s.socks
  let s := { s with socks := socks }
  if socks.setsockopt socks.mcastSock j.ttl < 0 then
    return (s, -1)
  if socks.setsockopt socks.mcastSock j.membership < 0 then
    return (s, -1)
  let s := { s with active := true }
  if j.create = 0 then
    return ({ s with threads := s.threads ++ [.running], rmcastd := some s.threads.length }, 0)
  return ({ s with rmcastd := none }, j.create)

/-- `rmcast_leave`. -/
def Life.leave (keys : List UInt32) (s : Life) : Life :=
  { s with active := false, cb := rmcastLeave keys s.cb }

inductive LifeOp
  | join (j : JoinInput)
  | leave (keys : List UInt32)
  /-- `rmcast_close` up to `pthread_join`. -/
  | close (keys : List UInt32)
  /-- `pthread_join` returns, and `rmcast_close` goes on to its end. -/
  | joined
  /-- A pass of a daemon's loop. -/
  | pass (n : Nat) (i : Iteration)
  /-- A daemon finds `active` cleared. -/
  | exit (n : Nat)

def lifeStep (h : Host) (s : Life) : LifeOp → Option Life
  | .join j => if s.closing then none else (rmcastJoinOn j s).map Prod.fst
  | .leave keys => if s.closing then none else some (s.leave keys)
  | .close keys =>
      if s.closing then none
      else
        let s := if s.active then s.leave keys else s
        some { s with closing := true }
  | .joined =>
      if s.closing then
        match s.rmcastd with
        | none => some { s with closing := false, closed := true }
        | some n =>
            if s.threads[n]? = some .ended then
              some { s with threads := s.threads.set n .joined, closing := false, closed := true }
            else none
      else none
  | .pass n i =>
      if s.threads[n]? = some .running ∧ s.active then
        (iteration h s.cb i).map fun cb => { s with cb := cb }
      else none
  | .exit n =>
      if s.threads[n]? = some .running ∧ s.active = false then
        some { s with cb := daemonExit h s.cb, threads := s.threads.set n .ended }
      else none

/-- How many daemons work on the control block. -/
def Life.running (s : Life) : Nat := s.threads.count .running

end Rms.V01
