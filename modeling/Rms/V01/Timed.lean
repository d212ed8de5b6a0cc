/-
Rms.V01.Timed — the loop of `rmcast_daemon` with its clock.

`iteration` takes as an input whether a heartbeat is due. Here the
periodic part of the loop decides: it reads the clock, compares with
`self->last_hbeat` and `hbeat_rate`, and after a heartbeat computes a new
rate from the messages sent since the last one and clamps it. The new rate
before the clamp comes out of `float` arithmetic (with a division by zero
when nothing was sent) and is an input here, so nothing depends on it. A
pass that leaves its datagram with `continue` does not get to the periodic
part.

`now` is the value of `timeout.tv_sec` that the periodic part works with.
It is a reading in whole seconds and nothing finer is compared: readings
that differ by 1 can be a microsecond apart. The history variables are the
readings at the heartbeats, the latest first, and the latest reading.
-/
import Rms.V01.Window

namespace Rms.V01

open Rms.ByteMem Rms.Util

/-- What the outside world does in one pass. -/
structure TimedPass where
  mcast : Option (SockaddrIn × RecvResult)
  ipc : Option IpcInput
  now : Int
  /-- `RMCAST_RATE_FACTOR / rmcb->msg_per_sec` as an `int`. -/
  rate : Int

structure Timed where
  cb : RmcCtrlBlock
  lastHbeat : Int
  hbeatRate : Int
  beats : List Int
  clock : Option Int

/-- `rmcast_init`, with the third argument. -/
def Timed.start (g : Garbage) (a : InitArgs) (hbRateSec : Int) : Timed :=
  { cb := rmcastInit g a, lastHbeat := 0
    hbeatRate := if hbRateSec > 5 ∨ hbRateSec < 0 then 5 else hbRateSec
    beats := [], clock := none }

def clampRate (rate : Int) : Int := if rate > 5 then 5 else if rate < 1 then 1 else rate

/-- `ipc_sock`, if it is readable. The clock is read afterwards, or was read
when a heartbeat arrived in this pass. -/
def Timed.ipc (h : Host) (p : TimedPass) (s : Timed) : Timed :=
  { s with
      cb := match p.ipc with
        | some x => ipcBranch h x s.cb
        | none => s.cb
      clock := some p.now }

/-- The heartbeat of the periodic part, if it is due. -/
def Timed.periodic (h : Host) (p : TimedPass) (s : Timed) : Option Timed :=
  if p.now - s.lastHbeat ≥ s.hbeatRate then
    (hbeatBranch h s.cb).map fun cb =>
      { s with
          cb := cb, lastHbeat := p.now, hbeatRate := clampRate p.rate, beats := p.now :: s.beats }
  else some s

/-- The loop below the datagram switch. -/
def Timed.lower (h : Host) (p : TimedPass) (s : Timed) : Option Timed :=
  match (s.ipc h p).periodic h p with
  | none => none
  | some s => (ackBranch s.cb).map fun cb => { s with cb := cb }

/-- One pass through the loop. -/
def Timed.pass (h : Host) (s : Timed) (p : TimedPass) : Option Timed :=
  match p.mcast with
  | none => s.lower h p
  | some (sender, r) =>
      match mcastBranch h sender r s.cb with
      | none => none
      | some (cb, true) => some { s with cb := cb }
      | some (cb, false) => Timed.lower h p { s with cb := cb }

/-- A heartbeat for the group. -/
def isHbeat (x : Sendto) : Bool := toGroup x && x.bytes[1]? == some MsgType.hbeat.toByte

end Rms.V01
