/-
Rms.V01.Bounded — the daemon in 32-bit memory.

The functions of `Rms.V01.Daemon` write into buffers without an end, and
the members that were freed stay readable. Here the same functions get no
further than memory does. `none` now has two more meanings:

* `send_nack` has written past the last address;
* a loop over `membersq` has read a member that was freed.

A process does not survive the first; what it reads in the second case is
anybody's. The rest of the loop is taken over as it is, so a step has the
result of the unbounded daemon or none (`BoundedTheorems`).
-/
import Rms.V01.Window

namespace Rms.V01.Bounded

open Rms.ByteMem Rms.Util

/-- The number of addresses. -/
def memorySize : Nat := 4294967296

/-- The offset in its buffer where `send_nack` stops writing. While that is
an address, the count that it keeps in an `int` is not negative. -/
def nackSize (mem : RmcMember) : Nat :=
  sizeofHdr + (1 + (nackList mem).length) * sizeofLong

def sendNack (h : Host) (mp p : Nat) (cb : RmcCtrlBlock) : Option RmcCtrlBlock :=
  if nackSize (cb.mems mp) ≤ memorySize then some (V01.sendNack h mp p cb) else none

/-! ## The datagram switch -/

/-- A DATA message ahead of the expected number. -/
def dataAhead (h : Host) (mp p : Nat) (cb : RmcCtrlBlock) : Option RmcCtrlBlock :=
  let (cb, nack) := allocMsg (cacheMsg h mp p cb)
  (sendNack h mp nack cb).map fun cb => releaseMsg cb nack

/-- `case RMCAST_MSG_DATA`. -/
def dataMsg (h : Host) (sender : SockaddrIn) (p : Nat) (cb : RmcCtrlBlock) :
    Option RmcCtrlBlock :=
  match htblGet cb.members ((cb.msgs p).hdrId h.endian) with
  | none => some (releaseMsg cb p)
  | some mp =>
      if (cb.mems mp).sequence + 1 ≠ (cb.msgs p).hdrSequence h.endian then
        if (cb.mems mp).sequence < (cb.msgs p).hdrSequence h.endian then dataAhead h mp p cb
        else some (releaseMsg cb p)
      else some (dataInSequence h sender mp p cb)

/-- The gap check at the end of a heartbeat. -/
def hbeatGap (h : Host) (mp p : Nat) (cb : RmcCtrlBlock) : Option RmcCtrlBlock :=
  if (cb.mems mp).sequence + 1 ≠ (cb.msgs p).hdrSequence h.endian then
    if (cb.mems mp).sequence < (cb.msgs p).hdrSequence h.endian then sendNack h mp p cb
    else some cb
  else some cb

/-- `case RMCAST_MSG_HBEAT`. -/
def hbeatMsg (h : Host) (p : Nat) (cb : RmcCtrlBlock) : Option RmcCtrlBlock :=
  let cb := cb.setMsg p (hbeatDecode h.endian (cb.msgs p))
  let (cb, mp) := hbeatMember h p cb
  let cb := cb.setMem mp (hbeatUpdate h.endian (cb.msgs p) cb.self.id (cb.mems mp))
  let cb := cb.setMsg p (hbeatDecodeTail h.endian (cb.msgs p))
  (hbeatGap h mp p cb).map fun cb => releaseMsg cb p

/-- The switch on the message type. -/
def dispatch (h : Host) (sender : SockaddrIn) (p : Nat) (cb : RmcCtrlBlock) :
    Option RmcCtrlBlock :=
  match MsgType.ofByte (cb.msgs p).hdrType with
  | some .data => dataMsg h sender p cb
  | some .hbeat => hbeatMsg h p cb
  | _ => V01.dispatch h sender p cb

/-- `mcast_sock` is readable. -/
def mcastBranch (h : Host) (sender : SockaddrIn) (r : RecvResult) (cb : RmcCtrlBlock) :
    Option (RmcCtrlBlock × Bool) :=
  let (cb, p, ret) := recvMsg r cb
  if ret < sizeofHdr then some (releaseMsg cb p, true)
  else
    let cb := cb.setMsg p (hdrDecode h.endian (cb.msgs p))
    if ret < ((cb.msgs p).hdrLength h.endian).toNat + sizeofHdr then some (cb, true)
    else (dispatch h sender p cb).map fun cb => (cb, false)

/-! ## The loop -/

/-- The first `n` items of `membersq` hold a member that was freed. -/
def readsFreed (cb : RmcCtrlBlock) (n : Nat) : Bool :=
  match mqueuePeeks n 0 cb.membersq with
  | none => false
  | some (_, cs) => cs.any fun c => c.any fun mp => cb.freed.contains mp

/-- A heartbeat is due. With acks it reads as many members as a 16-bit
field counts. -/
def hbeatBranch (h : Host) (cb : RmcCtrlBlock) : Option RmcCtrlBlock :=
  if cb.hbAck && readsFreed cb (UInt16.ofNat (mqueueSize cb.membersq).toNat).toNat then none
  else V01.hbeatBranch h cb

/-- If acks are used: clear buffers. -/
def ackBranch (cb : RmcCtrlBlock) : Option RmcCtrlBlock :=
  if cb.hbAck && readsFreed cb (mqueueSize cb.membersq).toNat then none else V01.ackBranch cb

/-- The part of the loop below the datagram switch. -/
def afterMcast (h : Host) (i : Iteration) (cb : RmcCtrlBlock) : Option RmcCtrlBlock :=
  let cb := match i.ipc with
    | some x => ipcBranch h x cb
    | none => cb
  match (if i.hbeat then hbeatBranch h cb else some cb) with
  | none => none
  | some cb => ackBranch cb

/-- One pass through the loop of `rmcast_daemon`. -/
def iteration (h : Host) (cb : RmcCtrlBlock) (i : Iteration) : Option RmcCtrlBlock :=
  match i.mcast with
  | none => afterMcast h i cb
  | some (sender, r) =>
      match mcastBranch h sender r cb with
      | none => none
      | some (cb, true) => some cb
      | some (cb, false) => afterMcast h i cb

end Rms.V01.Bounded
