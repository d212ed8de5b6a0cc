/-
Rms.V01.Leave — `v0.1/rmcast.c`: leaving the group.

`rmcast_leave` runs in the client's thread: it empties the buffers and
resets the counters of the node itself, but not its session, which only
`rmcast_init` sets. The daemon sees that it is no longer active, leaves
its loop and multicasts a LEAVE (`daemonExit`).

`rmcast_leave` lists the keys of `members` into an array sized for
`outmsgbuf`, so which members it drops is left open in `rmcastLeave`: the
keys are an argument, and in `leaveWith` those of `outmsgbuf` are one too.
`rmcastLeaveIn` has the arrays. A table is a
finite map there and its chains are an argument: `KeyOrder` says in which
order the loop of `htbl_enum_int_keys` comes to the keys, bucket by
bucket. The queue `inmsgq` is never filled.
-/
import Rms.Lib.Buckets
import Rms.V01.Daemon

namespace Rms.V01

open Rms.ByteMem Rms.Util Rms.Buckets

/-- Drop the messages kept for retransmission. -/
def drainOut : (keys : List UInt32) → RmcCtrlBlock → RmcCtrlBlock
  | [], cb => cb
  | k :: keys, cb =>
      match htblRemove cb.outmsgbuf k with
      | some (p, t) => drainOut keys (releaseMsg { cb with outmsgbuf := t } p)
      | none => drainOut keys cb

/-- Drop members. They stay in `membersq`. -/
def dropMembers : (keys : List UInt32) → RmcCtrlBlock → RmcCtrlBlock
  | [], cb => cb
  | k :: keys, cb =>
      match htblRemove cb.members k with
      | some (mp, t) =>
          let cb := { cb with members := t }
          let unseqMsgs := (cb.mems mp).unseqMsgs
          let cb := drainUnseq mp (htblEnumIntKeys unseqMsgs (htblCount unseqMsgs)) cb
          dropMembers keys { cb with freed := mp :: cb.freed }
      | none => dropMembers keys cb

/-- `rmcast_leave`, with the keys that its enumerations of `outmsgbuf` and
of `members` list. -/
def leaveWith (out keys : List UInt32) (cb : RmcCtrlBlock) : RmcCtrlBlock :=
  let cb := drainOut out cb
  let cb := dropMembers keys cb
  { cb with
    hbSeqP1 := 0, hbSeqP2 := 0, hbSeqP3 := 0, oldestSeq := 0
    self := { cb.self with sequence := 0, sequenceSync := 99999999, lost := 0 } }

/-- `outmsgbuf` is listed as its map has it. -/
def rmcastLeave (keys : List UInt32) (cb : RmcCtrlBlock) : RmcCtrlBlock :=
  leaveWith (htblEnumIntKeys cb.outmsgbuf (htblCount cb.outmsgbuf)) keys cb

/-! ## The arrays of keys -/

/-- The keys of each table by bucket. The caches are looked up by the
address of their member. -/
structure KeyOrder where
  outmsgbuf : List (List UInt32)
  members : List (List UInt32)
  unseqMsgs : Nat → List (List UInt32)

/-- An array allocated for an enumeration, and the keys written to it from
its first slot on. -/
structure KeyArray where
  slots : Nat
  keys : List UInt32
  deriving DecidableEq

/-- `htbl_enum_int_keys` into an array of `nkeys` slots. -/
def enumInto (nkeys : Nat) (buckets : List (List UInt32)) : KeyArray :=
  ⟨nkeys, gather nkeys buckets []⟩

/-- The loop over the members, with the arrays `keys1` it allocates. -/
def leaveMembers (order : Nat → List (List UInt32)) :
    (keys : List UInt32) → RmcCtrlBlock → RmcCtrlBlock × List KeyArray
  | [], cb => (cb, [])
  | k :: keys, cb =>
      match htblRemove cb.members k with
      | some (mp, t) =>
          let cb := { cb with members := t }
          let keys1 := enumInto (htblCount (cb.mems mp).unseqMsgs) (order mp)
          let cb := drainUnseq mp keys1.keys cb
          let (cb, arrays) := leaveMembers order keys { cb with freed := mp :: cb.freed }
          (cb, keys1 :: arrays)
      | none => leaveMembers order keys cb

/-- `rmcast_leave` with the arrays it allocates. -/
def rmcastLeaveIn (order : KeyOrder) (cb : RmcCtrlBlock) : RmcCtrlBlock × List KeyArray :=
  let nkeys := htblCount cb.outmsgbuf
  let keys := enumInto nkeys order.outmsgbuf
  let cb := drainOut keys.keys cb
  -- `cnt > nkeys` has the array allocated again, with `nkeys` slots
  let keys' := enumInto nkeys order.members
  let (cb, arrays) := leaveMembers order.unseqMsgs keys'.keys cb
  ({ cb with
     hbSeqP1 := 0, hbSeqP2 := 0, hbSeqP3 := 0, oldestSeq := 0
     self := { cb.self with sequence := 0, sequenceSync := 99999999, lost := 0 } },
   keys :: keys' :: arrays)

/-! ## The daemon -/

/-- The LEAVE message. -/
def leaveFill (h : Host) (self : RmcMember) (m : RmcMsg) : RmcMsg :=
  let e := h.endian
  let m := m.setHdrType .leave
  let m := m.setHdrLength e 0
  let m := m.setHdrSequence e (htonl e self.sequence)
  m.setHdrId e (htonl e self.id)

/-- What `rmcast_daemon` does behind its loop. -/
def daemonExit (h : Host) (cb : RmcCtrlBlock) : RmcCtrlBlock :=
  let (cb, p) := allocMsg cb
  let cb := cb.setMsg p (leaveFill h cb.self (cb.msgs p))
  let cb := cb.sendto .mcast p (sizeT sizeofHdr) false
  releaseMsg cb p

end Rms.V01
