/-
Rms.V01.Rmcast — the data of `v0.1/rmcast.h`: message layout, message
buffers, members and the control block.

The data model is the one the code was written for: `int`, `long` and
pointers of 32 bits, so `unsigned long` is a `UInt32` and wraps. The two
wire structures are packed:

    rmc_msg_hdr    version 0, type 1, length 2, sequence 4, id 8      (12 bytes)
    rmc_msg_hbeat  lost 0, namelen 4, flags 6, session 8, acks 12,
                   pgback 14                                          (16 bytes)

A message buffer (`rmc_msg`) is a heap object with its own block of
bytes; `hdr` and `data` are pointers into that block, so here they are
the offsets 0 and 12. Members are heap objects as well: the table
`members` and the queue `membersq` hold pointers to them. The control
block carries both heaps. A heap cell at or past `nmsgs` (`nmems`) is
memory that was never allocated and holds anything.

Two logs record what the daemon has done to the outside world: `sent`,
every datagram passed to `sendto`, and `ipcOut`, every record written on
`ipc_sock`.

Left out because no modelled function reads them: `how` and `sequence`
of `rmc_msg`; `sequence_sent`, `sequence_rcvd` and `last_hbeat` of a
member; sockets, ports, rates and timers of the control block (which
branches of an iteration run is part of the iteration's input).
-/
import Rms.Lib.ByteMem
import Rms.Util.Htbl
import Rms.Util.Mqueue

namespace Rms.V01

open Rms.ByteMem Rms.Util

/-! ## Hosts and sockets -/

/-- What the code takes from the machine it runs on: the byte order, and
how many of the bytes offered at an offset a `send` on `ipc_sock` takes
beyond the first. -/
structure Host where
  endian : Endian
  grain : Nat → Nat

/-- A `struct sockaddr_in`, sixteen bytes. -/
structure SockaddrIn where
  bytes : List UInt8
  length_eq : bytes.length = 16

/-- The result of `recv` or `recvfrom`: −1, or some bytes. -/
inductive RecvResult where
  | err
  | ok (bytes : List UInt8)

/-- The value returned by the call. -/
def RecvResult.ret : RecvResult → Int
  | .err => -1
  | .ok bytes => bytes.length

theorem RecvResult.neg_one_le_ret (r : RecvResult) : -1 ≤ r.ret := by
  cases r with
  | err => exact Int.le_refl _
  | ok bytes => exact Int.le_trans (by decide) (Int.natCast_nonneg bytes.length)

/-- No call returns more than was asked for. -/
def RecvResult.limit (n : Nat) : RecvResult → RecvResult
  | .err => .err
  | .ok bytes => .ok (bytes.take n)

/-- The block after the call. -/
def RecvResult.into (r : RecvResult) (m : Mem) (off : Nat) : Mem :=
  match r with
  | .err => m
  | .ok bytes => writeBytes m off bytes

/-- An `int` passed where a `size_t` is expected, and the comparisons the
compiler makes between the two, see the value modulo 2^32. -/
def sizeT (n : Int) : Nat := (n % 4294967296).toNat

/-- Where a datagram is sent: the group, or the address in `ucast_addr`. -/
inductive Dest where
  | mcast
  | ucast (sAddr : UInt32)
  deriving DecidableEq, Repr

/-- One call of `sendto`. Only the branch that multicasts a message looks
at the result; `failed` says that it saw no positive one there. -/
structure Sendto where
  dest : Dest
  bytes : List UInt8
  failed : Bool
  deriving DecidableEq, Repr

/-- One record written on `ipc_sock`: the bytes of the first `send`, those
of the send loop, and the header sequence and id of the message that was
handed over. -/
structure IpcRecord where
  head : List UInt8
  payload : List UInt8
  sequence : UInt32
  id : UInt32
  deriving DecidableEq, Repr

/-! ## Message types -/

inductive MsgType where
  | data | hbeat | ack | nack | join | leave | cert
  deriving DecidableEq, Repr

def MsgType.toByte : MsgType → UInt8
  | .data => 60
  | .hbeat => 61
  | .ack => 62
  | .nack => 63
  | .join => 64
  | .leave => 65
  | .cert => 66

/-- The case of the daemon's `switch` that a type byte selects. -/
def MsgType.ofByte (b : UInt8) : Option MsgType :=
  if b = 60 then some .data
  else if b = 61 then some .hbeat
  else if b = 62 then some .ack
  else if b = 63 then some .nack
  else if b = 64 then some .join
  else if b = 65 then some .leave
  else if b = 66 then some .cert
  else none

@[simp] theorem MsgType.ofByte_toByte (t : MsgType) : MsgType.ofByte t.toByte = some t := by
  cases t <;> decide

theorem MsgType.eq_toByte {b : UInt8} {t : MsgType} (h : MsgType.ofByte b = some t) :
    b = t.toByte := by
  unfold MsgType.ofByte at h
  repeat' split at h
  all_goals first
    | (obtain rfl := Option.some.inj h; assumption)
    | cases h

/-! ## Message buffers -/

def sizeofHdr : Nat := 12
def sizeofHbeat : Nat := 16
def sizeofLong : Nat := 4

/-- `rmc_msg`, with `hdr` at offset 0 and `data` at offset 12 of `buf`. -/
structure RmcMsg where
  buf : Mem
  size : Nat
  length : Int

namespace RmcMsg

variable (e : Endian)

def hdrVersion (m : RmcMsg) : UInt8 := m.buf 0
def hdrType (m : RmcMsg) : UInt8 := m.buf 1
def hdrLength (m : RmcMsg) : UInt16 := load16 e m.buf 2
def hdrSequence (m : RmcMsg) : UInt32 := load32 e m.buf 4
def hdrId (m : RmcMsg) : UInt32 := load32 e m.buf 8

def setBuf (m : RmcMsg) (buf : Mem) : RmcMsg := { m with buf := buf }

def setHdrVersion (m : RmcMsg) (v : UInt8) : RmcMsg := m.setBuf (writeBytes m.buf 0 [v])
def setHdrType (m : RmcMsg) (t : MsgType) : RmcMsg := m.setBuf (writeBytes m.buf 1 [t.toByte])
def setHdrLength (m : RmcMsg) (n : UInt16) : RmcMsg := m.setBuf (store16 e m.buf 2 n)
def setHdrSequence (m : RmcMsg) (n : UInt32) : RmcMsg := m.setBuf (store32 e m.buf 4 n)
def setHdrId (m : RmcMsg) (n : UInt32) : RmcMsg := m.setBuf (store32 e m.buf 8 n)

/-! The heartbeat structure, at `data`. -/

def hbeatLost (m : RmcMsg) : UInt32 := load32 e m.buf 12
def hbeatNamelen (m : RmcMsg) : UInt16 := load16 e m.buf 16
def hbeatFlags (m : RmcMsg) : UInt16 := load16 e m.buf 18
def hbeatSession (m : RmcMsg) : UInt32 := load32 e m.buf 20
def hbeatAcks (m : RmcMsg) : UInt16 := load16 e m.buf 24
def hbeatPgback (m : RmcMsg) : UInt16 := load16 e m.buf 26

def setHbeatLost (m : RmcMsg) (n : UInt32) : RmcMsg := m.setBuf (store32 e m.buf 12 n)
def setHbeatNamelen (m : RmcMsg) (n : UInt16) : RmcMsg := m.setBuf (store16 e m.buf 16 n)
def setHbeatFlags (m : RmcMsg) (n : UInt16) : RmcMsg := m.setBuf (store16 e m.buf 18 n)
def setHbeatSession (m : RmcMsg) (n : UInt32) : RmcMsg := m.setBuf (store32 e m.buf 20 n)
def setHbeatAcks (m : RmcMsg) (n : UInt16) : RmcMsg := m.setBuf (store16 e m.buf 24 n)
def setHbeatPgback (m : RmcMsg) (n : UInt16) : RmcMsg := m.setBuf (store16 e m.buf 26 n)

/-- The bytes that follow the header, as many as the header announces. -/
def payload (m : RmcMsg) : List UInt8 := readBytes m.buf sizeofHdr (m.hdrLength e).toNat

end RmcMsg

/-- A C string of a block: the bytes from an offset on up to the first
NUL. The block ends after `limit` bytes. -/
def cString (m : Mem) (off limit : Nat) : List UInt8 :=
  (readBytes m off (limit - off)).takeWhile (· ≠ 0)

/-! ## Members and the control block -/

structure RmcMember where
  id : UInt32
  hostname : List UInt8
  session : UInt32
  sequence : UInt32
  sequenceSync : UInt32
  lost : UInt32
  unseqMsgs : Htbl Nat

/-- `rmcast_member_init`. -/
def rmcastMemberInit (hostname : List UInt8) (id session : UInt32) : RmcMember :=
  { id := id, hostname := hostname, session := session, sequence := 0,
    sequenceSync := 0, lost := 0, unseqMsgs := ∅ }

structure RmcCtrlBlock where
  version : UInt8
  hostname : List UInt8
  self : RmcMember
  bufmsgq : List Nat
  members : Htbl Nat
  membersq : Mqueue Nat
  outmsgbuf : Htbl Nat
  oldestSeq : UInt32
  hbSeqP1 : UInt32
  hbSeqP2 : UInt32
  hbSeqP3 : UInt32
  hbAck : Bool
  bufsize : Nat
  ucastAddr : UInt32
  /-- The daemon's local variable `ipc_read`, as it lies in memory. -/
  ipcRead : Mem
  msgs : Nat → RmcMsg
  nmsgs : Nat
  mems : Nat → RmcMember
  nmems : Nat
  /-- Members passed to `rmcast_member_free`. -/
  freed : List Nat
  sent : List Sendto
  ipcOut : List IpcRecord

namespace RmcCtrlBlock

/-- Write through a message pointer. -/
def setMsg (cb : RmcCtrlBlock) (p : Nat) (m : RmcMsg) : RmcCtrlBlock :=
  { cb with msgs := Function.update cb.msgs p m }

/-- Write through a member pointer. -/
def setMem (cb : RmcCtrlBlock) (mp : Nat) (mem : RmcMember) : RmcCtrlBlock :=
  { cb with mems := Function.update cb.mems mp mem }

@[simp] theorem setMsg_self (cb : RmcCtrlBlock) (p : Nat) (m : RmcMsg) :
    (cb.setMsg p m).msgs p = m := Function.update_self ..

@[simp] theorem setMem_self (cb : RmcCtrlBlock) (mp : Nat) (mem : RmcMember) :
    (cb.setMem mp mem).mems mp = mem := Function.update_self ..

/-- `sendto(mcast_sock, msg->buf, len, ...)`. -/
def sendto (cb : RmcCtrlBlock) (dest : Dest) (p len : Nat) (failed : Bool) : RmcCtrlBlock :=
  { cb with sent := cb.sent ++ [⟨dest, readBytes (cb.msgs p).buf 0 len, failed⟩] }

end RmcCtrlBlock

end Rms.V01
