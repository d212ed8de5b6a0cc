/-
Rms.V01.Process — a node as a process.

The daemon of `Rms.V01.Daemon` keeps its messages in a map and writes into
blocks without an end. A process does not:

* `outmsgbuf` is a table of fifty buckets with a pool of twenty entries,
  and a table with a pool is not always the map it should be
  (`htbl_pool_resurrects`). The functions that use it call the table of
  `Rms.Util.Hashtable` here, and go on with what it answers;
* a step has no result if it leaves the memory it may use: the address
  space in `send_nack`, or a member that was freed (`Rms.V01.Bounded`);
  the buffer of a client's message, of a heartbeat or of the datagram that
  is parsed; or the array of keys in `rmcast_leave`.

The field `cb.outmsgbuf` goes along as a history variable: the map that
the same calls make. No function here reads it.
-/
import Rms.Util.HashtableTheorems
import Rms.V01.Bounded
import Rms.V01.Format
import Rms.V01.HbeatRoomTheorems
import Rms.V01.Parse

namespace Rms.V01

open Rms.ByteMem Rms.Util

structure Process where
  cb : RmcCtrlBlock
  outmsgbuf : Hashtable.Hashtbl Nat

namespace Process

/-! ## The table -/

/-- A call on `outmsgbuf`. -/
def call (op : Hashtable.IntOp Nat) (s : Process) :
    Option (Process × Hashtable.HtblAnswer Nat) :=
  (Hashtable.htblStep s.outmsgbuf op.toOp).map fun r =>
    ({ cb := { s.cb with outmsgbuf := (Hashtable.intStep s.cb.outmsgbuf op).1 }
       outmsgbuf := r.1 }, r.2)

/-- `if(htbl_remove(rmcb->outmsgbuf, ...)) release_msg(msg)`. -/
def removeOut (k : UInt32) (s : Process) : Option Process :=
  (call (.remove k) s).map fun r =>
    match r.2.data with
    | some p => { r.1 with cb := releaseMsg r.1.cb p }
    | none => r.1

/-- What `htbl_get` finds in `outmsgbuf`. -/
def kept (s : Process) (k : UInt32) : Option Nat :=
  (Hashtable.htblGet s.outmsgbuf k.toInt32).bind fun r => r.2.data

/-! ## Purges -/

/-- One round of `while(oldest_seq < ...)`. -/
def purgeRound (s : Process) : Option Process :=
  (removeOut s.cb.oldestSeq s).map fun s =>
    { s with cb := { s.cb with oldestSeq := s.cb.oldestSeq + 1 } }

def purgeRounds : Nat → Process → Option Process
  | 0, s => some s
  | n + 1, s => (purgeRound s).bind (purgeRounds n)

def purge (bound : UInt32) (s : Process) : Option Process :=
  purgeRounds (bound.toNat - s.cb.oldestSeq.toNat) s

/-! ## The datagram switch -/

/-- The loop of `case RMCAST_MSG_NACK` from `itr` on. -/
def nackLoop (h : Host) (p : Nat) : (rounds : Nat) → (itr : Nat) → Process → Option Process
  | 0, _, s => some s
  | n + 1, itr, s =>
      let e := h.endian
      let m := s.cb.msgs p
      let k := ntohl e (load32 e m.buf (sizeofHdr + itr * sizeofLong))
      let cb := s.cb.setMsg p (m.setBuf (store32 e m.buf (sizeofHdr + itr * sizeofLong) k))
      (call (.get k) { s with cb := cb }).bind fun r =>
        let cb := match r.2.data with
          | some q =>
              r.1.cb.sendto (.ucast r.1.cb.ucastAddr) q
                (sizeT ((r.1.cb.msgs q).length + sizeofHdr)) false
          | none => r.1.cb
        nackLoop h p n (itr + 1) { r.1 with cb := cb }

/-- `case RMCAST_MSG_NACK`. -/
def nackMsg (h : Host) (p : Nat) (s : Process) : Option Process :=
  let e := h.endian
  let msg := s.cb.msgs p
  let count := toInt32 (load32 e msg.buf sizeofHdr)
  nackLoop h p count.toNat 1 { s with cb := { s.cb with ucastAddr := htonl e (msg.hdrId e) } }

/-- The switch on the message type, if it reads no byte behind its buffer. -/
def dispatch (h : Host) (sender : SockaddrIn) (p : Nat) (s : Process) : Option Process :=
  if (Footprint.dispatch h sender p s.cb).offsets.all (· < (s.cb.msgs p).size) then
    match MsgType.ofByte (s.cb.msgs p).hdrType with
    | some .nack => nackMsg h p s
    | _ => (Bounded.dispatch h sender p s.cb).map fun cb => { s with cb := cb }
  else none

/-- `mcast_sock` is readable. -/
def mcastBranch (h : Host) (sender : SockaddrIn) (r : RecvResult) (s : Process) :
    Option Process :=
  let (cb, p, ret) := recvMsg r s.cb
  if ret < sizeofHdr then some { s with cb := releaseMsg cb p }
  else
    let cb := cb.setMsg p (hdrDecode h.endian (cb.msgs p))
    if ret < ((cb.msgs p).hdrLength h.endian).toNat + sizeofHdr then some { s with cb := cb }
    else dispatch h sender p { s with cb := cb }

/-! ## The client's messages -/

/-- The second `recv` stores more than its buffer has room for. -/
def overruns (h : Host) (i : IpcInput) (cb : RmcCtrlBlock) : Bool :=
  match i.body.limit (sizeT (ipcLen h i cb)) with
  | .err => false
  | .ok data => chosenSize h i cb < sizeofHdr + data.length

def ipcSend (h : Host) (sendto ipcRead : Int) (p : Nat) (s : Process) : Option Process :=
  let cb := s.cb.setMsg p (dataFill h s.cb.self ipcRead (s.cb.msgs p))
  let cb := cb.sendto .mcast p (sizeT (ipcRead + sizeofHdr)) (decide (sendto ≤ 0))
  if 0 < sendto then
    (call (.put cb.self.sequence p) { s with cb := cb }).map fun r =>
      { r.1 with cb := { r.1.cb with
        self := { r.1.cb.self with sequence := r.1.cb.self.sequence + 1 } } }
  else some { s with cb := cb }

/-- `ipc_sock` is readable. -/
def ipcBranch (h : Host) (i : IpcInput) (s : Process) : Option Process :=
  if 0 < (i.len.limit sizeofLong).ret then
    if overruns h i s.cb then none
    else
      let ipcRead := ipcLen h i s.cb
      let (cb, p) := ipcRecv h i s.cb
      if (i.body.limit (sizeT ipcRead)).ret = ipcRead then
        ipcSend h i.sendto ipcRead p { s with cb := cb }
      else some { s with cb := cb }
  else some { s with cb := { s.cb with ipcRead := ipcLenMem i s.cb } }

/-! ## Heartbeats and acks -/

def sendHbeat (h : Host) (hname pgback : Option (List UInt8)) (flags : UInt16) (s : Process) :
    Option Process :=
  let (cb, p) := allocMsg s.cb
  (hbeatAckPart cb).bind fun r =>
    let cb := hbeatMarks (hbeatEmit h hname pgback flags p r.2 r.1)
    purge cb.hbSeqP3 { s with cb := cb }

/-- A heartbeat is due. -/
def hbeatBranch (h : Host) (s : Process) : Option Process :=
  if s.cb.hbAck
      && Bounded.readsFreed s.cb (UInt16.ofNat (mqueueSize s.cb.membersq).toNat).toNat then none
  else if (sendHbeatWrites h (some s.cb.hostname) none 0 s.cb).all
      fun w => w.stop ≤ nextSize s.cb then
    sendHbeat h (some s.cb.hostname) none 0 s
  else none

/-- If acks are used: clear buffers. -/
def ackBranch (s : Process) : Option Process :=
  if s.cb.hbAck then
    if Bounded.readsFreed s.cb (mqueueSize s.cb.membersq).toNat then none
    else
      match mqueuePeeks (mqueueSize s.cb.membersq).toNat 0 s.cb.membersq with
      | none => none
      | some (q, cs) =>
          match cs.mapM id with
          | none => none
          | some mps =>
              let sync := ackSync s.cb.mems mps s.cb.self.sequenceSync
              let cb := { s.cb with
                membersq := q, self := { s.cb.self with sequenceSync := sync } }
              purge sync { s with cb := cb }
  else some s

/-- The branches of the daemon's loop. -/
def branch (h : Host) (s : Process) : Branch → Option Process
  | .mcast sender r => mcastBranch h sender r s
  | .ipc i => ipcBranch h i s
  | .hbeat => hbeatBranch h s
  | .ack => ackBranch s

/-! ## Leaving -/

/-- The drain of `outmsgbuf` in `rmcast_leave`. -/
def drainOut : (keys : List UInt32) → Process → Option Process
  | [], s => some s
  | k :: keys, s => (removeOut k s).bind (drainOut keys)

/-- The keys that `htbl_enum_int_keys` lists of `outmsgbuf`. -/
def outKeys (s : Process) : Option (List UInt32) :=
  (Hashtable.htblEnumIntKeys s.outmsgbuf (Hashtable.htblCount s.outmsgbuf)).map
    (List.map Int32.toUInt32)

/-- `rmcast_leave`, where the enumeration of `members` writes `keys` into
the array for the keys of `outmsgbuf`. -/
def leave (keys : List UInt32) (s : Process) : Option Process :=
  if Hashtable.htblCount s.outmsgbuf < keys.length then none
  else
    s.outKeys.bind fun out =>
      (drainOut out s).map fun s => { s with cb := leaveWith [] keys s.cb }

/-- `rmcast_leave` with the arrays it allocates. The keys of `members` and
of the caches are given by bucket. -/
def rmcastLeaveIn (members : List (List UInt32)) (unseqMsgs : Nat → List (List UInt32))
    (s : Process) : Option (Process × List KeyArray) :=
  let nkeys := (Hashtable.htblCount s.outmsgbuf).toNat
  s.outKeys.bind fun out =>
    (drainOut out s).map fun s =>
      -- `cnt > nkeys` has the array allocated again, with `nkeys` slots
      let keys := enumInto nkeys members
      let (cb, arrays) := leaveMembers unseqMsgs keys.keys s.cb
      ({ s with cb := leaveWith [] [] cb }, ⟨nkeys, out⟩ :: keys :: arrays)

/-! ## The node -/

/-- What the node does. -/
inductive Op where
  | branch (b : Branch)
  | leave (keys : List UInt32)
  | exit

def step (h : Host) (s : Process) : Op → Option Process
  | .branch b => s.branch h b
  | .leave keys => s.leave keys
  | .exit => some { s with cb := daemonExit h s.cb }

/-- `rmcast_init`. The entries of the table lie in memory that holds
`garbage`. -/
def start (g : Garbage) (garbage : Nat → Hashtable.HtblEntry Nat) (a : InitArgs) : Process :=
  { cb := rmcastInit g a, outmsgbuf := Hashtable.htblInit garbage 50 20 }

end Process

end Rms.V01
