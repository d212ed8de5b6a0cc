/-
Rms.ManagerLoop — `rms_manager.c`: the loop of the manager thread, with its
message buffers.

`Rms.Manager` takes messages as values. Here they are heap objects:
`alloc_meta_msg` takes one from `sq_meta_msg_pool` or creates it,
`release_meta_msg` puts it back, and `outmsgbuf` and the peers'
`ht_unseq_msgs` store pointers. `msgs` has the DATA message that a buffer
holds; the other contents of a buffer are never read from a table. What
does not look into a buffer is taken from `Rms.Manager`, with a cache of
pointers (`Rmscb.lift`).

The function has one local variable `msg` for all its branches. It has no
value before the first assignment, it survives from one pass of the loop
to the next, and `htbl_get` and `htbl_remove` rebind it when they find
their key.

A branch has no result if it releases `msg` before any assignment, follows
NULL in `mq_peers`, reads a peer there that was freed, or reads behind the
end of a NACK's buffer.
-/
import Rms.Manager

namespace Rms.Manager.Loop

open Rms.Util

/-- The control block and the variable `msg` of the loop. `selfSent` and
`selfSync` are `self->sequence_sent` and `self->sequence_sync`; `freed` are
the peers that were freed, and `mcastOut` lists the DATA messages sent on
`mcast_sock`. -/
structure Rmscb extends Manager.Rmscb Nat where
  selfSent : UInt32
  selfSync : UInt32
  hbAck : Bool
  freed : List Nat
  sqMetaMsgPool : List Nat
  msgs : Nat → RmsMetaMsg
  nmsgs : Nat
  outmsgbuf : Htbl Nat
  oldestSeq : UInt32
  hbSeqP1 : UInt32
  hbSeqP2 : UInt32
  hbSeqP3 : UInt32
  msg : Option Nat
  mcastOut : List RmsMetaMsg

/-- A function of the switch, on its part of the control block. -/
def Rmscb.lift (f : Manager.Rmscb Nat → Manager.Rmscb Nat) (cb : Rmscb) : Rmscb :=
  { cb with toRmscb := f cb.toRmscb }

def Rmscb.setPeer (cb : Rmscb) (pp : Nat) (peer : RmsMetaPeer Nat) : Rmscb :=
  cb.lift fun s => s.setPeer pp peer

def Rmscb.forward (cb : Rmscb) (msg : RmsMetaMsg) : Rmscb := cb.lift fun s => s.forward msg

/-! ## The pool -/

/-- `alloc_meta_msg`, assigned to `msg`. -/
def allocMetaMsg (cb : Rmscb) : Rmscb × Nat :=
  match cb.sqMetaMsgPool with
  | p :: pool => ({ cb with sqMetaMsgPool := pool, msg := some p }, p)
  | [] => ({ cb with nmsgs := cb.nmsgs + 1, msg := some cb.nmsgs }, cb.nmsgs)

def releaseMetaMsg (cb : Rmscb) (p : Nat) : Rmscb :=
  { cb with sqMetaMsgPool := p :: cb.sqMetaMsgPool }

/-! ## Datagrams -/

def sendNack (pp : Nat) (cb : Rmscb) : Rmscb := cb.lift (Manager.sendNack pp)

/-- The loop that releases out-of-sequence data. Every buffer that it takes
out of the cache is rebound to `msg` and goes nowhere. -/
def releaseUnseq (pp : Nat) : (rounds : Nat) → Rmscb → Rmscb
  | 0, cb => cb
  | n + 1, cb =>
      let peer := cb.peers pp
      match htblRemove peer.htUnseqMsgs peer.sequenceSent with
      | none => cb
      | some (p, t) =>
          releaseUnseq pp n (({ cb with msg := some p }.forward (cb.msgs p)).setPeer pp
            { peer with htUnseqMsgs := t, sequenceRcvd := peer.sequenceRcvd + 1 })

/-- `case RMS_DATA`, for the message in the buffer `p`. -/
def dataMsg (cb : Rmscb) (p : Nat) : Rmscb :=
  let hdr := cb.msgs p
  match htblGet cb.htPeers hdr.id with
  | none => releaseMetaMsg cb p
  | some pp =>
      let peer := { cb.peers pp with sequenceSent := hdr.sequence }
      if peer.sequenceRcvd + 1 ≠ hdr.sequence then
        if peer.sequenceRcvd < hdr.sequence then
          let cb := cb.setPeer pp
            { peer with htUnseqMsgs := htblPut peer.htUnseqMsgs hdr.sequence p }
          let (cb, q) := allocMetaMsg cb
          releaseMetaMsg (sendNack pp cb) q
        else releaseMetaMsg (cb.setPeer pp peer) p
      else
        releaseUnseq pp (htblCount peer.htUnseqMsgs) ((cb.forward hdr).setPeer pp
          { peer with sequenceRcvd := peer.sequenceRcvd + 1 })

def hbeatPeer (cb : Rmscb) (hbeat : RmsMsgHbeat) : Rmscb × Nat :=
  (cb.lift fun s => (Manager.hbeatPeer s hbeat).1, (Manager.hbeatPeer cb.toRmscb hbeat).2)

/-- `case RMS_HEARTBEAT`. The NACK is built in the heartbeat's own buffer. -/
def heartbeatMsg (cb : Rmscb) (p : Nat) (hbeat : RmsMsgHbeat) : Rmscb :=
  let (cb, pp) := hbeatPeer cb hbeat
  let peer := { cb.peers pp with lost := hbeat.lost }
  let peer := { peer with sequenceSync := (ackFor cb.selfId hbeat.acks).getD peer.sequenceSync }
  let cb := cb.setPeer pp peer
  if peer.sequenceSent + 1 ≠ hbeat.sequence then
    if peer.sequenceSent < hbeat.sequence then releaseMetaMsg (sendNack pp cb) p
    else releaseMetaMsg cb p
  else releaseMetaMsg cb p

/-- One round of `case RMS_NACK`: a stored message is sent again, and stays
bound to `msg`. -/
def resend (cb : Rmscb) (seq : UInt32) : Rmscb :=
  match htblGet cb.outmsgbuf seq with
  | none => cb
  | some q => { cb with msg := some q, mcastOut := cb.mcastOut ++ [cb.msgs q] }

/-- `case RMS_NACK`: the first word is taken as it is for the count, an
`int`, and as many of the words behind it are read. The buffer of the
datagram goes nowhere. -/
def nackMsg (cb : Rmscb) (count : UInt32) (seqs : List UInt32) : Option Rmscb :=
  let rounds := count.toInt32.toInt.toNat
  if rounds ≤ seqs.length then some ((seqs.take rounds).foldl resend cb) else none

/-- One round of the loop that empties the cache of a leaving peer. -/
def drain (pp : Nat) (cb : Rmscb) (key : UInt32) : Rmscb :=
  let peer := cb.peers pp
  match htblRemove peer.htUnseqMsgs key with
  | none => cb
  | some (q, t) =>
      releaseMetaMsg ({ cb with msg := some q }.setPeer pp { peer with htUnseqMsgs := t }) q

/-- `case RMS_LEAVE`. The buffer of the datagram goes nowhere. -/
def leaveMsg (cb : Rmscb) (id : UInt32) : Option Rmscb :=
  match htblRemove cb.htPeers id with
  | none => some cb
  | some (pp, t) =>
      let unseq := (cb.peers pp).htUnseqMsgs
      let cb := (htblEnumIntKeys unseq (htblCount unseq)).foldl (drain pp)
        { cb with htPeers := t }
      (mqueueRemoveItem cb.mqPeers pp).map fun r =>
        { cb with mqPeers := r.1, freed := pp :: cb.freed }

/-- What the switch finds in the buffer. -/
inductive Packet
  | data (msg : RmsMetaMsg)
  | heartbeat (hbeat : RmsMsgHbeat)
  /-- The first word of the data, and the words behind it up to the end of
  the buffer, those converted by `ntohl`. -/
  | nack (count : UInt32) (seqs : List UInt32)
  | leave (id : UInt32)
  /-- `RMS_ACK`, `RMS_JOIN`, `RMS_CERT` and the values without a name. -/
  | other

def dispatch (cb : Rmscb) (p : Nat) : Packet → Option Rmscb
  | .data msg => some (dataMsg { cb with msgs := Function.update cb.msgs p msg } p)
  | .heartbeat hbeat => some (heartbeatMsg cb p hbeat)
  | .nack count seqs => nackMsg cb count seqs
  | .leave id => leaveMsg cb id
  | .other => some (releaseMetaMsg cb p)

/-- The multicast socket is readable. `none` is a datagram that is too short
for its header or its length. -/
def mcastBranch (cb : Rmscb) (packet : Option Packet) : Option Rmscb :=
  let (cb, p) := allocMetaMsg cb
  match packet with
  | none => some cb
  | some packet => dispatch cb p packet

/-! ## The other branches -/

/-- The results of the calls of the IPC branch: of the `recv` of the length,
of the `recv` of the message (the bytes, if all of them came) and of the
`sendto`. -/
structure IpcInput where
  length : Int
  body : Option (List UInt8)
  sendto : Int

/-- Send a client's message and keep it. -/
def ipcSend (cb : Rmscb) (p : Nat) (data : List UInt8) : Rmscb :=
  let msg : RmsMetaMsg := ⟨cb.selfSent, cb.selfId, data⟩
  { cb with
      msgs := Function.update cb.msgs p msg
      mcastOut := cb.mcastOut ++ [msg]
      outmsgbuf := htblPut cb.outmsgbuf cb.selfSent p
      selfSent := cb.selfSent + 1 }

/-- The IPC socket is readable. The error exit releases `msg`, also when the
first `recv` failed and the branch has assigned nothing to it. -/
def ipcBranch (cb : Rmscb) (i : IpcInput) : Option Rmscb :=
  if 0 < i.length then
    let (cb, p) := allocMetaMsg cb
    match i.body with
    | none => some (releaseMetaMsg cb p)
    | some data => if 0 < i.sendto then some (ipcSend cb p data) else some (releaseMetaMsg cb p)
  else cb.msg.map (releaseMetaMsg cb)

/-- The loops that empty `outmsgbuf` up to a number. -/
def purge : (rounds : Nat) → Rmscb → Rmscb
  | 0, cb => cb
  | n + 1, cb =>
      match htblRemove cb.outmsgbuf cb.oldestSeq with
      | none => purge n { cb with oldestSeq := cb.oldestSeq + 1 }
      | some (q, t) =>
          purge n { releaseMetaMsg { cb with outmsgbuf := t, msg := some q } q with
            oldestSeq := cb.oldestSeq + 1 }

/-- The peers that a loop over the first `n` items of `mq_peers` reads. -/
def peekPeers (n : Nat) (cb : Rmscb) : Option (Rmscb × List Nat) :=
  (mqueuePeeks n 0 cb.mqPeers).bind fun r =>
    (r.2.mapM id).bind fun pps =>
      if pps.any fun pp => cb.freed.contains pp then none
      else some ({ cb with mqPeers := r.1 }, pps)

/-- How many acks a heartbeat has. The field for it has sixteen bits. -/
def ackCount (cb : Rmscb) : Nat :=
  if cb.hbAck then (UInt16.ofNat (mqueueSize cb.mqPeers).toNat).toNat else 0

/-- `send_hbeat`, as far as the buffers go. It has a variable `msg` of its
own. -/
def sendHbeat (cb : Rmscb) : Option Rmscb :=
  let (cb', p) := allocMetaMsg cb
  (peekPeers (ackCount cb') cb').map fun r =>
    let cb' := { releaseMetaMsg r.1 p with
      hbSeqP3 := cb.hbSeqP2, hbSeqP2 := cb.hbSeqP1, hbSeqP1 := cb.selfSent }
    { purge (cb'.hbSeqP3.toNat - cb'.oldestSeq.toNat) cb' with msg := cb.msg }

/-- What is done on every pass if acks are used. The `if` that should find
the least `sequence_sync` has an empty body, so the last peer's is taken. -/
def ackBranch (cb : Rmscb) : Option Rmscb :=
  if cb.hbAck then
    (peekPeers (mqueueSize cb.mqPeers).toNat cb).map fun r =>
      let cb := { r.1 with
        selfSync := r.2.foldl (fun _ pp => (cb.peers pp).sequenceSync) cb.selfSync }
      purge (cb.selfSync.toNat - cb.oldestSeq.toNat) cb
  else some cb

/-- The end of the thread: a LEAVE is sent. -/
def sendLeave (cb : Rmscb) : Rmscb :=
  let (cb, p) := allocMetaMsg cb
  releaseMetaMsg cb p

/-! ## The loop -/

/-- What the thread does, one thing at a time. -/
inductive Branch
  | mcast (packet : Option Packet)
  | ipc (i : IpcInput)
  | hbeat
  | ack
  | leave

def branch (cb : Rmscb) : Branch → Option Rmscb
  | .mcast packet => mcastBranch cb packet
  | .ipc i => ipcBranch cb i
  | .hbeat => sendHbeat cb
  | .ack => ackBranch cb
  | .leave => some (sendLeave cb)

/-- A pass: the datagram that is read if `mcast_sock` is readable, the calls
on `ipc_sock` if it is, and whether it is time for a heartbeat. -/
structure Pass where
  mcast : Option (Option Packet)
  ipc : Option IpcInput
  hbeat : Bool

/-- The branches of a pass. After a short datagram `continue` skips the rest. -/
def Pass.branches (i : Pass) : List Branch :=
  match i.mcast with
  | some none => [.mcast none]
  | mcast => (mcast.map Branch.mcast).toList ++ (i.ipc.map Branch.ipc).toList
      ++ (if i.hbeat then [.hbeat] else []) ++ [.ack]

/-- `rms_manager`: the passes, one after the other, and the LEAVE. -/
def rmsManager (passes : List Pass) : List Branch :=
  passes.flatMap Pass.branches ++ [.leave]

/-- The start of the thread, with `n` buffers in the pool. The call that
makes `mq_peers` leaves out how many items its own pool has. -/
def start (selfId selfSent : UInt32) (hbAck : Bool) (n : Nat) (peers : Nat → RmsMetaPeer Nat)
    (msgs : Nat → RmsMetaMsg) (items : Nat → MqueueItem Nat) (nitems : Int) : Rmscb :=
  { selfId := selfId, selfLost := 0, selfSent := selfSent, selfSync := 0, hbAck := hbAck
    htPeers := ∅, mqPeers := mqueueInit items nitems, peers := peers, npeers := 0, freed := []
    sqMetaMsgPool := List.range n, msgs := msgs, nmsgs := n, outmsgbuf := ∅
    oldestSeq := 0, hbSeqP1 := 0, hbSeqP2 := 0, hbSeqP3 := 0
    msg := none, ipcOut := [], mcastOut := [], nacks := [] }

end Rms.Manager.Loop
