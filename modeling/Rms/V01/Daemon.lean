/-
Rms.V01.Daemon — `v0.1/rmcast.c`: the buffer pool, NACKs, heartbeats and
the loop of `rmcast_daemon`.

One pass through the daemon's loop is `iteration`. Its input says what
the outside world does in that pass: whether `mcast_sock` was readable
and what `recvfrom` returned, whether `ipc_sock` was readable and what
the two `recv` calls and the `sendto` returned, and whether a heartbeat
was due. `none` as a result means that the daemon followed a NULL
pointer (only a damaged `membersq` can lead there).

Memory is kind here. Message buffers are unbounded blocks: a write past
`msg->size` goes to the same block. `outmsgbuf` is the map that a table
without a pool stands for. `malloc` hands out no address twice, and a
member that was freed keeps its contents (`freed` has it). A node that is
not spared is in `Rms.V01.Bounded` and `Rms.V01.Process`. `bufmsgq` is a
list of free buffers; that the queue with a pool which the source uses
answers like one is in `Rms.V01.PoolTheorems`.

The `for` and `while` loops of the source are recursions over the number
of rounds they make; where the source loops until a table is exhausted,
that number is the size of the table.
-/
import Rms.V01.Rmcast

namespace Rms.V01

open Rms.ByteMem Rms.Util

/-- A word read as a signed `int`. -/
def toInt32 (w : UInt32) : Int :=
  if w.toNat < 2147483648 then w.toNat else w.toNat - 4294967296

/-! ## The buffer pool -/

def newMsg (cb : RmcCtrlBlock) : RmcCtrlBlock × Nat :=
  let p := cb.nmsgs
  let m := { cb.msgs p with size := cb.bufsize }
  ({ cb with nmsgs := cb.nmsgs + 1 }.setMsg p (m.setHdrVersion cb.version), p)

def allocMsg (cb : RmcCtrlBlock) : RmcCtrlBlock × Nat :=
  match cb.bufmsgq with
  | p :: rest => ({ cb with bufmsgq := rest }, p)
  | [] => newMsg cb

def releaseMsg (cb : RmcCtrlBlock) (p : Nat) : RmcCtrlBlock :=
  { cb with bufmsgq := p :: cb.bufmsgq }

/-! ## NACKs -/

/-- The loop of `send_nack` over `rounds` values of `itr`: the numbers
that are not cached. -/
def nackScan (unseqMsgs : Htbl Nat) : (rounds : Nat) → (itr : UInt32) → List UInt32
  | 0, _ => []
  | n + 1, itr =>
      match htblGet unseqMsgs itr with
      | none => itr :: nackScan unseqMsgs n (itr + 1)
      | some _ => nackScan unseqMsgs n (itr + 1)

/-- The numbers `send_nack` lists. The loop starts at `sequence + 1` and
stops when `itr` meets `sequence - 1`. -/
def nackList (mem : RmcMember) : List UInt32 :=
  let seq2 := mem.sequence - 1
  let itr := mem.sequence + 1
  nackScan mem.unseqMsgs (seq2 - itr).toNat itr

/-- The message `send_nack` writes for a list of numbers. The count word
counts itself. -/
def nackFill (h : Host) (mem : RmcMember) (m : RmcMsg) (listed : List UInt32) : RmcMsg :=
  let e := h.endian
  let m := m.setHdrType .nack
  let m := m.setHdrSequence e (htonl e mem.sequence)
  let m := m.setHdrId e (htonl e mem.id)
  let count := 1 + listed.length
  let m := m.setBuf (writeBytes m.buf (sizeofHdr + sizeofLong)
    (listed.flatMap fun k => enc32 e (htonl e k)))
  let m := m.setBuf (store32 e m.buf sizeofHdr (htonl e (UInt32.ofNat count)))
  m.setHdrLength e (htons e (UInt16.ofNat (count * sizeofLong)))

def sendNack (h : Host) (mp p : Nat) (cb : RmcCtrlBlock) : RmcCtrlBlock :=
  let mem := cb.mems mp
  let listed := nackList mem
  let lost := UInt32.ofNat listed.length
  let cb := cb.setMsg p (nackFill h mem (cb.msgs p) listed)
  let cb := cb.setMem mp { mem with lost := mem.lost + lost }
  let cb := { cb with
    self := { cb.self with lost := cb.self.lost + lost }
    ucastAddr := htonl h.endian mem.id }
  cb.sendto (.ucast cb.ucastAddr) p (sizeT (sizeofHdr + (1 + listed.length) * sizeofLong)) false

/-! ## Heartbeats -/

/-- One round of `while(oldest_seq < ...)`. -/
def purgeRound (cb : RmcCtrlBlock) : RmcCtrlBlock :=
  match htblRemove cb.outmsgbuf cb.oldestSeq with
  | some (p, t) =>
      let cb := releaseMsg { cb with outmsgbuf := t } p
      { cb with oldestSeq := cb.oldestSeq + 1 }
  | none => { cb with oldestSeq := cb.oldestSeq + 1 }

def purgeRounds : Nat → RmcCtrlBlock → RmcCtrlBlock
  | 0, cb => cb
  | n + 1, cb => purgeRounds n (purgeRound cb)

/-- `while(oldest_seq < bound)`: drop the oldest kept messages. -/
def purge (bound : UInt32) (cb : RmcCtrlBlock) : RmcCtrlBlock :=
  purgeRounds (bound.toNat - cb.oldestSeq.toNat) cb

/-- The ack list of a heartbeat: the id and sequence of each member of
`membersq`. The loop bound is the 16-bit field `acks`. -/
def hbeatAckList (cb : RmcCtrlBlock) : Option (RmcCtrlBlock × List (UInt32 × UInt32)) :=
  match mqueuePeeks (UInt16.ofNat (mqueueSize cb.membersq).toNat).toNat 0 cb.membersq with
  | none => none
  | some (q, cs) =>
      match cs.mapM id with
      | none => none
      | some mps => some ({ cb with membersq := q },
          mps.map fun mp => ((cb.mems mp).id, (cb.mems mp).sequence))

/-- The bytes of an ack list. -/
def ackBytes (e : Endian) (acks : List (UInt32 × UInt32)) : List UInt8 :=
  acks.flatMap fun a => enc32 e (htonl e a.1) ++ enc32 e (htonl e a.2)

/-- The message `send_hbeat` writes, and the value of `offset` at its end.
`acks` is `none` when `hb_ack` is off. The name does not count towards
`offset`. -/
def hbeatFill (h : Host) (self : RmcMember) (hname : Option (List UInt8))
    (acks : Option (List (UInt32 × UInt32))) (pgback : Option (List UInt8))
    (flags : UInt16) (m : RmcMsg) : RmcMsg × Nat :=
  let e := h.endian
  let m := m.setHdrType .hbeat
  let m := m.setHdrSequence e (htonl e self.sequence)
  let m := m.setHdrId e (htonl e self.id)
  let data := sizeofHdr + sizeofHbeat
  let m := m.setHbeatLost e (htonl e self.lost)
  let m := m.setHbeatFlags e (htons e flags)
  let m := m.setHbeatSession e (htonl e self.session)
  let (m, data) := match hname with
    | some name =>
        let m := m.setHbeatNamelen e (htons e (UInt16.ofNat (name.length + 1)))
        (m.setBuf (writeBytes m.buf data (name ++ [0])), data + name.length)
    | none => (m.setHbeatNamelen e 0, data)
  let (m, data, offset) := match acks with
    | some l =>
        let m := m.setBuf (writeBytes m.buf data (ackBytes e l))
        let offset := l.length * (2 * sizeofLong)
        (m.setHbeatAcks e (htons e (UInt16.ofNat l.length)), data + offset, offset)
    | none => (m.setHbeatAcks e 0, data, 0)
  let (m, offset) := match pgback with
    | some pg =>
        if (pg.length : Int) < m.size - data then
          (m.setBuf (writeBytes m.buf data pg), offset + pg.length)
        else (m, offset)
    | none => (m.setHbeatPgback e 0, offset)
  (m.setHdrLength e (htons e (UInt16.ofNat (sizeofHbeat + offset))), offset)

/-- The ack list, if acks are used. -/
def hbeatAckPart (cb : RmcCtrlBlock) :
    Option (RmcCtrlBlock × Option (List (UInt32 × UInt32))) :=
  if cb.hbAck then (hbeatAckList cb).map fun r => (r.1, some r.2) else some (cb, none)

/-- Fill in the message, multicast it and give the buffer back. -/
def hbeatEmit (h : Host) (hname pgback : Option (List UInt8)) (flags : UInt16) (p : Nat)
    (acks : Option (List (UInt32 × UInt32))) (cb : RmcCtrlBlock) : RmcCtrlBlock :=
  let f := hbeatFill h cb.self hname acks pgback flags (cb.msgs p)
  let cb := cb.setMsg p f.1
  let cb := cb.sendto .mcast p (sizeT (sizeofHdr + sizeofHbeat + f.2)) false
  releaseMsg cb p

/-- The marks of the last three heartbeats move on. -/
def hbeatMarks (cb : RmcCtrlBlock) : RmcCtrlBlock :=
  { cb with hbSeqP3 := cb.hbSeqP2, hbSeqP2 := cb.hbSeqP1, hbSeqP1 := cb.self.sequence }

def sendHbeat (h : Host) (hname pgback : Option (List UInt8)) (flags : UInt16)
    (cb : RmcCtrlBlock) : Option RmcCtrlBlock :=
  let (cb, p) := allocMsg cb
  (hbeatAckPart cb).map fun r =>
    let cb := hbeatMarks (hbeatEmit h hname pgback flags p r.2 r.1)
    purge cb.hbSeqP3 cb

/-! ## Handing messages to the client -/

/-- `while(ret < nfound) ret += send(ipc_sock, msg->data + ret, nfound - ret)`:
the bytes put on the stream from `ret` on. -/
def sendLoop (h : Host) (buf : Mem) (nfound : Nat) : (rounds : Nat) → (ret : Nat) → List UInt8
  | 0, _ => []
  | n + 1, ret =>
      if ret < nfound then
        let sent := min (h.grain ret + 1) (nfound - ret)
        readBytes buf (sizeofHdr + ret) sent ++ sendLoop h buf nfound n (ret + sent)
      else []

/-- Write one record on `ipc_sock`: `head`, then the message's data. -/
def deliver (h : Host) (head : List UInt8) (p : Nat) (cb : RmcCtrlBlock) : RmcCtrlBlock :=
  let m := cb.msgs p
  let nfound := (m.hdrLength h.endian).toNat
  { cb with ipcOut := cb.ipcOut ++
      [⟨head, sendLoop h m.buf nfound nfound 0, m.hdrSequence h.endian, m.hdrId h.endian⟩] }

/-- `struct ipc_metadata`: `nbytes`, then the sender's address. -/
def ipcMetadata (e : Endian) (nbytes : UInt32) (sender : SockaddrIn) : List UInt8 :=
  enc32 e nbytes ++ sender.bytes

/-- The loop that releases out-of-sequence data. -/
def releaseCached (h : Host) (mp : Nat) : (rounds : Nat) → RmcCtrlBlock → RmcCtrlBlock
  | 0, cb => cb
  | n + 1, cb =>
      let mem := cb.mems mp
      match htblRemove mem.unseqMsgs mem.sequence with
      | none => cb
      | some (p, t) =>
          let nfound := ((cb.msgs p).hdrLength h.endian).toUInt32
          let cb := deliver h (enc32 h.endian nfound) p cb
          releaseCached h mp n
            (cb.setMem mp { mem with unseqMsgs := t, sequence := mem.sequence + 1 })

/-! ## The cases of the datagram switch -/

/-- `htbl_put(mem->unseq_msgs, msg->hdr->sequence, msg)`. A refused put
leaves the buffer with no owner. -/
def cacheMsg (h : Host) (mp p : Nat) (cb : RmcCtrlBlock) : RmcCtrlBlock :=
  cb.setMem mp { cb.mems mp with
    unseqMsgs := htblPut (cb.mems mp).unseqMsgs ((cb.msgs p).hdrSequence h.endian) p }

/-- A DATA message ahead of the expected number: cache it, and send a NACK
from another buffer. -/
def dataAhead (h : Host) (mp p : Nat) (cb : RmcCtrlBlock) : RmcCtrlBlock :=
  let (cb, nack) := allocMsg (cacheMsg h mp p cb)
  releaseMsg (sendNack h mp nack cb) nack

/-- A DATA message in sequence: hand it to the client, then whatever the
cache holds under the numbers reached. -/
def dataInSequence (h : Host) (sender : SockaddrIn) (mp p : Nat) (cb : RmcCtrlBlock) :
    RmcCtrlBlock :=
  let mem := cb.mems mp
  let nbytes := ((cb.msgs p).hdrLength h.endian).toUInt32
  let cb := deliver h (ipcMetadata h.endian nbytes sender) p cb
  let cb := cb.setMem mp { mem with sequence := mem.sequence + 1 }
  releaseCached h mp (htblCount mem.unseqMsgs) cb

/-- `case RMCAST_MSG_DATA`. -/
def dataMsg (h : Host) (sender : SockaddrIn) (p : Nat) (cb : RmcCtrlBlock) : RmcCtrlBlock :=
  match htblGet cb.members ((cb.msgs p).hdrId h.endian) with
  | none => releaseMsg cb p
  | some mp =>
      if (cb.mems mp).sequence + 1 ≠ (cb.msgs p).hdrSequence h.endian then
        if (cb.mems mp).sequence < (cb.msgs p).hdrSequence h.endian then dataAhead h mp p cb
        else releaseMsg cb p
      else dataInSequence h sender mp p cb

/-- The scan of a heartbeat's ack list for our own id. -/
def ackScan (e : Endian) (buf : Mem) (data : Nat) (id : UInt32) :
    (rounds : Nat) → (itr : Nat) → Option UInt32
  | 0, _ => none
  | n + 1, itr =>
      if ntohl e (load32 e buf (data + itr * 2 * sizeofLong)) = id then
        some (ntohl e (load32 e buf (data + (itr * 2 + 1) * sizeofLong)))
      else ackScan e buf data id n (itr + 1)

/-- The string literal `"noname"`. -/
def noname : List UInt8 := [110, 111, 110, 97, 109, 101]

/-- The member that the heartbeat of an unknown peer makes. The name is
looked for at the start of the message's data. -/
def hbeatNewMember (e : Endian) (msg : RmcMsg) : RmcMember :=
  let name := if msg.hbeatNamelen e ≠ 0 then cString msg.buf sizeofHdr msg.size else noname
  { rmcastMemberInit name (msg.hdrId e) (msg.hbeatSession e) with
    sequence := msg.hdrSequence e - 1 }

/-- Put a new member into the table and the queue. -/
def registerMember (mem : RmcMember) (cb : RmcCtrlBlock) : RmcCtrlBlock × Nat :=
  ({ cb with
      nmems := cb.nmems + 1
      mems := Function.update cb.mems cb.nmems mem
      members := htblPut cb.members mem.id cb.nmems
      membersq := mqueueAdd cb.membersq cb.nmems }, cb.nmems)

/-- A new session resets the sequence, and nothing else. -/
def hbeatNewSession (e : Endian) (msg : RmcMsg) (mem : RmcMember) : RmcMember :=
  { mem with session := msg.hbeatSession e, sequence := msg.hdrSequence e - 1 }

/-- The member a heartbeat is from: registered, restarted or as it was. -/
def hbeatMember (h : Host) (p : Nat) (cb : RmcCtrlBlock) : RmcCtrlBlock × Nat :=
  match htblGet cb.members ((cb.msgs p).hdrId h.endian) with
  | none => registerMember (hbeatNewMember h.endian (cb.msgs p)) cb
  | some mp =>
      if (cb.msgs p).hbeatSession h.endian ≠ (cb.mems mp).session then
        (cb.setMem mp (hbeatNewSession h.endian (cb.msgs p) (cb.mems mp)), mp)
      else (cb, mp)

/-- The fields of the heartbeat structure converted in place, before the
member is looked up. -/
def hbeatDecode (e : Endian) (m : RmcMsg) : RmcMsg :=
  let m := m.setHbeatNamelen e (ntohs e (m.hbeatNamelen e))
  let m := m.setHbeatFlags e (ntohs e (m.hbeatFlags e))
  m.setHbeatSession e (ntohl e (m.hbeatSession e))

/-- What the rest of a heartbeat does to its member: the lost counter
and the acknowledgement of our own messages. -/
def hbeatUpdate (e : Endian) (msg : RmcMsg) (selfId : UInt32) (mem : RmcMember) : RmcMember :=
  let mem := { mem with lost := (ntohs e (msg.hbeatLost e).toUInt16).toUInt32 }
  let data := sizeofHdr + sizeofHbeat + (msg.hbeatNamelen e).toNat
  if msg.hbeatAcks e ≠ 0 then
    match ackScan e msg.buf data selfId (ntohs e (msg.hbeatAcks e)).toNat 0 with
    | some s => { mem with sequenceSync := s }
    | none => mem
  else mem

/-- The fields converted in place after the member was looked up. -/
def hbeatDecodeTail (e : Endian) (m : RmcMsg) : RmcMsg :=
  let m := if m.hbeatAcks e ≠ 0 then m.setHbeatAcks e (ntohs e (m.hbeatAcks e)) else m
  if m.hbeatPgback e ≠ 0 then m.setHbeatPgback e (ntohs e (m.hbeatPgback e)) else m

/-- The gap check at the end of a heartbeat. -/
def hbeatGap (h : Host) (mp p : Nat) (cb : RmcCtrlBlock) : RmcCtrlBlock :=
  if (cb.mems mp).sequence + 1 ≠ (cb.msgs p).hdrSequence h.endian then
    if (cb.mems mp).sequence < (cb.msgs p).hdrSequence h.endian then sendNack h mp p cb else cb
  else cb

/-- `case RMCAST_MSG_HBEAT`. -/
def hbeatMsg (h : Host) (p : Nat) (cb : RmcCtrlBlock) : RmcCtrlBlock :=
  let cb := cb.setMsg p (hbeatDecode h.endian (cb.msgs p))
  let (cb, mp) := hbeatMember h p cb
  let cb := cb.setMem mp (hbeatUpdate h.endian (cb.msgs p) cb.self.id (cb.mems mp))
  let cb := cb.setMsg p (hbeatDecodeTail h.endian (cb.msgs p))
  releaseMsg (hbeatGap h mp p cb) p

/-- The loop of `case RMCAST_MSG_NACK` from `itr` on. -/
def nackLoop (h : Host) (p : Nat) : (rounds : Nat) → (itr : Nat) → RmcCtrlBlock → RmcCtrlBlock
  | 0, _, cb => cb
  | n + 1, itr, cb =>
      let e := h.endian
      let m := cb.msgs p
      let k := ntohl e (load32 e m.buf (sizeofHdr + itr * sizeofLong))
      let cb := cb.setMsg p (m.setBuf (store32 e m.buf (sizeofHdr + itr * sizeofLong) k))
      let cb := match htblGet cb.outmsgbuf k with
        | some q =>
            cb.sendto (.ucast cb.ucastAddr) q (sizeT ((cb.msgs q).length + sizeofHdr)) false
        | none => cb
      nackLoop h p n (itr + 1) cb

/-- `case RMCAST_MSG_NACK`. The count word is used as it lies in memory. -/
def nackMsg (h : Host) (p : Nat) (cb : RmcCtrlBlock) : RmcCtrlBlock :=
  let e := h.endian
  let msg := cb.msgs p
  let count := toInt32 (load32 e msg.buf sizeofHdr)
  nackLoop h p count.toNat 1 { cb with ucastAddr := htonl e (msg.hdrId e) }

/-- The drain of `case RMCAST_MSG_LEAVE`: every listed key removed and its
buffer released. -/
def drainUnseq (mp : Nat) : (keys : List UInt32) → RmcCtrlBlock → RmcCtrlBlock
  | [], cb => cb
  | k :: keys, cb =>
      let mem := cb.mems mp
      match htblRemove mem.unseqMsgs k with
      | some (p, t) =>
          drainUnseq mp keys (releaseMsg (cb.setMem mp { mem with unseqMsgs := t }) p)
      | none => drainUnseq mp keys cb

/-- `case RMCAST_MSG_LEAVE`. -/
def leaveMsg (h : Host) (p : Nat) (cb : RmcCtrlBlock) : Option RmcCtrlBlock :=
  match htblRemove cb.members ((cb.msgs p).hdrId h.endian) with
  | none => some cb
  | some (mp, t) =>
      let cb := { cb with members := t }
      let unseqMsgs := (cb.mems mp).unseqMsgs
      let cb := drainUnseq mp (htblEnumIntKeys unseqMsgs (htblCount unseqMsgs)) cb
      match mqueueRemoveItem cb.membersq mp with
      | none => none
      | some (q, _) => some { cb with membersq := q, freed := mp :: cb.freed }

/-! ## The daemon's loop -/

/-- The header fields converted in place. -/
def hdrDecode (e : Endian) (m : RmcMsg) : RmcMsg :=
  let m := m.setHdrLength e (ntohs e (m.hdrLength e))
  let m := m.setHdrSequence e (ntohl e (m.hdrSequence e))
  m.setHdrId e (ntohl e (m.hdrId e))

/-- The switch on the message type. -/
def dispatch (h : Host) (sender : SockaddrIn) (p : Nat) (cb : RmcCtrlBlock) :
    Option RmcCtrlBlock :=
  match MsgType.ofByte (cb.msgs p).hdrType with
  | some .data => some (dataMsg h sender p cb)
  | some .hbeat => some (hbeatMsg h p cb)
  | some .nack => some (nackMsg h p cb)
  | some .leave => leaveMsg h p cb
  | _ => some (releaseMsg cb p)

/-- `recvfrom` into a fresh buffer: the buffer, and the result as the
length checks see it. -/
def recvMsg (r : RecvResult) (cb : RmcCtrlBlock) : RmcCtrlBlock × Nat × Nat :=
  let (cb, p) := allocMsg cb
  let r := r.limit (cb.msgs p).size
  (cb.setMsg p ((cb.msgs p).setBuf (r.into (cb.msgs p).buf 0)), p, sizeT r.ret)

/-- `mcast_sock` is readable. The flag says that the loop is continued
from its top. -/
def mcastBranch (h : Host) (sender : SockaddrIn) (r : RecvResult) (cb : RmcCtrlBlock) :
    Option (RmcCtrlBlock × Bool) :=
  let (cb, p, ret) := recvMsg r cb
  if ret < sizeofHdr then some (releaseMsg cb p, true)
  else
    let cb := cb.setMsg p (hdrDecode h.endian (cb.msgs p))
    if ret < ((cb.msgs p).hdrLength h.endian).toNat + sizeofHdr then some (cb, true)
    else (dispatch h sender p cb).map fun cb => (cb, false)

/-- What the sockets do in the IPC branch. -/
structure IpcInput where
  len : RecvResult
  body : RecvResult
  sendto : Int

/-- The bytes of `ipc_read` after the first `recv`. -/
def ipcLenMem (i : IpcInput) (cb : RmcCtrlBlock) : Mem :=
  (i.len.limit sizeofLong).into cb.ipcRead 0

/-- The value of `ipc_read` after the first `recv`. -/
def ipcLen (h : Host) (i : IpcInput) (cb : RmcCtrlBlock) : Int :=
  toInt32 (load32 h.endian (ipcLenMem i cb) 0)

/-- A message too long for the current buffer size makes its buffer, and
all later ones, larger: `(int)(ipc_read * 1.5)`. -/
def growMsg (ipcRead : Int) (p : Nat) (cb : RmcCtrlBlock) : RmcCtrlBlock :=
  if (cb.bufsize : Int) < ipcRead then
    let size := ipcRead.toNat * 3 / 2
    { cb with bufsize := size }.setMsg p { cb.msgs p with size := size }
  else cb

/-- The datagram written around a payload of `ipc_read` bytes. -/
def dataFill (h : Host) (self : RmcMember) (ipcRead : Int) (m : RmcMsg) : RmcMsg :=
  let e := h.endian
  let m := { m with length := ipcRead }
  let m := m.setHdrType .data
  let m := m.setHdrLength e (htons e (UInt16.ofNat (sizeT m.length)))
  let m := m.setHdrSequence e (htonl e self.sequence)
  m.setHdrId e (htonl e self.id)

/-- A buffer for the message, and the second `recv` into it. -/
def ipcRecv (h : Host) (i : IpcInput) (cb : RmcCtrlBlock) : RmcCtrlBlock × Nat :=
  let ipcRead := ipcLen h i cb
  let (cb, p) := allocMsg { cb with ipcRead := ipcLenMem i cb }
  let cb := growMsg ipcRead p cb
  let r := i.body.limit (sizeT ipcRead)
  (cb.setMsg p ((cb.msgs p).setBuf (r.into (cb.msgs p).buf sizeofHdr)), p)

/-- Multicast a message of `ipc_read` bytes; keep it if that succeeds. -/
def ipcSend (h : Host) (sendto ipcRead : Int) (p : Nat) (cb : RmcCtrlBlock) : RmcCtrlBlock :=
  let cb := cb.setMsg p (dataFill h cb.self ipcRead (cb.msgs p))
  let cb := cb.sendto .mcast p (sizeT (ipcRead + sizeofHdr)) (decide (sendto ≤ 0))
  if 0 < sendto then
    { cb with outmsgbuf := htblPut cb.outmsgbuf cb.self.sequence p
              self := { cb.self with sequence := cb.self.sequence + 1 } }
  else cb

/-- `ipc_sock` is readable. -/
def ipcBranch (h : Host) (i : IpcInput) (cb : RmcCtrlBlock) : RmcCtrlBlock :=
  if 0 < (i.len.limit sizeofLong).ret then
    let ipcRead := ipcLen h i cb
    let (cb, p) := ipcRecv h i cb
    if (i.body.limit (sizeT ipcRead)).ret = ipcRead then ipcSend h i.sendto ipcRead p cb
    else cb
  else { cb with ipcRead := ipcLenMem i cb }

/-- A heartbeat is due. -/
def hbeatBranch (h : Host) (cb : RmcCtrlBlock) : Option RmcCtrlBlock :=
  sendHbeat h (some cb.hostname) none 0 cb

/-- The loop over `membersq` in the ack branch. The comparison guards an
empty statement, so every round assigns. -/
def ackSync (mems : Nat → RmcMember) : List Nat → UInt32 → UInt32
  | [], sync => sync
  | mp :: mps, _ => ackSync mems mps (mems mp).sequenceSync

/-- If acks are used: clear buffers. -/
def ackBranch (cb : RmcCtrlBlock) : Option RmcCtrlBlock :=
  if cb.hbAck then
    match mqueuePeeks (mqueueSize cb.membersq).toNat 0 cb.membersq with
    | none => none
    | some (q, cs) =>
        match cs.mapM id with
        | none => none
        | some mps =>
            let sync := ackSync cb.mems mps cb.self.sequenceSync
            let cb := { cb with membersq := q, self := { cb.self with sequenceSync := sync } }
            some (purge sync cb)
  else some cb

/-- What the outside world does in one pass through the loop. -/
structure Iteration where
  mcast : Option (SockaddrIn × RecvResult)
  ipc : Option IpcInput
  hbeat : Bool

/-- The part of the loop below the datagram switch. -/
def afterMcast (h : Host) (i : Iteration) (cb : RmcCtrlBlock) : Option RmcCtrlBlock :=
  let cb := match i.ipc with
    | some x => ipcBranch h x cb
    | none => cb
  match (if i.hbeat then hbeatBranch h cb else some cb) with
  | none => none
  | some cb => ackBranch cb

/-- One pass through the loop of `rmcast_daemon`. -/
def iteration (h : Host) (cb : RmcCtrlBlock) (i : Iteration) : Option RmcCtrlBlock :=
  match i.mcast with
  | none => afterMcast h i cb
  | some (sender, r) =>
      match mcastBranch h sender r cb with
      | none => none
      | some (cb, true) => some cb
      | some (cb, false) => afterMcast h i cb

/-! ## Initialisation -/

/-- What memory holds before the program writes to it. -/
structure Garbage where
  msgs : Nat → RmcMsg
  mems : Nat → RmcMember
  items : Nat → MqueueItem Nat
  ipcRead : Mem

/-- What `rmcast_init` is called with and what it learns from the system. -/
structure InitArgs where
  maxMsgSize : Int
  nbufs : Int
  hbAck : Bool
  hostname : List UInt8
  id : UInt32
  session : UInt32

/-- `for(ret=0; ret < nbufs; ret++) release_msg(new_msg())`. -/
def fillPool : Nat → RmcCtrlBlock → RmcCtrlBlock
  | 0, cb => cb
  | n + 1, cb =>
      let (cb, p) := newMsg cb
      fillPool n (releaseMsg cb p)

/-- `rmcast_init`, on a control block in static storage. -/
def rmcastInit (g : Garbage) (a : InitArgs) : RmcCtrlBlock :=
  let cb : RmcCtrlBlock :=
    { version := 0, hostname := a.hostname
      self := rmcastMemberInit a.hostname a.id a.session
      bufmsgq := [], members := ∅, membersq := mqueueInit g.items 0, outmsgbuf := ∅
      oldestSeq := 0, hbSeqP1 := 0, hbSeqP2 := 0, hbSeqP3 := 0
      hbAck := a.hbAck, bufsize := (max 128 a.maxMsgSize).toNat + sizeofHdr
      ucastAddr := 0, ipcRead := g.ipcRead
      msgs := g.msgs, nmsgs := 0, mems := g.mems, nmems := 0, freed := []
      sent := [], ipcOut := [] }
  fillPool (max 20 a.nbufs).toNat cb

end Rms.V01
