/-
Rms.V01.Parse — the datagram switch with the bytes it reads.

The cases of the switch again, as computations that keep the offsets they
read in the buffer of the datagram. Every function here is one of `Daemon`
under its own name; forgetting the offsets gives that function back, up to
the whole switch (`Footprint.val_dispatch`), so the offsets are those of
the modelled code.

Only reads of the datagram's own buffer are kept. Messages that are
retransmitted or released from the cache lie in other buffers, and the
NACK that answers a heartbeat overwrites the datagram before it is sent.
-/
import Rms.Lib.Reads
import Rms.V01.Daemon

namespace Rms.V01

open Rms.ByteMem Rms.Util

namespace Footprint

/-! ## Fields -/

section Fields

variable (e : Endian) (m : RmcMsg)

def hdrType : Reads UInt8 := Reads.load8 m.buf 1
def hdrLength : Reads UInt16 := Reads.load16 e m.buf 2
def hdrSequence : Reads UInt32 := Reads.load32 e m.buf 4
def hdrId : Reads UInt32 := Reads.load32 e m.buf 8

def hbeatLost : Reads UInt32 := Reads.load32 e m.buf 12
def hbeatNamelen : Reads UInt16 := Reads.load16 e m.buf 16
def hbeatFlags : Reads UInt16 := Reads.load16 e m.buf 18
def hbeatSession : Reads UInt32 := Reads.load32 e m.buf 20
def hbeatAcks : Reads UInt16 := Reads.load16 e m.buf 24
def hbeatPgback : Reads UInt16 := Reads.load16 e m.buf 26

end Fields

/-! ## DATA -/

def sendLoop (h : Host) (buf : Mem) (nfound : Nat) :
    (rounds : Nat) → (ret : Nat) → Reads (List UInt8)
  | 0, _ => pure []
  | n + 1, ret =>
      if ret < nfound then do
        let sent := min (h.grain ret + 1) (nfound - ret)
        let part ← Reads.bytes buf (sizeofHdr + ret) sent
        let rest ← sendLoop h buf nfound n (ret + sent)
        pure (part ++ rest)
      else pure []

/-- The number and the id in the record are for the reader of the model;
the code does not look at them here. -/
def deliver (h : Host) (head : List UInt8) (p : Nat) (cb : RmcCtrlBlock) :
    Reads RmcCtrlBlock := do
  let m := cb.msgs p
  let length ← hdrLength h.endian m
  let nfound := length.toNat
  let data ← sendLoop h m.buf nfound nfound 0
  pure { cb with ipcOut := cb.ipcOut ++
    [⟨head, data, m.hdrSequence h.endian, m.hdrId h.endian⟩] }

def dataInSequence (h : Host) (sender : SockaddrIn) (mp p : Nat) (cb : RmcCtrlBlock) :
    Reads RmcCtrlBlock := do
  let mem := cb.mems mp
  let length ← hdrLength h.endian (cb.msgs p)
  let cb ← deliver h (ipcMetadata h.endian length.toUInt32 sender) p cb
  let cb := cb.setMem mp { mem with sequence := mem.sequence + 1 }
  pure (releaseCached h mp (htblCount mem.unseqMsgs) cb)

def cacheMsg (h : Host) (mp p : Nat) (cb : RmcCtrlBlock) : Reads RmcCtrlBlock := do
  let sequence ← hdrSequence h.endian (cb.msgs p)
  pure (cb.setMem mp { cb.mems mp with unseqMsgs := htblPut (cb.mems mp).unseqMsgs sequence p })

def dataAhead (h : Host) (mp p : Nat) (cb : RmcCtrlBlock) : Reads RmcCtrlBlock := do
  let cb ← cacheMsg h mp p cb
  let (cb, nack) := allocMsg cb
  pure (releaseMsg (sendNack h mp nack cb) nack)

def dataMsg (h : Host) (sender : SockaddrIn) (p : Nat) (cb : RmcCtrlBlock) :
    Reads RmcCtrlBlock := do
  let id ← hdrId h.endian (cb.msgs p)
  match htblGet cb.members id with
  | none => pure (releaseMsg cb p)
  | some mp => do
      let sequence ← hdrSequence h.endian (cb.msgs p)
      if (cb.mems mp).sequence + 1 ≠ sequence then
        if (cb.mems mp).sequence < sequence then dataAhead h mp p cb
        else pure (releaseMsg cb p)
      else dataInSequence h sender mp p cb

/-! ## HBEAT -/

def ackScan (e : Endian) (buf : Mem) (data : Nat) (id : UInt32) :
    (rounds : Nat) → (itr : Nat) → Reads (Option UInt32)
  | 0, _ => pure none
  | n + 1, itr => do
      let acked ← Reads.load32 e buf (data + itr * 2 * sizeofLong)
      if ntohl e acked = id then do
        let sequence ← Reads.load32 e buf (data + (itr * 2 + 1) * sizeofLong)
        pure (some (ntohl e sequence))
      else ackScan e buf data id n (itr + 1)

def hbeatDecode (e : Endian) (m : RmcMsg) : Reads RmcMsg := do
  let namelen ← hbeatNamelen e m
  let m := m.setHbeatNamelen e (ntohs e namelen)
  let flags ← hbeatFlags e m
  let m := m.setHbeatFlags e (ntohs e flags)
  let session ← hbeatSession e m
  pure (m.setHbeatSession e (ntohl e session))

/-- `alloc_strcpy` reads the name up to its NUL. -/
def hbeatNewMember (e : Endian) (msg : RmcMsg) : Reads RmcMember := do
  let namelen ← hbeatNamelen e msg
  let name ←
    if namelen ≠ 0 then Reads.string msg.buf (msg.size - sizeofHdr) sizeofHdr else pure noname
  let id ← hdrId e msg
  let session ← hbeatSession e msg
  let sequence ← hdrSequence e msg
  pure { rmcastMemberInit name id session with sequence := sequence - 1 }

def hbeatNewSession (e : Endian) (msg : RmcMsg) (mem : RmcMember) : Reads RmcMember := do
  let session ← hbeatSession e msg
  let sequence ← hdrSequence e msg
  pure { mem with session := session, sequence := sequence - 1 }

def hbeatMember (h : Host) (p : Nat) (cb : RmcCtrlBlock) : Reads (RmcCtrlBlock × Nat) := do
  let id ← hdrId h.endian (cb.msgs p)
  match htblGet cb.members id with
  | none => do
      let mem ← hbeatNewMember h.endian (cb.msgs p)
      pure (registerMember mem cb)
  | some mp => do
      let session ← hbeatSession h.endian (cb.msgs p)
      if session ≠ (cb.mems mp).session then do
        let mem ← hbeatNewSession h.endian (cb.msgs p) (cb.mems mp)
        pure (cb.setMem mp mem, mp)
      else pure (cb, mp)

def hbeatUpdate (e : Endian) (msg : RmcMsg) (selfId : UInt32) (mem : RmcMember) :
    Reads RmcMember := do
  let lost ← hbeatLost e msg
  let mem := { mem with lost := (ntohs e lost.toUInt16).toUInt32 }
  let namelen ← hbeatNamelen e msg
  let data := sizeofHdr + sizeofHbeat + namelen.toNat
  let acks ← hbeatAcks e msg
  if acks ≠ 0 then do
    let found ← ackScan e msg.buf data selfId (ntohs e acks).toNat 0
    match found with
    | some s => pure { mem with sequenceSync := s }
    | none => pure mem
  else pure mem

def hbeatDecodeTail (e : Endian) (m : RmcMsg) : Reads RmcMsg := do
  let acks ← hbeatAcks e m
  let m := if acks ≠ 0 then m.setHbeatAcks e (ntohs e acks) else m
  let pgback ← hbeatPgback e m
  pure (if pgback ≠ 0 then m.setHbeatPgback e (ntohs e pgback) else m)

def hbeatGap (h : Host) (mp p : Nat) (cb : RmcCtrlBlock) : Reads RmcCtrlBlock := do
  let sequence ← hdrSequence h.endian (cb.msgs p)
  if (cb.mems mp).sequence + 1 ≠ sequence then
    if (cb.mems mp).sequence < sequence then pure (sendNack h mp p cb) else pure cb
  else pure cb

def hbeatMsg (h : Host) (p : Nat) (cb : RmcCtrlBlock) : Reads RmcCtrlBlock := do
  let msg ← hbeatDecode h.endian (cb.msgs p)
  let cb := cb.setMsg p msg
  let (cb, mp) ← hbeatMember h p cb
  let mem ← hbeatUpdate h.endian (cb.msgs p) cb.self.id (cb.mems mp)
  let cb := cb.setMem mp mem
  let msg ← hbeatDecodeTail h.endian (cb.msgs p)
  let cb := cb.setMsg p msg
  let cb ← hbeatGap h mp p cb
  pure (releaseMsg cb p)

/-! ## NACK and LEAVE -/

def nackLoop (h : Host) (p : Nat) :
    (rounds : Nat) → (itr : Nat) → RmcCtrlBlock → Reads RmcCtrlBlock
  | 0, _, cb => pure cb
  | n + 1, itr, cb => do
      let e := h.endian
      let m := cb.msgs p
      let word ← Reads.load32 e m.buf (sizeofHdr + itr * sizeofLong)
      let k := ntohl e word
      let cb := cb.setMsg p (m.setBuf (store32 e m.buf (sizeofHdr + itr * sizeofLong) k))
      let cb := match htblGet cb.outmsgbuf k with
        | some q =>
            cb.sendto (.ucast cb.ucastAddr) q (sizeT ((cb.msgs q).length + sizeofHdr)) false
        | none => cb
      nackLoop h p n (itr + 1) cb

def nackMsg (h : Host) (p : Nat) (cb : RmcCtrlBlock) : Reads RmcCtrlBlock := do
  let e := h.endian
  let word ← Reads.load32 e (cb.msgs p).buf sizeofHdr
  let id ← hdrId e (cb.msgs p)
  nackLoop h p (toInt32 word).toNat 1 { cb with ucastAddr := htonl e id }

/-- Behind the id of its sender, nothing of a LEAVE is read. -/
def leaveMsg (h : Host) (p : Nat) (cb : RmcCtrlBlock) : Reads (Option RmcCtrlBlock) := do
  let id ← hdrId h.endian (cb.msgs p)
  match htblRemove cb.members id with
  | none => pure (some cb)
  | some (mp, t) =>
      let cb := { cb with members := t }
      let unseqMsgs := (cb.mems mp).unseqMsgs
      let cb := drainUnseq mp (htblEnumIntKeys unseqMsgs (htblCount unseqMsgs)) cb
      match mqueueRemoveItem cb.membersq mp with
      | none => pure none
      | some (q, _) => pure (some { cb with membersq := q, freed := mp :: cb.freed })

/-! ## The switch -/

def dispatch (h : Host) (sender : SockaddrIn) (p : Nat) (cb : RmcCtrlBlock) :
    Reads (Option RmcCtrlBlock) := do
  let type ← hdrType (cb.msgs p)
  match MsgType.ofByte type with
  | some .data => do
      let cb ← dataMsg h sender p cb
      pure (some cb)
  | some .hbeat => do
      let cb ← hbeatMsg h p cb
      pure (some cb)
  | some .nack => do
      let cb ← nackMsg h p cb
      pure (some cb)
  | some .leave => leaveMsg h p cb
  | _ => pure (some (releaseMsg cb p))

/-! ## Forgetting the offsets -/

theorem val_sendLoop (h : Host) (buf : Mem) (nfound n : Nat) :
    ∀ ret, (sendLoop h buf nfound n ret).val = V01.sendLoop h buf nfound n ret := by
  induction n with
  | zero => intro ret; rfl
  | succ n ih =>
    intro ret
    simp only [sendLoop, V01.sendLoop]
    split
    · simp [ih]
    · rfl

theorem val_deliver (h : Host) (head : List UInt8) (p : Nat) (cb : RmcCtrlBlock) :
    (deliver h head p cb).val = V01.deliver h head p cb := by
  simp only [deliver, Reads.val_bind, val_sendLoop]
  rfl

theorem val_dataInSequence (h : Host) (sender : SockaddrIn) (mp p : Nat) (cb : RmcCtrlBlock) :
    (dataInSequence h sender mp p cb).val = V01.dataInSequence h sender mp p cb := by
  simp only [dataInSequence, Reads.val_bind, val_deliver]
  rfl

theorem val_dataMsg (h : Host) (sender : SockaddrIn) (p : Nat) (cb : RmcCtrlBlock) :
    (dataMsg h sender p cb).val = V01.dataMsg h sender p cb := by
  have hid : (hdrId h.endian (cb.msgs p)).val = (cb.msgs p).hdrId h.endian := rfl
  have hseq : (hdrSequence h.endian (cb.msgs p)).val = (cb.msgs p).hdrSequence h.endian := rfl
  simp only [dataMsg, V01.dataMsg, Reads.val_bind, hid]
  cases htblGet cb.members ((cb.msgs p).hdrId h.endian) with
  | none => rfl
  | some mp =>
    simp only [Reads.val_bind, hseq]
    split
    · split <;> rfl
    · exact val_dataInSequence h sender mp p cb

theorem val_ackScan (e : Endian) (buf : Mem) (data : Nat) (id : UInt32) (n : Nat) :
    ∀ itr, (ackScan e buf data id n itr).val = V01.ackScan e buf data id n itr := by
  induction n with
  | zero => intro itr; rfl
  | succ n ih =>
    intro itr
    by_cases hid : ntohl e (load32 e buf (data + itr * 2 * sizeofLong)) = id
    · simp [ackScan, V01.ackScan, hid]
    · simp [ackScan, V01.ackScan, hid, ih]

theorem val_hbeatNewMember (e : Endian) (msg : RmcMsg) :
    (hbeatNewMember e msg).val = V01.hbeatNewMember e msg := by
  have hlen : (hbeatNamelen e msg).val = msg.hbeatNamelen e := rfl
  simp only [hbeatNewMember, V01.hbeatNewMember, Reads.val_bind, hlen]
  split
  · simp only [Reads.val_bind, Reads.val_string]
    rfl
  · rfl

theorem val_hbeatMember (h : Host) (p : Nat) (cb : RmcCtrlBlock) :
    (hbeatMember h p cb).val = V01.hbeatMember h p cb := by
  have hid : (hdrId h.endian (cb.msgs p)).val = (cb.msgs p).hdrId h.endian := rfl
  have hsess : (hbeatSession h.endian (cb.msgs p)).val = (cb.msgs p).hbeatSession h.endian := rfl
  simp only [hbeatMember, V01.hbeatMember, Reads.val_bind, hid]
  cases htblGet cb.members ((cb.msgs p).hdrId h.endian) with
  | none => simp only [Reads.val_bind, val_hbeatNewMember, Reads.val_pure]
  | some mp =>
    simp only [Reads.val_bind, hsess]
    split <;> rfl

theorem val_hbeatUpdate (e : Endian) (msg : RmcMsg) (selfId : UInt32) (mem : RmcMember) :
    (hbeatUpdate e msg selfId mem).val = V01.hbeatUpdate e msg selfId mem := by
  have hlen : (hbeatNamelen e msg).val = msg.hbeatNamelen e := rfl
  have hlost : (hbeatLost e msg).val = msg.hbeatLost e := rfl
  have hacks : (hbeatAcks e msg).val = msg.hbeatAcks e := rfl
  simp only [hbeatUpdate, V01.hbeatUpdate, Reads.val_bind, hlen, hlost, hacks]
  split
  · simp only [Reads.val_bind, val_ackScan]
    cases V01.ackScan e msg.buf (sizeofHdr + sizeofHbeat + (msg.hbeatNamelen e).toNat) selfId
      (ntohs e (msg.hbeatAcks e)).toNat 0 <;> rfl
  · rfl

theorem val_hbeatGap (h : Host) (mp p : Nat) (cb : RmcCtrlBlock) :
    (hbeatGap h mp p cb).val = V01.hbeatGap h mp p cb := by
  have hseq : (hdrSequence h.endian (cb.msgs p)).val = (cb.msgs p).hdrSequence h.endian := rfl
  simp only [hbeatGap, V01.hbeatGap, Reads.val_bind, hseq]
  split
  · split <;> rfl
  · rfl

theorem val_hbeatDecode (e : Endian) (m : RmcMsg) :
    (hbeatDecode e m).val = V01.hbeatDecode e m := rfl

theorem val_hbeatDecodeTail (e : Endian) (m : RmcMsg) :
    (hbeatDecodeTail e m).val = V01.hbeatDecodeTail e m := rfl

theorem val_hbeatMsg (h : Host) (p : Nat) (cb : RmcCtrlBlock) :
    (hbeatMsg h p cb).val = V01.hbeatMsg h p cb := by
  simp only [hbeatMsg, V01.hbeatMsg, Reads.val_bind, val_hbeatDecode, val_hbeatMember,
    val_hbeatUpdate, val_hbeatDecodeTail, val_hbeatGap, Reads.val_pure]

theorem val_nackLoop (h : Host) (p n : Nat) :
    ∀ (itr : Nat) (cb : RmcCtrlBlock),
      (nackLoop h p n itr cb).val = V01.nackLoop h p n itr cb := by
  induction n with
  | zero => intro itr cb; rfl
  | succ n ih =>
    intro itr cb
    simp only [nackLoop, V01.nackLoop, Reads.val_bind, Reads.val_load32]
    exact ih (itr + 1) _

theorem val_leaveMsg (h : Host) (p : Nat) (cb : RmcCtrlBlock) :
    (leaveMsg h p cb).val = V01.leaveMsg h p cb := by
  have hid : (hdrId h.endian (cb.msgs p)).val = (cb.msgs p).hdrId h.endian := rfl
  simp only [leaveMsg, V01.leaveMsg, Reads.val_bind, hid]
  cases htblRemove cb.members ((cb.msgs p).hdrId h.endian) with
  | none => rfl
  | some r =>
    obtain ⟨mp, t⟩ := r
    dsimp only
    cases mqueueRemoveItem (drainUnseq mp (htblEnumIntKeys (cb.mems mp).unseqMsgs
      (htblCount (cb.mems mp).unseqMsgs)) { cb with members := t }).membersq mp with
    | none => rfl
    | some q => rfl

/-- The switch with its reads is the switch. -/
theorem val_dispatch (h : Host) (sender : SockaddrIn) (p : Nat) (cb : RmcCtrlBlock) :
    (dispatch h sender p cb).val = V01.dispatch h sender p cb := by
  have htype : (hdrType (cb.msgs p)).val = (cb.msgs p).hdrType := rfl
  simp only [dispatch, V01.dispatch, Reads.val_bind, htype]
  cases MsgType.ofByte (cb.msgs p).hdrType with
  | none => rfl
  | some t =>
    cases t with
    | data => simp only [Reads.val_bind, val_dataMsg, Reads.val_pure]
    | hbeat => simp only [Reads.val_bind, val_hbeatMsg, Reads.val_pure]
    | nack => exact congrArg some (val_nackLoop h p _ 1 _)
    | leave => exact val_leaveMsg h p cb
    | _ => rfl

end Footprint

end Rms.V01
