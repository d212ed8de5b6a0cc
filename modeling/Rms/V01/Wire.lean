/-
Rms.V01.Wire — datagrams as values.

A `Datagram` is the header of `rmc_msg_hdr` with its fields as numbers
and whatever bytes follow; `Datagram.bytes` is its layout on the wire.
Two kinds of facts connect it to the daemon, on a host of either byte
order:

* `holds_received`: after `recvfrom` and the conversions of the header,
  the message buffer `Holds` the datagram it was received from;
* `readBytes_dataFill`, `begins_hbeatFill`: the bytes passed to `sendto`
  for a payload or a heartbeat are those of `dataDgram`, `hbeatDgram`.

From here on senders and receivers are compared through `Datagram`, and
no proof has to look at memory again.
-/
import Rms.V01.DaemonTheorems

namespace Rms.V01

open Rms.ByteMem Rms.Util

structure Datagram where
  version : UInt8
  type : UInt8
  length : UInt16
  sequence : UInt32
  id : UInt32
  body : List UInt8
  deriving DecidableEq, Repr

/-- The datagram on the wire. -/
def Datagram.bytes (d : Datagram) : List UInt8 :=
  d.version :: d.type :: (be16 d.length ++ (be32 d.sequence ++ (be32 d.id ++ d.body)))

/-- What the header announces of the body. -/
def Datagram.payload (d : Datagram) : List UInt8 := d.body.take d.length.toNat

@[simp] theorem Datagram.bytes_length (d : Datagram) :
    d.bytes.length = sizeofHdr + d.body.length := by
  simp [Datagram.bytes, sizeofHdr]
  omega

/-- Cutting a datagram behind its header cuts the body. -/
theorem Datagram.take_bytes (d : Datagram) {n : Nat} (hn : sizeofHdr ≤ n) :
    d.bytes.take n = Datagram.bytes { d with body := d.body.take (n - sizeofHdr) } := by
  obtain ⟨k, rfl⟩ : ∃ k, n = k + 12 := ⟨n - 12, by simp only [sizeofHdr] at hn; omega⟩
  simp [Datagram.bytes, be16, be32, sizeofHdr]

/-- What a buffer of `n` bytes takes of a datagram. -/
def Datagram.cut (n : Nat) (d : Datagram) : Datagram :=
  { d with body := d.body.take (n - sizeofHdr) }

/-- A message buffer that holds a datagram with a converted header. -/
structure Holds (e : Endian) (m : RmcMsg) (d : Datagram) : Prop where
  type : m.hdrType = d.type
  length : m.hdrLength e = d.length
  sequence : m.hdrSequence e = d.sequence
  id : m.hdrId e = d.id
  body : readBytes m.buf sizeofHdr d.body.length = d.body

/-! ## Receiving -/

/-- A block of memory begins with a datagram. -/
structure Begins (m : Mem) (d : Datagram) : Prop where
  version : m 0 = d.version
  type : m 1 = d.type
  length : readBytes m 2 2 = be16 d.length
  sequence : readBytes m 4 4 = be32 d.sequence
  id : readBytes m 8 4 = be32 d.id
  body : readBytes m sizeofHdr d.body.length = d.body

theorem begins_iff {m : Mem} {d : Datagram} :
    Begins m d ↔ readBytes m 0 (sizeofHdr + d.body.length) = d.bytes := by
  have hsplit : readBytes m 0 (sizeofHdr + d.body.length)
      = m 0 :: m 1 :: (readBytes m 2 2 ++ (readBytes m 4 4 ++ (readBytes m 8 4
          ++ readBytes m sizeofHdr d.body.length))) := by
    rw [readBytes_add]
    rfl
  rw [hsplit]
  constructor
  · intro h
    rw [h.version, h.type, h.length, h.sequence, h.id, h.body]
    rfl
  · intro h
    simp only [Datagram.bytes, List.cons.injEq] at h
    obtain ⟨hv, ht, h⟩ := h
    obtain ⟨hl, h⟩ := List.append_inj h (by simp)
    obtain ⟨hs, h⟩ := List.append_inj h (by simp)
    obtain ⟨hi, hb⟩ := List.append_inj h (by simp)
    exact ⟨hv, ht, hl, hs, hi, hb⟩

theorem begins_writeBytes (m : Mem) (d : Datagram) : Begins (writeBytes m 0 d.bytes) d := by
  rw [begins_iff, ← Datagram.bytes_length]
  exact readBytes_writeBytes m 0 d.bytes

/-- Converting the header in place. -/
theorem holds_hdrDecode (e : Endian) {m : RmcMsg} {d : Datagram} (h : Begins m.buf d) :
    Holds e (hdrDecode e m) d := by
  have hlen : ntohs e (m.hdrLength e) = d.length := by
    rw [RmcMsg.hdrLength, ntohs_load16]
    exact be16At_of_readBytes h.length
  have hseq : ntohl e ((m.setHdrLength e d.length).hdrSequence e) = d.sequence := by
    simp only [RmcMsg.hdrSequence, RmcMsg.setHdrLength, RmcMsg.setBuf, store16]
    rw [load32_writeBytes e _ _ (.inr (by simp)), ntohl_load32]
    exact be32At_of_readBytes h.sequence
  have hid : ntohl e (((m.setHdrLength e d.length).setHdrSequence e d.sequence).hdrId e)
      = d.id := by
    simp only [RmcMsg.hdrId, RmcMsg.setHdrSequence, RmcMsg.setHdrLength, RmcMsg.setBuf, store16,
      store32]
    rw [load32_writeBytes e _ _ (.inr (by simp)), load32_writeBytes e _ _ (.inr (by simp)),
      ntohl_load32]
    exact be32At_of_readBytes h.id
  have hdec : hdrDecode e m
      = ((m.setHdrLength e d.length).setHdrSequence e d.sequence).setHdrId e d.id := by
    simp only [hdrDecode, hlen, hseq, hid]
  rw [hdec]
  refine ⟨?_, ?_, ?_, ?_, ?_⟩
  · simp only [RmcMsg.hdrType, RmcMsg.setHdrId, RmcMsg.setHdrSequence, RmcMsg.setHdrLength,
      RmcMsg.setBuf, store16, store32]
    rw [writeBytes_below _ _ (by omega), writeBytes_below _ _ (by omega),
      writeBytes_below _ _ (by omega)]
    exact h.type
  · simp only [RmcMsg.hdrLength, RmcMsg.setHdrId, RmcMsg.setHdrSequence, RmcMsg.setHdrLength,
      RmcMsg.setBuf, store32]
    rw [load16_writeBytes e _ _ (.inl (by omega)), load16_writeBytes e _ _ (.inl (by omega))]
    exact load16_store16 e _ _ _
  · simp only [RmcMsg.hdrSequence, RmcMsg.setHdrId, RmcMsg.setHdrSequence, RmcMsg.setBuf]
    rw [store32, load32_writeBytes e _ _ (.inl (by omega))]
    exact load32_store32 e _ _ _
  · exact load32_store32 e _ _ _
  · simp only [RmcMsg.setHdrId, RmcMsg.setHdrSequence, RmcMsg.setHdrLength, RmcMsg.setBuf,
      store16, store32]
    rw [readBytes_writeBytes_disjoint _ _ _ _ _ (.inr (by simp [sizeofHdr])),
      readBytes_writeBytes_disjoint _ _ _ _ _ (.inr (by simp [sizeofHdr])),
      readBytes_writeBytes_disjoint _ _ _ _ _ (.inr (by simp [sizeofHdr]))]
    exact h.body

/-- The state once a datagram was received and its header converted. -/
def received (h : Host) (r : RecvResult) (cb : RmcCtrlBlock) : RmcCtrlBlock :=
  (recvMsg r cb).1.setMsg (recvMsg r cb).2.1
    (hdrDecode h.endian ((recvMsg r cb).1.msgs (recvMsg r cb).2.1))

/-- The next buffer taken from the pool has room for a datagram, and the
datagram is no longer than an `int` can say. -/
def Fits (cb : RmcCtrlBlock) (d : Datagram) : Prop :=
  d.bytes.length ≤ ((allocMsg cb).1.msgs (allocMsg cb).2).size ∧ d.bytes.length < 2147483648

theorem recvMsg_ret {cb : RmcCtrlBlock} {d : Datagram} (hf : Fits cb d) :
    (recvMsg (.ok d.bytes) cb).2.2 = d.bytes.length := by
  obtain ⟨hsize, hudp⟩ := hf
  simp only [recvMsg, RecvResult.limit, RecvResult.ret, List.take_of_length_le hsize, sizeT]
  omega

/-- A buffer holds what it has room for. -/
theorem holds_received_cut (h : Host) {cb : RmcCtrlBlock} {n : Nat}
    (hsize : ((allocMsg cb).1.msgs (allocMsg cb).2).size = n) (hn : sizeofHdr ≤ n)
    (d : Datagram) :
    Holds h.endian ((received h (.ok d.bytes) cb).msgs (allocMsg cb).2) (d.cut n) := by
  have hbuf : ((recvMsg (.ok d.bytes) cb).1.msgs (allocMsg cb).2).buf
      = writeBytes ((allocMsg cb).1.msgs (allocMsg cb).2).buf 0 (d.cut n).bytes := by
    rw [Datagram.cut, ← d.take_bytes hn]
    simp only [recvMsg, RmcCtrlBlock.setMsg, Function.update_self, RmcMsg.setBuf,
      RecvResult.limit, RecvResult.into, hsize]
  have hmsg : (received h (.ok d.bytes) cb).msgs (allocMsg cb).2
      = hdrDecode h.endian ((recvMsg (.ok d.bytes) cb).1.msgs (allocMsg cb).2) :=
    Function.update_self ..
  rw [hmsg]
  apply holds_hdrDecode
  rw [hbuf]
  exact begins_writeBytes _ _

/-- What was received whole is held. -/
theorem holds_received (h : Host) {cb : RmcCtrlBlock} {d : Datagram} (hf : Fits cb d) :
    Holds h.endian ((received h (.ok d.bytes) cb).msgs (allocMsg cb).2) d := by
  have hlen := d.bytes_length
  have hsize := hf.1
  have hcut : d.cut ((allocMsg cb).1.msgs (allocMsg cb).2).size = d := by
    rw [Datagram.cut, List.take_of_length_le (by omega)]
  have hroom : sizeofHdr ≤ ((allocMsg cb).1.msgs (allocMsg cb).2).size := by omega
  have hheld := holds_received_cut h rfl hroom d
  rwa [hcut] at hheld

/-- Behind the header, the buffer is as `recvfrom` left it. -/
theorem received_above (h : Host) {cb : RmcCtrlBlock} {d : Datagram} (hf : Fits cb d) {i : Nat}
    (hi : sizeofHdr ≤ i) :
    ((received h (.ok d.bytes) cb).msgs (allocMsg cb).2).buf i
      = writeBytes ((allocMsg cb).1.msgs (allocMsg cb).2).buf 0 d.bytes i := by
  have hmsg : (received h (.ok d.bytes) cb).msgs (allocMsg cb).2
      = hdrDecode h.endian ((recvMsg (.ok d.bytes) cb).1.msgs (allocMsg cb).2) :=
    Function.update_self ..
  have hdec : ∀ m : RmcMsg, (hdrDecode h.endian m).buf i = m.buf i := by
    intro m
    simp only [sizeofHdr] at hi
    simp only [hdrDecode, RmcMsg.setHdrId, RmcMsg.setHdrSequence, RmcMsg.setHdrLength,
      RmcMsg.setBuf, store16, store32]
    rw [writeBytes_above _ _ (by simp; omega), writeBytes_above _ _ (by simp; omega),
      writeBytes_above _ _ (by simp; omega)]
  rw [hmsg, hdec]
  simp only [recvMsg, RmcCtrlBlock.setMsg, Function.update_self, RmcMsg.setBuf,
    RecvResult.limit, RecvResult.into, List.take_of_length_le hf.1]

/-- A whole datagram reaches the switch. -/
theorem mcastBranch_whole (h : Host) (sender : SockaddrIn) {cb : RmcCtrlBlock} {d : Datagram}
    (hf : Fits cb d) (hlen : d.length.toNat ≤ d.body.length) :
    mcastBranch h sender (.ok d.bytes) cb
      = (dispatch h sender (allocMsg cb).2 (received h (.ok d.bytes) cb)).map
          fun cb => (cb, false) := by
  have hret := recvMsg_ret hf
  have hheld := (holds_received h hf).length
  have hb := d.bytes_length
  have hshort : ¬ (recvMsg (.ok d.bytes) cb).2.2 < sizeofHdr := by omega
  have hfull : ¬ (recvMsg (.ok d.bytes) cb).2.2
      < (((received h (.ok d.bytes) cb).msgs (allocMsg cb).2).hdrLength h.endian).toNat
        + sizeofHdr := by
    rw [hheld]
    omega
  unfold mcastBranch
  simp only
  rw [if_neg hshort]
  exact if_neg hfull

/-! ## Sending -/

theorem sizeT_natCast {n : Nat} (h : n < 4294967296) : sizeT (n : Int) = n := by
  simp only [sizeT]
  omega

/-- The datagram that carries a payload. -/
def dataDgram (version : UInt8) (self : RmcMember) (payload : List UInt8) : Datagram :=
  { version := version, type := MsgType.data.toByte, length := UInt16.ofNat payload.length,
    sequence := self.sequence, id := self.id, body := payload }

/-- The four fields of a header that every sender writes. The version is
what the buffer held before. -/
theorem begins_header (e : Endian) (m : RmcMsg) (t : MsgType) (len : UInt16) (seq id : UInt32)
    (k : Nat) :
    Begins ((((m.setHdrType t).setHdrLength e (htons e len)).setHdrSequence e
        (htonl e seq)).setHdrId e (htonl e id)).buf
      ⟨m.buf 0, t.toByte, len, seq, id, readBytes m.buf sizeofHdr k⟩ := by
  simp only [RmcMsg.setHdrType, RmcMsg.setHdrLength, RmcMsg.setHdrSequence,
    RmcMsg.setHdrId, RmcMsg.setBuf, store16_htons, store32_htonl]
  refine ⟨?_, ?_, ?_, ?_, ?_, ?_⟩
  · rw [writeBytes_below _ _ (by omega), writeBytes_below _ _ (by omega),
      writeBytes_below _ _ (by omega), writeBytes_below _ _ (by omega)]
  · rw [writeBytes_below _ _ (by omega), writeBytes_below _ _ (by omega),
      writeBytes_below _ _ (by omega)]
    rfl
  · rw [readBytes_writeBytes_disjoint _ _ _ _ _ (.inl (by omega)),
      readBytes_writeBytes_disjoint _ _ _ _ _ (.inl (by omega))]
    exact readBytes_writeBytes _ 2 (be16 len)
  · rw [readBytes_writeBytes_disjoint _ _ _ _ _ (.inl (by omega))]
    exact readBytes_writeBytes _ 4 (be32 seq)
  · exact readBytes_writeBytes _ 8 (be32 id)
  · rw [readBytes_writeBytes_disjoint _ _ _ _ _ (.inr (by simp [sizeofHdr])),
      readBytes_writeBytes_disjoint _ _ _ _ _ (.inr (by simp [sizeofHdr])),
      readBytes_writeBytes_disjoint _ _ _ _ _ (.inr (by simp [sizeofHdr])),
      readBytes_writeBytes_disjoint _ _ _ _ _ (.inr (by simp [sizeofHdr])), readBytes_length]

theorem begins_dataFill (h : Host) (self : RmcMember) (n : Int) (m : RmcMsg) (k : Nat) :
    Begins (dataFill h self n m).buf
      ⟨m.buf 0, MsgType.data.toByte, UInt16.ofNat (sizeT n), self.sequence, self.id,
        readBytes m.buf sizeofHdr k⟩ :=
  begins_header h.endian { m with length := n } .data _ _ _ k

/-- The bytes sent for a payload that lies behind the header. -/
theorem readBytes_dataFill (h : Host) (self : RmcMember) (m : RmcMsg) (payload : List UInt8)
    (hp : readBytes m.buf sizeofHdr payload.length = payload) (hlen : payload.length < 65536) :
    readBytes (dataFill h self payload.length m).buf 0 (payload.length + sizeofHdr)
      = (dataDgram (m.buf 0) self payload).bytes := by
  have hbegins := begins_dataFill h self payload.length m payload.length
  rw [hp, sizeT_natCast (by omega)] at hbegins
  rw [Nat.add_comm]
  exact begins_iff.mp hbegins

/-! ## Heartbeats -/

/-- The fields of `rmc_msg_hbeat` as numbers. -/
structure HbeatFields where
  lost : UInt32
  namelen : UInt16
  flags : UInt16
  session : UInt32
  acks : UInt16
  pgback : UInt16
  deriving DecidableEq, Repr

/-- The structure on the wire. -/
def HbeatFields.bytes (f : HbeatFields) : List UInt8 :=
  be32 f.lost ++ (be16 f.namelen ++ (be16 f.flags ++ (be32 f.session ++ (be16 f.acks
    ++ be16 f.pgback))))

@[simp] theorem HbeatFields.bytes_length (f : HbeatFields) : f.bytes.length = sizeofHbeat := rfl

/-- A message buffer with a heartbeat structure at `data`, followed by a
tail. -/
structure HbeatAt (m : Mem) (f : HbeatFields) (tail : List UInt8) : Prop where
  lost : readBytes m 12 4 = be32 f.lost
  namelen : readBytes m 16 2 = be16 f.namelen
  flags : readBytes m 18 2 = be16 f.flags
  session : readBytes m 20 4 = be32 f.session
  acks : readBytes m 24 2 = be16 f.acks
  pgback : readBytes m 26 2 = be16 f.pgback
  tail : readBytes m (sizeofHdr + sizeofHbeat) tail.length = tail

theorem hbeatAt_iff {m : Mem} {f : HbeatFields} {tail : List UInt8} :
    HbeatAt m f tail ↔ readBytes m sizeofHdr (f.bytes ++ tail).length = f.bytes ++ tail := by
  have hsplit : readBytes m sizeofHdr (f.bytes ++ tail).length
      = readBytes m 12 4 ++ (readBytes m 16 2 ++ (readBytes m 18 2 ++ (readBytes m 20 4
          ++ (readBytes m 24 2 ++ readBytes m 26 2))))
        ++ readBytes m (sizeofHdr + sizeofHbeat) tail.length := by
    rw [List.length_append, readBytes_add, f.bytes_length]
    rfl
  rw [hsplit]
  constructor
  · intro h
    rw [h.lost, h.namelen, h.flags, h.session, h.acks, h.pgback, h.tail]
    rfl
  · intro h
    obtain ⟨hf, ht⟩ := List.append_inj h (by simp [sizeofHbeat])
    unfold HbeatFields.bytes at hf
    obtain ⟨h₁, hf⟩ := List.append_inj hf (by simp)
    obtain ⟨h₂, hf⟩ := List.append_inj hf (by simp)
    obtain ⟨h₃, hf⟩ := List.append_inj hf (by simp)
    obtain ⟨h₄, hf⟩ := List.append_inj hf (by simp)
    obtain ⟨h₅, h₆⟩ := List.append_inj hf (by simp)
    exact ⟨h₁, h₂, h₃, h₄, h₅, h₆, ht⟩

/-- What the heartbeat structure says. -/
def hbeatFields (self : RmcMember) (hname : Option (List UInt8))
    (acks : Option (List (UInt32 × UInt32))) (flags : UInt16) : HbeatFields :=
  { lost := self.lost
    namelen := match hname with
      | some name => UInt16.ofNat (name.length + 1)
      | none => 0
    flags := flags
    session := self.session
    acks := match acks with
      | some l => UInt16.ofNat l.length
      | none => 0
    pgback := 0 }

/-- The number of bytes sent behind the heartbeat structure. -/
def hbeatOffset (acks : Option (List (UInt32 × UInt32))) : Nat :=
  (acks.getD []).length * (2 * sizeofLong)

/-- The bytes sent behind the heartbeat structure: the ack list stands
behind the name, but only as many bytes as it has itself are sent. -/
def hbeatTail (hname : Option (List UInt8)) (acks : Option (List (UInt32 × UInt32))) :
    List UInt8 :=
  (hname.getD [] ++ (acks.getD []).flatMap fun a => be32 a.1 ++ be32 a.2).take (hbeatOffset acks)

/-- The datagram of a heartbeat. -/
def hbeatDgram (version : UInt8) (self : RmcMember) (hname : Option (List UInt8))
    (acks : Option (List (UInt32 × UInt32))) (flags : UInt16) : Datagram :=
  { version := version, type := MsgType.hbeat.toByte
    length := UInt16.ofNat (sizeofHbeat + hbeatOffset acks)
    sequence := self.sequence, id := self.id
    body := (hbeatFields self hname acks flags).bytes ++ hbeatTail hname acks }

theorem ackBytes_eq (e : Endian) (l : List (UInt32 × UInt32)) :
    ackBytes e l = l.flatMap fun a => be32 a.1 ++ be32 a.2 := by
  simp only [ackBytes, enc32_htonl]

theorem ackBytes_length (e : Endian) (l : List (UInt32 × UInt32)) :
    (ackBytes e l).length = l.length * (2 * sizeofLong) := by
  rw [ackBytes_eq]
  induction l with
  | nil => rfl
  | cons a l ih =>
    simp only [List.flatMap_cons, List.length_append, be32_length, ih, List.length_cons, sizeofLong]
    omega

theorem hbeatTail_length (hname : Option (List UInt8))
    (acks : Option (List (UInt32 × UInt32))) :
    (hbeatTail hname acks).length = hbeatOffset acks := by
  have hlen := ackBytes_length .big (acks.getD [])
  rw [ackBytes_eq] at hlen
  rw [hbeatTail, List.length_take, List.length_append, hlen, hbeatOffset]
  omega

theorem hbeatDgram_body_length (version : UInt8) (self : RmcMember) (hname : Option (List UInt8))
    (acks : Option (List (UInt32 × UInt32))) (flags : UInt16) :
    (hbeatDgram version self hname acks flags).body.length = sizeofHbeat + hbeatOffset acks := by
  simp only [hbeatDgram, List.length_append, HbeatFields.bytes_length, hbeatTail_length]

theorem hbeatFill_offset (h : Host) (self : RmcMember) (hname : Option (List UInt8))
    (acks : Option (List (UInt32 × UInt32))) (flags : UInt16) (m : RmcMsg) :
    (hbeatFill h self hname acks none flags m).2 = hbeatOffset acks := by
  cases hname <;> cases acks <;> simp [hbeatFill, hbeatOffset]

/-- Behind the structure stand the name and, in place of its terminator,
the ack list. -/
theorem readBytes_hbeatFill_tail (h : Host) (self : RmcMember) (hname : Option (List UInt8))
    (acks : Option (List (UInt32 × UInt32))) (flags : UInt16) (m : RmcMsg) :
    readBytes (hbeatFill h self hname acks none flags m).1.buf (sizeofHdr + sizeofHbeat)
        ((hname.getD []).length + (ackBytes h.endian (acks.getD [])).length)
      = hname.getD [] ++ ackBytes h.endian (acks.getD []) := by
  have hterm : ∀ (buf : Mem) (name : List UInt8),
      readBytes (writeBytes buf 28 (name ++ [0])) 28 name.length = name := by
    intro buf name
    rw [readBytes_take _ _ (show name.length ≤ (name ++ [0]).length by simp),
      readBytes_writeBytes]
    exact List.take_left' rfl
  -- the three stores that follow the ack list
  have hlast : ∀ (buf : Mem) (x y z : UInt16) (off n : Nat), 28 ≤ off →
      readBytes (writeBytes (writeBytes (writeBytes buf 24 (be16 x)) 26 (be16 y)) 2 (be16 z)) off n
        = readBytes buf off n := by
    intro buf x y z off n hoff
    rw [readBytes_writeBytes_disjoint _ _ _ _ _ (.inr (by simp; omega)),
      readBytes_writeBytes_disjoint _ _ _ _ _ (.inr (by simp; omega)),
      readBytes_writeBytes_disjoint _ _ _ _ _ (.inr (by simp; omega))]
  rw [readBytes_add]
  rcases hname with _ | name <;> rcases acks with _ | l <;>
    simp only [hbeatFill, RmcMsg.setHdrType, RmcMsg.setHdrLength, RmcMsg.setHdrSequence,
      RmcMsg.setHdrId, RmcMsg.setHbeatLost, RmcMsg.setHbeatFlags, RmcMsg.setHbeatSession,
      RmcMsg.setHbeatNamelen, RmcMsg.setHbeatAcks, RmcMsg.setHbeatPgback, RmcMsg.setBuf,
      store16_htons, store32_htonl, store16_zero, sizeofHdr, sizeofHbeat, Nat.reduceAdd,
      Option.getD_some, Option.getD_none, List.length_nil]
  · rfl
  · rw [hlast _ _ _ _ _ _ (Nat.le_refl _), hlast _ _ _ _ _ _ (by omega)]
    exact congrArg _ (readBytes_writeBytes _ _ _)
  · rw [hlast _ _ _ _ _ _ (Nat.le_refl _), hterm]
    rfl
  · rw [hlast _ _ _ _ _ _ (Nat.le_refl _), hlast _ _ _ _ _ _ (by omega),
      readBytes_writeBytes_disjoint _ _ _ _ _ (.inl (Nat.le_refl _)), hterm, readBytes_writeBytes]

/-- The stores of `send_hbeat` into the header and the structure, in their
order. -/
def hbeatFixed (buf : Mem) (d : Datagram) (f : HbeatFields) : Mem :=
  let buf := writeBytes (writeBytes (writeBytes buf 1 [d.type]) 4 (be32 d.sequence)) 8 (be32 d.id)
  let buf := writeBytes (writeBytes (writeBytes buf 12 (be32 f.lost)) 18 (be16 f.flags)) 20
    (be32 f.session)
  let buf := writeBytes buf 16 (be16 f.namelen)
  let buf := writeBytes (writeBytes buf 24 (be16 f.acks)) 26 (be16 f.pgback)
  writeBytes buf 2 (be16 d.length)

/-- Below the name, only these stores count. -/
theorem hbeatFill_fixed (h : Host) (self : RmcMember) (hname : Option (List UInt8))
    (acks : Option (List (UInt32 × UInt32))) (flags : UInt16) (m : RmcMsg) {i : Nat}
    (hi : i < 28) :
    (hbeatFill h self hname acks none flags m).1.buf i
      = hbeatFixed m.buf (hbeatDgram (m.buf 0) self hname acks flags)
          (hbeatFields self hname acks flags) i := by
  rcases hname with _ | name <;> rcases acks with _ | l <;>
    simp only [hbeatFill, RmcMsg.setHdrType, RmcMsg.setHdrLength, RmcMsg.setHdrSequence,
      RmcMsg.setHdrId, RmcMsg.setHbeatLost, RmcMsg.setHbeatFlags, RmcMsg.setHbeatSession,
      RmcMsg.setHbeatNamelen, RmcMsg.setHbeatAcks, RmcMsg.setHbeatPgback, RmcMsg.setBuf,
      store16_htons, store32_htonl, store16_zero, sizeofHdr, sizeofHbeat, Nat.reduceAdd,
      hbeatFixed, hbeatDgram, hbeatFields, hbeatOffset, Option.getD_some, Option.getD_none,
      List.length_nil, Nat.zero_mul, Nat.add_zero]
  · refine writeBytes_congr _ _ (writeBytes_congr _ _ (writeBytes_congr _ _ ?_))
    exact writeBytes_below _ _ hi
  · refine writeBytes_congr _ _ (writeBytes_congr _ _ (writeBytes_congr _ _ ?_))
    exact writeBytes_below _ _ hi
  · refine writeBytes_congr _ _ (writeBytes_congr _ _ (writeBytes_congr _ _ ?_))
    rw [writeBytes_below _ _ (by omega), writeBytes_below _ _ hi]

/-- The message `send_hbeat` builds is the heartbeat's datagram. -/
theorem begins_hbeatFill (h : Host) (self : RmcMember) (hname : Option (List UInt8))
    (acks : Option (List (UInt32 × UInt32))) (flags : UInt16) (m : RmcMsg) :
    Begins (hbeatFill h self hname acks none flags m).1.buf
      (hbeatDgram (m.buf 0) self hname acks flags) := by
  have hfix : ∀ off n, off + n ≤ 28 →
      readBytes (hbeatFill h self hname acks none flags m).1.buf off n
        = readBytes (hbeatFixed m.buf (hbeatDgram (m.buf 0) self hname acks flags)
            (hbeatFields self hname acks flags)) off n := by
    intro off n hle
    apply readBytes_congr
    intro i hlo hhi
    exact hbeatFill_fixed h self hname acks flags m (by omega)
  have htail : readBytes (hbeatFill h self hname acks none flags m).1.buf
      (sizeofHdr + sizeofHbeat) (hbeatTail hname acks).length = hbeatTail hname acks := by
    have hlen := ackBytes_length h.endian (acks.getD [])
    rw [hbeatTail_length, readBytes_take _ _ (n := (hname.getD []).length
      + (ackBytes h.endian (acks.getD [])).length) (by rw [hlen, hbeatOffset]; omega),
      readBytes_hbeatFill_tail, ackBytes_eq]
    rfl
  have hat : HbeatAt (hbeatFill h self hname acks none flags m).1.buf
      (hbeatFields self hname acks flags) (hbeatTail hname acks) := by
    refine ⟨?_, ?_, ?_, ?_, ?_, ?_, htail⟩ <;> rw [hfix _ _ (by omega)] <;>
      simp (disch := simp) only [hbeatFixed, readBytes_writeBytes_disjoint, readBytes_be16,
        readBytes_be32]
  refine ⟨?_, ?_, ?_, ?_, ?_, hbeatAt_iff.mp hat⟩
  · rw [hbeatFill_fixed h self hname acks flags m (by omega)]
    simp (disch := omega) only [hbeatFixed, writeBytes_below]
    rfl
  · rw [hbeatFill_fixed h self hname acks flags m (by omega)]
    simp (disch := omega) only [hbeatFixed, writeBytes_below]
    rfl
  · rw [hfix _ _ (by omega)]
    exact readBytes_be16 ..
  · rw [hfix _ _ (by omega)]
    simp (disch := simp) only [hbeatFixed, readBytes_writeBytes_disjoint, readBytes_be32]
  · rw [hfix _ _ (by omega)]
    simp (disch := simp) only [hbeatFixed, readBytes_writeBytes_disjoint, readBytes_be32]

end Rms.V01
