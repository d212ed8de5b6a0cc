/-
Rms.V01.SendTheorems — what a sender puts on the wire.

`IpcInput.whole` is the client's message arriving whole and its `sendto`
succeeding; the IPC branch then multicasts the datagram of the payload
and takes the next number (`ipcBranch_whole`). A heartbeat multicasts its
datagram and takes no number (`sendHbeat_sent`).
-/
import Rms.V01.Wire

namespace Rms.V01

open Rms.ByteMem Rms.Util

/-! ## Purging -/

/-- A purge only moves messages out of the window. -/
theorem purgeRounds_frame (n : Nat) :
    ∀ cb : RmcCtrlBlock, ∃ o q s, purgeRounds n cb
      = { cb with outmsgbuf := o, bufmsgq := q, oldestSeq := s } := by
  induction n with
  | zero =>
    intro cb
    exact ⟨_, _, _, rfl⟩
  | succ n ih =>
    intro cb
    obtain ⟨o, q, s, hrounds⟩ := ih (purgeRound cb)
    refine ⟨o, q, s, ?_⟩
    rw [purgeRounds, hrounds]
    unfold purgeRound
    split <;> rfl

theorem purge_frame (bound : UInt32) (cb : RmcCtrlBlock) :
    ∃ o q s, purge bound cb = { cb with outmsgbuf := o, bufmsgq := q, oldestSeq := s } :=
  purgeRounds_frame _ cb

/-! ## Messages from the client -/

/-- A message of the client that arrives whole and is sent. -/
def IpcInput.whole (e : Endian) (payload : List UInt8) : IpcInput :=
  { len := .ok (enc32 e (UInt32.ofNat payload.length))
    body := .ok payload
    sendto := payload.length + sizeofHdr }

/-- The length word of a whole message is its length. -/
theorem ipcLen_whole (h : Host) (cb : RmcCtrlBlock) {payload : List UInt8}
    (hlen : payload.length < 2147483648) :
    ipcLen h (IpcInput.whole h.endian payload) cb = payload.length := by
  have hmem : ipcLenMem (IpcInput.whole h.endian payload) cb
      = store32 h.endian cb.ipcRead 0 (UInt32.ofNat payload.length) := by
    simp only [ipcLenMem, IpcInput.whole, RecvResult.limit, RecvResult.into, store32]
    rw [List.take_of_length_le (by simp [sizeofLong])]
  have hnat : (UInt32.ofNat payload.length).toNat = payload.length := by
    rw [UInt32.toNat_ofNat']
    exact Nat.mod_eq_of_lt (by omega)
  rw [ipcLen, hmem, load32_store32, toInt32, hnat, if_pos hlen]

theorem allocMsg_frame (cb : RmcCtrlBlock) :
    (allocMsg cb).1.self = cb.self ∧ (allocMsg cb).1.sent = cb.sent
      ∧ (allocMsg cb).1.membersq = cb.membersq ∧ (allocMsg cb).1.hostname = cb.hostname
      ∧ (allocMsg cb).1.hbAck = cb.hbAck := by
  obtain ⟨b, n, f, halloc⟩ := allocMsg_eq cb
  rw [halloc]
  exact ⟨rfl, rfl, rfl, rfl, rfl⟩

/-- All that reading the client's message can write. -/
theorem ipcRecv_eq (h : Host) (i : IpcInput) (cb : RmcCtrlBlock) :
    ∃ b n f z, (ipcRecv h i cb).1
      = { cb with ipcRead := ipcLenMem i cb, bufmsgq := b, nmsgs := n, msgs := f, bufsize := z } := by
  have hgrow : ∀ (k : Int) (p : Nat) (cb : RmcCtrlBlock),
      ∃ f z, growMsg k p cb = { cb with msgs := f, bufsize := z } := by
    intro k p cb
    unfold growMsg
    split <;> exact ⟨_, _, rfl⟩
  obtain ⟨b, n, f, halloc⟩ := allocMsg_eq { cb with ipcRead := ipcLenMem i cb }
  obtain ⟨f', z, hgrow⟩ := hgrow (ipcLen h i cb)
    (allocMsg { cb with ipcRead := ipcLenMem i cb }).2
    (allocMsg { cb with ipcRead := ipcLenMem i cb }).1
  simp only [ipcRecv]
  rw [hgrow, halloc]
  exact ⟨b, n, _, z, rfl⟩

/-- The sender's half that `recv` into a fresh buffer leaves alone. -/
theorem ipcRecv_frame (h : Host) (i : IpcInput) (cb : RmcCtrlBlock) :
    (ipcRecv h i cb).1.self = cb.self ∧ (ipcRecv h i cb).1.sent = cb.sent
      ∧ (ipcRecv h i cb).1.membersq = cb.membersq ∧ (ipcRecv h i cb).1.hostname = cb.hostname
      ∧ (ipcRecv h i cb).1.hbAck = cb.hbAck := by
  obtain ⟨b, n, f, z, hrecv⟩ := ipcRecv_eq h i cb
  rw [hrecv]
  exact ⟨rfl, rfl, rfl, rfl, rfl⟩

/-- All that sending it can write. -/
theorem ipcSend_eq (h : Host) (sendto ipcRead : Int) (p : Nat) (cb : RmcCtrlBlock) :
    ∃ f sent t self, ipcSend h sendto ipcRead p cb
      = { cb with msgs := f, sent := sent, outmsgbuf := t, self := self } := by
  unfold ipcSend
  dsimp only
  split <;> exact ⟨_, _, _, _, rfl⟩

/-- All that the branch for the client can write. -/
theorem ipcBranch_eq (h : Host) (i : IpcInput) (cb : RmcCtrlBlock) :
    ∃ len b n f z sent t self, ipcBranch h i cb
      = { cb with ipcRead := len, bufmsgq := b, nmsgs := n, msgs := f, bufsize := z
                  sent := sent, outmsgbuf := t, self := self } := by
  obtain ⟨b, n, f, z, hrecv⟩ := ipcRecv_eq h i cb
  unfold ipcBranch
  split
  · dsimp only
    split
    · obtain ⟨f', sent, t, self, hsend⟩ := ipcSend_eq h i.sendto (ipcLen h i cb)
        (ipcRecv h i cb).2 (ipcRecv h i cb).1
      rw [hsend, hrecv]
      exact ⟨_, b, n, f', z, sent, t, self, rfl⟩
    · rw [hrecv]
      exact ⟨_, b, n, f, z, cb.sent, cb.outmsgbuf, cb.self, rfl⟩
  · exact ⟨_, cb.bufmsgq, cb.nmsgs, cb.msgs, cb.bufsize, cb.sent, cb.outmsgbuf, cb.self, rfl⟩

/-- The branch for the client leaves the receiver's half alone. -/
theorem ipcBranch_receiver (h : Host) (i : IpcInput) (cb : RmcCtrlBlock) :
    (ipcBranch h i cb).members = cb.members ∧ (ipcBranch h i cb).mems = cb.mems
      ∧ (ipcBranch h i cb).membersq = cb.membersq ∧ (ipcBranch h i cb).ipcOut = cb.ipcOut := by
  obtain ⟨len, b, n, f, z, sent, t, self, hbranch⟩ := ipcBranch_eq h i cb
  rw [hbranch]
  exact ⟨rfl, rfl, rfl, rfl⟩

/-- A whole message lies behind the header of its buffer. -/
theorem ipcRecv_payload (h : Host) (cb : RmcCtrlBlock) {payload : List UInt8}
    (hlen : payload.length < 2147483648) :
    readBytes ((ipcRecv h (IpcInput.whole h.endian payload) cb).1.msgs
      (ipcRecv h (IpcInput.whole h.endian payload) cb).2).buf sizeofHdr payload.length
      = payload := by
  simp only [ipcRecv, ipcLen_whole h cb hlen, sizeT_natCast (n := payload.length) (by omega)]
  simp only [IpcInput.whole, RecvResult.limit, List.take_length, RecvResult.into,
    RmcCtrlBlock.setMsg, Function.update_self, RmcMsg.setBuf]
  exact readBytes_writeBytes _ _ _

/-- A whole message is multicast under the next number. -/
theorem ipcBranch_whole (h : Host) (cb : RmcCtrlBlock) {payload : List UInt8}
    (hlen : payload.length < 65536) :
    ∃ v, (ipcBranch h (IpcInput.whole h.endian payload) cb).sent
        = cb.sent ++ [⟨.mcast, (dataDgram v cb.self payload).bytes, false⟩]
      ∧ (ipcBranch h (IpcInput.whole h.endian payload) cb).self
          = { cb.self with sequence := cb.self.sequence + 1 }
      ∧ (ipcBranch h (IpcInput.whole h.endian payload) cb).membersq = cb.membersq
      ∧ (ipcBranch h (IpcInput.whole h.endian payload) cb).hostname = cb.hostname
      ∧ (ipcBranch h (IpcInput.whole h.endian payload) cb).hbAck = cb.hbAck := by
  obtain ⟨hself, hsent, hq, hname, hack⟩ := ipcRecv_frame h (IpcInput.whole h.endian payload) cb
  have hpay := ipcRecv_payload h cb (show payload.length < 2147483648 by omega)
  have hn := ipcLen_whole h cb (show payload.length < 2147483648 by omega)
  have hcode : ipcBranch h (IpcInput.whole h.endian payload) cb
      = ipcSend h (payload.length + sizeofHdr) payload.length
          (ipcRecv h (IpcInput.whole h.endian payload) cb).2
          (ipcRecv h (IpcInput.whole h.endian payload) cb).1 := by
    have hpos : 0 < ((IpcInput.whole h.endian payload).len.limit sizeofLong).ret := by
      simp [IpcInput.whole, RecvResult.limit, RecvResult.ret, sizeofLong]
    have hbody : ((IpcInput.whole h.endian payload).body.limit (sizeT payload.length)).ret
        = payload.length := by
      simp only [sizeT_natCast (n := payload.length) (by omega)]
      simp [IpcInput.whole, RecvResult.limit, RecvResult.ret]
    unfold ipcBranch
    rw [if_pos hpos, hn]
    simp only
    rw [if_pos hbody]
    rfl
  generalize ipcRecv h (IpcInput.whole h.endian payload) cb = r at *
  have hbytes := readBytes_dataFill h cb.self (r.1.msgs r.2) payload hpay hlen
  have hsize : sizeT ((payload.length : Int) + sizeofHdr) = payload.length + sizeofHdr :=
    sizeT_natCast (n := payload.length + sizeofHdr) (by simp only [sizeofHdr]; omega)
  have hok : (0 : Int) < (payload.length : Int) + (sizeofHdr : Nat) := by
    simp only [sizeofHdr]
    omega
  have hfailed : decide ((payload.length : Int) + (sizeofHdr : Nat) ≤ 0) = false := by
    simp only [decide_eq_false_iff_not, not_le]
    exact hok
  rw [hcode]
  unfold ipcSend
  simp only
  rw [if_pos hok, hsize, hfailed]
  refine ⟨(r.1.msgs r.2).buf 0, ?_, ?_, hq, hname, hack⟩
  · simp only [RmcCtrlBlock.sendto, RmcCtrlBlock.setMsg, Function.update_self, hsent, hself]
    rw [hbytes]
  · simp only [RmcCtrlBlock.sendto, RmcCtrlBlock.setMsg, hself]

/-! ## Heartbeats -/

/-- How many members a heartbeat has to acknowledge. -/
def ackCount (cb : RmcCtrlBlock) : Nat :=
  if cb.hbAck then (mqueueSize cb.membersq).toNat else 0

/-- The ack list moves the queue's cursor and is as long as its 16-bit
counter says. -/
theorem hbeatAckPart_spec {cb : RmcCtrlBlock}
    {r : RmcCtrlBlock × Option (List (UInt32 × UInt32))} (h : hbeatAckPart cb = some r) :
    (∃ q, r.1 = { cb with membersq := q })
      ∧ (r.2.getD []).length = ackCount cb % 65536 := by
  unfold hbeatAckPart at h
  split at h
  · rename_i hack
    obtain ⟨r', hlist, rfl⟩ := Option.map_eq_some_iff.mp h
    unfold hbeatAckList at hlist
    split at hlist
    · simp at hlist
    rename_i q cs hpeeks
    split at hlist
    · simp at hlist
    rename_i mps hmps
    obtain rfl := (Option.some.inj hlist).symm
    have hlen : mps.length
        = (UInt16.ofNat (mqueueSize cb.membersq).toNat).toNat := by
      rw [← mqueuePeeks_length hpeeks, mapM_id_eq_some hmps, List.length_map]
    refine ⟨⟨q, rfl⟩, ?_⟩
    simp only [Option.getD_some, List.length_map, hlen, ackCount, hack, if_true,
      UInt16.toNat_ofNat']
  · rename_i hack
    obtain rfl := Option.some.inj h
    refine ⟨⟨_, rfl⟩, ?_⟩
    simp only [ackCount, hack, Bool.false_eq_true, if_false]
    rfl

/-- The bytes `send_hbeat` passes to `sendto`. -/
def hbeatBytes (h : Host) (self : RmcMember) (hname : Option (List UInt8))
    (acks : Option (List (UInt32 × UInt32))) (flags : UInt16) (m : RmcMsg) : List UInt8 :=
  readBytes (hbeatFill h self hname acks none flags m).1.buf 0
    (sizeT (sizeofHdr + sizeofHbeat + (hbeatFill h self hname acks none flags m).2))

theorem hbeatBytes_eq (h : Host) (self : RmcMember) (hname : Option (List UInt8))
    (acks : Option (List (UInt32 × UInt32))) (flags : UInt16) (m : RmcMsg)
    (hfit : sizeofHdr + sizeofHbeat + hbeatOffset acks < 4294967296) :
    hbeatBytes h self hname acks flags m = (hbeatDgram (m.buf 0) self hname acks flags).bytes := by
  have hbytes := begins_iff.mp (begins_hbeatFill h self hname acks flags m)
  have hbody : (hbeatDgram (m.buf 0) self hname acks flags).body.length
      = sizeofHbeat + hbeatOffset acks := by
    simp only [hbeatDgram, List.length_append, HbeatFields.bytes_length, hbeatTail_length]
  rw [hbody, ← Nat.add_assoc] at hbytes
  have hsize : sizeT ((sizeofHdr : Int) + (sizeofHbeat : Nat) + (hbeatOffset acks : Nat))
      = sizeofHdr + sizeofHbeat + hbeatOffset acks :=
    sizeT_natCast (n := sizeofHdr + sizeofHbeat + hbeatOffset acks) hfit
  rw [hbeatBytes, hbeatFill_offset, hsize, hbytes]

theorem hbeatEmit_sent (h : Host) (hname : Option (List UInt8)) (flags : UInt16) (p : Nat)
    (acks : Option (List (UInt32 × UInt32))) (cb : RmcCtrlBlock) :
    (hbeatEmit h hname none flags p acks cb).sent
      = cb.sent ++ [⟨.mcast, hbeatBytes h cb.self hname acks flags (cb.msgs p), false⟩] := by
  simp only [hbeatEmit, releaseMsg, RmcCtrlBlock.sendto, RmcCtrlBlock.setMsg,
    Function.update_self, hbeatBytes]

/-- A heartbeat multicasts its datagram, with the version byte that its
buffer holds. -/
theorem sendHbeat_sent (h : Host) (hname : Option (List UInt8)) (flags : UInt16)
    {cb cb' : RmcCtrlBlock} (hs : sendHbeat h hname none flags cb = some cb') :
    ∃ v acks, v = ((allocMsg cb).1.msgs (allocMsg cb).2).buf 0
      ∧ (acks.getD []).length = ackCount cb % 65536
      ∧ cb'.sent = cb.sent ++ [⟨.mcast, (hbeatDgram v cb.self hname acks flags).bytes, false⟩]
      ∧ cb'.self = cb.self := by
  obtain ⟨hself, hsent, hqueue, -, hack⟩ := allocMsg_frame cb
  simp only [sendHbeat] at hs
  obtain ⟨⟨cb₁, acks⟩, hacks, hcode⟩ := Option.map_eq_some_iff.mp hs
  obtain ⟨⟨q, hframe⟩, hcount⟩ := hbeatAckPart_spec hacks
  simp only at hframe hcount hcode
  have hcount' : ackCount (allocMsg cb).1 = ackCount cb := by
    rw [ackCount, hqueue, hack, ackCount]
  have hemit := hbeatEmit_sent h hname flags (allocMsg cb).2 acks cb₁
  rw [hbeatBytes_eq _ _ _ _ _ _
    (by simp only [hbeatOffset, sizeofHdr, sizeofHbeat, sizeofLong]; omega)] at hemit
  obtain ⟨o, b, s, hpurge⟩ := purge_frame
    (hbeatMarks (hbeatEmit h hname none flags (allocMsg cb).2 acks cb₁)).hbSeqP3
    (hbeatMarks (hbeatEmit h hname none flags (allocMsg cb).2 acks cb₁))
  rw [hpurge] at hcode
  have hself₁ : cb₁.self = cb.self := by
    rw [hframe]
    exact hself
  have hsent₁ : cb₁.sent = cb.sent := by
    rw [hframe]
    exact hsent
  rw [hself₁, hsent₁] at hemit
  subst hcode
  refine ⟨_, acks, ?_, hcount'.symm ▸ hcount, hemit, hself₁⟩
  rw [hframe]

/-! ## Acknowledgements -/

/-- What the ack branch may change: the cursor of `membersq`, its own
`sequence_sync`, and what is kept for retransmission. -/
theorem ackBranch_eq {cb cb' : RmcCtrlBlock} (h : ackBranch cb = some cb') :
    ∃ q sync o b s, cb' = { cb with
      membersq := q, self := { cb.self with sequenceSync := sync }
      outmsgbuf := o, bufmsgq := b, oldestSeq := s } := by
  unfold ackBranch at h
  split at h
  · split at h
    · cases h
    split at h
    · cases h
    rename_i q cs _ _ mps _
    obtain ⟨o, b, s, hpurge⟩ := purge_frame (ackSync cb.mems mps cb.self.sequenceSync)
      { cb with membersq := q,
                self := { cb.self with
                  sequenceSync := ackSync cb.mems mps cb.self.sequenceSync } }
    exact ⟨q, _, o, b, s, (Option.some.inj h).symm.trans hpurge⟩
  · exact ⟨_, _, _, _, _, (Option.some.inj h).symm⟩

/-- The ack branch leaves the sender's numbering alone. -/
theorem ackBranch_frame {cb cb' : RmcCtrlBlock} (h : ackBranch cb = some cb') :
    cb'.self.sequence = cb.self.sequence ∧ cb'.self.id = cb.self.id
      ∧ cb'.self.session = cb.self.session := by
  obtain ⟨q, sync, o, b, s, rfl⟩ := ackBranch_eq h
  exact ⟨rfl, rfl, rfl⟩

end Rms.V01
