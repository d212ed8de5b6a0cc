/-
Rms.V01.HbeatTheorems — what the HBEAT handler makes of a heartbeat.

The handler converts three fields of the structure in place, finds or
makes the member, and updates it (`hbeatUpdate`). `hbeatMsg_new` and
`hbeatMsg_same` are its specification for a peer that is not registered
and for a member whose session goes on.
-/
import Rms.V01.DataTheorems

namespace Rms.V01

open Rms.ByteMem Rms.Util

/-! ## Conversions in place -/

/-- The first conversions write only to the fields `namelen`, `flags` and
`session`. -/
theorem hbeatDecode_buf (e : Endian) (m : RmcMsg) {i : Nat} (hi : i < 16 ∨ 24 ≤ i) :
    (hbeatDecode e m).buf i = m.buf i := by
  have hframe : ∀ (b : Mem) (off : Nat) (bs : List UInt8), 16 ≤ off → off + bs.length ≤ 24 →
      writeBytes b off bs i = b i := by
    intro b off bs hlo hhi
    rcases hi with hi | hi
    · exact writeBytes_below b bs (by omega)
    · exact writeBytes_above b bs (by omega)
  simp only [hbeatDecode, RmcMsg.setHbeatNamelen, RmcMsg.setHbeatFlags, RmcMsg.setHbeatSession,
    RmcMsg.setBuf, store16, store32]
  rw [hframe _ _ _ (by omega) (by simp), hframe _ _ _ (by omega) (by simp),
    hframe _ _ _ (by omega) (by simp)]

theorem hbeatDecode_header (e : Endian) (m : RmcMsg) :
    (hbeatDecode e m).hdrType = m.hdrType
      ∧ (hbeatDecode e m).hdrSequence e = m.hdrSequence e
      ∧ (hbeatDecode e m).hdrId e = m.hdrId e := by
  refine ⟨?_, ?_, ?_⟩
  · rw [RmcMsg.hdrType, RmcMsg.hdrType, hbeatDecode_buf e m (by omega)]
  · exact load32_congr e fun i hlo hhi => hbeatDecode_buf e m (by omega)
  · exact load32_congr e fun i hlo hhi => hbeatDecode_buf e m (by omega)

/-- The three converted fields read as numbers. -/
theorem hbeatDecode_fields (e : Endian) {m : RmcMsg} {f : HbeatFields} {tail : List UInt8}
    (h : HbeatAt m.buf f tail) :
    (hbeatDecode e m).hbeatNamelen e = f.namelen
      ∧ (hbeatDecode e m).hbeatFlags e = f.flags
      ∧ (hbeatDecode e m).hbeatSession e = f.session := by
  have hname : ntohs e (m.hbeatNamelen e) = f.namelen := by
    rw [RmcMsg.hbeatNamelen, ntohs_load16]
    exact be16At_of_readBytes h.namelen
  have hflags : ntohs e ((m.setHbeatNamelen e f.namelen).hbeatFlags e) = f.flags := by
    simp only [RmcMsg.hbeatFlags, RmcMsg.setHbeatNamelen, RmcMsg.setBuf, store16]
    rw [load16_writeBytes e _ _ (.inr (by simp)), ntohs_load16]
    exact be16At_of_readBytes h.flags
  have hsess : ntohl e (((m.setHbeatNamelen e f.namelen).setHbeatFlags e f.flags).hbeatSession e)
      = f.session := by
    simp only [RmcMsg.hbeatSession, RmcMsg.setHbeatNamelen, RmcMsg.setHbeatFlags, RmcMsg.setBuf,
      store16]
    rw [load32_writeBytes e _ _ (.inr (by simp)), load32_writeBytes e _ _ (.inr (by simp)),
      ntohl_load32]
    exact be32At_of_readBytes h.session
  have hdec : hbeatDecode e m = ((m.setHbeatNamelen e f.namelen).setHbeatFlags e
      f.flags).setHbeatSession e f.session := by
    simp only [hbeatDecode, hname, hflags, hsess]
  rw [hdec]
  refine ⟨?_, ?_, load32_store32 e _ _ _⟩
  · simp only [RmcMsg.hbeatNamelen, RmcMsg.setHbeatNamelen, RmcMsg.setHbeatFlags,
      RmcMsg.setHbeatSession, RmcMsg.setBuf, store32]
    rw [load16_writeBytes e _ _ (.inl (by omega)), store16,
      load16_writeBytes e _ _ (.inl (by omega))]
    exact load16_store16 e _ _ _
  · simp only [RmcMsg.hbeatFlags, RmcMsg.setHbeatFlags, RmcMsg.setHbeatSession, RmcMsg.setBuf,
      store32]
    rw [load16_writeBytes e _ _ (.inl (by omega))]
    exact load16_store16 e _ _ _

/-- The session is what the message says in network order. -/
theorem hbeatDecode_session (e : Endian) (m : RmcMsg) :
    (hbeatDecode e m).hbeatSession e = be32At m.buf 20 := by
  refine (load32_store32 e _ _ _).trans ?_
  simp only [RmcMsg.hbeatSession, RmcMsg.setHbeatNamelen, RmcMsg.setHbeatFlags, RmcMsg.setBuf,
    store16]
  rw [load32_writeBytes e _ _ (.inr (by simp)), load32_writeBytes e _ _ (.inr (by simp)),
    ntohl_load32]

/-- The last conversions write only to the fields `acks` and `pgback`. -/
theorem hbeatDecodeTail_buf (e : Endian) (m : RmcMsg) {i : Nat} (hi : i < 24 ∨ 28 ≤ i) :
    (hbeatDecodeTail e m).buf i = m.buf i := by
  have hacks : ∀ (m : RmcMsg) (w : UInt16), (m.setHbeatAcks e w).buf i = m.buf i := by
    intro m w
    rcases hi with hi | hi
    · exact writeBytes_below _ _ hi
    · exact writeBytes_above _ _ (by simp; omega)
  have hpg : ∀ (m : RmcMsg) (w : UInt16), (m.setHbeatPgback e w).buf i = m.buf i := by
    intro m w
    rcases hi with hi | hi
    · exact writeBytes_below _ _ (by omega)
    · exact writeBytes_above _ _ (by simp; omega)
  simp only [hbeatDecodeTail]
  split
  · split
    · rw [hpg, hacks]
    · rw [hacks]
  · split
    · rw [hpg]
    · rfl

theorem hbeatDecodeTail_hdrSequence (e : Endian) (m : RmcMsg) :
    (hbeatDecodeTail e m).hdrSequence e = m.hdrSequence e :=
  load32_congr e fun i hlo hhi => hbeatDecodeTail_buf e m (by omega)

theorem hbeatDecodeTail_flags (e : Endian) (m : RmcMsg) :
    (hbeatDecodeTail e m).hbeatFlags e = m.hbeatFlags e :=
  load16_congr e fun i hlo hhi => hbeatDecodeTail_buf e m (by omega)

/-! ## The handler -/

/-- The member a heartbeat is from, with its update applied. -/
def hbeatApply (h : Host) (p : Nat) (r : RmcCtrlBlock × Nat) : RmcCtrlBlock :=
  (r.1.setMem r.2 (hbeatUpdate h.endian (r.1.msgs p) r.1.self.id (r.1.mems r.2))).setMsg p
    (hbeatDecodeTail h.endian (r.1.msgs p))

theorem hbeatApply_frame (h : Host) (p : Nat) (r : RmcCtrlBlock × Nat) :
    (hbeatApply h p r).members = r.1.members ∧ (hbeatApply h p r).ipcOut = r.1.ipcOut
      ∧ (hbeatApply h p r).sent = r.1.sent := by
  simp only [hbeatApply, RmcCtrlBlock.setMem, RmcCtrlBlock.setMsg, and_self]

theorem hbeatMsg_eq (h : Host) (p : Nat) (cb : RmcCtrlBlock) :
    hbeatMsg h p cb = releaseMsg (hbeatGap h
      (hbeatMember h p (cb.setMsg p (hbeatDecode h.endian (cb.msgs p)))).2 p
      (hbeatApply h p (hbeatMember h p (cb.setMsg p (hbeatDecode h.endian (cb.msgs p)))))) p := rfl

/-! The member a heartbeat is from, in the three cases of the lookup. -/

section Lookup

variable {h : Host} {p mp : Nat} {cb : RmcCtrlBlock}

theorem hbeatMember_new (hnew : htblGet cb.members ((cb.msgs p).hdrId h.endian) = none) :
    hbeatMember h p (cb.setMsg p (hbeatDecode h.endian (cb.msgs p)))
      = registerMember (hbeatNewMember h.endian (hbeatDecode h.endian (cb.msgs p)))
          (cb.setMsg p (hbeatDecode h.endian (cb.msgs p))) := by
  unfold hbeatMember
  rw [RmcCtrlBlock.setMsg_self, (hbeatDecode_header h.endian (cb.msgs p)).2.2]
  simp only [RmcCtrlBlock.setMsg, hnew]

theorem hbeatMember_same (hk : htblGet cb.members ((cb.msgs p).hdrId h.endian) = some mp)
    (hsess : (hbeatDecode h.endian (cb.msgs p)).hbeatSession h.endian = (cb.mems mp).session) :
    hbeatMember h p (cb.setMsg p (hbeatDecode h.endian (cb.msgs p)))
      = (cb.setMsg p (hbeatDecode h.endian (cb.msgs p)), mp) := by
  unfold hbeatMember
  rw [RmcCtrlBlock.setMsg_self, (hbeatDecode_header h.endian (cb.msgs p)).2.2]
  simp only [RmcCtrlBlock.setMsg, hk, hsess, ne_eq, not_true_eq_false, if_false]

theorem hbeatMember_restart (hk : htblGet cb.members ((cb.msgs p).hdrId h.endian) = some mp)
    (hsess : (hbeatDecode h.endian (cb.msgs p)).hbeatSession h.endian ≠ (cb.mems mp).session) :
    hbeatMember h p (cb.setMsg p (hbeatDecode h.endian (cb.msgs p)))
      = ((cb.setMsg p (hbeatDecode h.endian (cb.msgs p))).setMem mp (hbeatNewSession h.endian
          (hbeatDecode h.endian (cb.msgs p)) (cb.mems mp)), mp) := by
  unfold hbeatMember
  rw [RmcCtrlBlock.setMsg_self, (hbeatDecode_header h.endian (cb.msgs p)).2.2]
  simp only [RmcCtrlBlock.setMsg, hk, hsess, ne_eq, not_false_eq_true, if_true]

end Lookup

/-- What a heartbeat cannot change in its member. -/
theorem hbeatUpdate_sequence (e : Endian) (msg : RmcMsg) (selfId : UInt32) (mem : RmcMember) :
    (hbeatUpdate e msg selfId mem).sequence = mem.sequence
      ∧ (hbeatUpdate e msg selfId mem).session = mem.session
      ∧ (hbeatUpdate e msg selfId mem).hostname = mem.hostname
      ∧ (hbeatUpdate e msg selfId mem).unseqMsgs = mem.unseqMsgs := by
  unfold hbeatUpdate
  simp only
  split
  · split <;> exact ⟨rfl, rfl, rfl, rfl⟩
  · exact ⟨rfl, rfl, rfl, rfl⟩

/-- No gap, no NACK. -/
theorem hbeatGap_none (h : Host) {mp p : Nat} {cb : RmcCtrlBlock}
    (hgap : (cb.mems mp).sequence + 1 ≠ (cb.msgs p).hdrSequence h.endian →
      ¬ (cb.mems mp).sequence < (cb.msgs p).hdrSequence h.endian) :
    hbeatGap h mp p cb = cb := by
  unfold hbeatGap
  split
  · rename_i hne
    rw [if_neg (hgap hne)]
  · rfl

/-- The gap check leaves the member's place in the sequence alone. -/
theorem hbeatGap_receiver (h : Host) (mp p : Nat) (cb : RmcCtrlBlock) :
    ((hbeatGap h mp p cb).mems mp).sequence = (cb.mems mp).sequence
      ∧ ((hbeatGap h mp p cb).mems mp).unseqMsgs = (cb.mems mp).unseqMsgs
      ∧ (hbeatGap h mp p cb).ipcOut = cb.ipcOut
      ∧ (hbeatGap h mp p cb).members = cb.members
      ∧ ((hbeatGap h mp p cb).mems mp).session = (cb.mems mp).session := by
  unfold hbeatGap
  split
  · split
    · exact sendNack_receiver h mp p cb
    · exact ⟨rfl, rfl, rfl, rfl, rfl⟩
  · exact ⟨rfl, rfl, rfl, rfl, rfl⟩

/-- The heartbeat of a peer that is not registered: the member it makes,
updated, is registered under its id, and nothing is sent. -/
theorem hbeatMsg_new (h : Host) {p : Nat} {cb : RmcCtrlBlock}
    (hnew : htblGet cb.members ((cb.msgs p).hdrId h.endian) = none) :
    htblGet (hbeatMsg h p cb).members ((cb.msgs p).hdrId h.endian) = some cb.nmems
      ∧ (hbeatMsg h p cb).mems cb.nmems = hbeatUpdate h.endian (hbeatDecode h.endian (cb.msgs p))
          cb.self.id (hbeatNewMember h.endian (hbeatDecode h.endian (cb.msgs p)))
      ∧ (hbeatMsg h p cb).msgs p = hbeatDecodeTail h.endian (hbeatDecode h.endian (cb.msgs p))
      ∧ (hbeatMsg h p cb).ipcOut = cb.ipcOut
      ∧ (hbeatMsg h p cb).sent = cb.sent := by
  have hid := (hbeatDecode_header h.endian (cb.msgs p)).2.2
  rw [hbeatMsg_eq, hbeatMember_new hnew]
  -- from here on it does not matter how the buffer was decoded
  generalize hbeatDecode h.endian (cb.msgs p) = msg at hid ⊢
  have hmem : (hbeatApply h p (registerMember (hbeatNewMember h.endian msg)
        (cb.setMsg p msg))).mems cb.nmems
      = hbeatUpdate h.endian msg cb.self.id (hbeatNewMember h.endian msg) := by
    simp only [hbeatApply, registerMember, RmcCtrlBlock.setMem, RmcCtrlBlock.setMsg,
      Function.update_self]
  have hmsg : (hbeatApply h p (registerMember (hbeatNewMember h.endian msg)
        (cb.setMsg p msg))).msgs p = hbeatDecodeTail h.endian msg := by
    simp only [hbeatApply, registerMember, RmcCtrlBlock.setMem, RmcCtrlBlock.setMsg,
      Function.update_self]
  rw [show (registerMember (hbeatNewMember h.endian msg) (cb.setMsg p msg)).2 = cb.nmems from rfl,
    hbeatGap_none]
  · have hput : (hbeatNewMember h.endian msg).id = (cb.msgs p).hdrId h.endian := hid
    simp only [releaseMsg, hmem, hmsg]
    simp only [hbeatApply, registerMember, RmcCtrlBlock.setMem, RmcCtrlBlock.setMsg, hput,
      htblPut_of_none _ hnew, htblGet_insert, if_true, and_self]
  · -- the member was just set to the number before the heartbeat's
    intro hne
    refine absurd ?_ hne
    rw [hmem, hmsg, (hbeatUpdate_sequence _ _ _ _).1, hbeatDecodeTail_hdrSequence]
    exact UInt32.sub_add_cancel _ _

/-- The heartbeat of a member whose session goes on: only the lost counter
and the acknowledged number change in the member, and if the heartbeat's
number is not ahead nothing is sent. -/
theorem hbeatMsg_same (h : Host) {p mp : Nat} {cb : RmcCtrlBlock}
    (hk : htblGet cb.members ((cb.msgs p).hdrId h.endian) = some mp)
    (hsess : (hbeatDecode h.endian (cb.msgs p)).hbeatSession h.endian = (cb.mems mp).session) :
    (hbeatMsg h p cb).members = cb.members
      ∧ ((hbeatMsg h p cb).mems mp).sequence = (cb.mems mp).sequence
      ∧ ((hbeatMsg h p cb).mems mp).session = (cb.mems mp).session
      ∧ ((hbeatMsg h p cb).mems mp).unseqMsgs = (cb.mems mp).unseqMsgs
      ∧ (hbeatMsg h p cb).ipcOut = cb.ipcOut
      ∧ (((cb.mems mp).sequence + 1 ≠ (cb.msgs p).hdrSequence h.endian →
            ¬ (cb.mems mp).sequence < (cb.msgs p).hdrSequence h.endian) →
          (hbeatMsg h p cb).sent = cb.sent) := by
  have hseq := (hbeatDecode_header h.endian (cb.msgs p)).2.1
  rw [hbeatMsg_eq, hbeatMember_same hk hsess]
  generalize hbeatDecode h.endian (cb.msgs p) = msg at hseq ⊢
  have hmem : (hbeatApply h p (cb.setMsg p msg, mp)).mems mp
      = hbeatUpdate h.endian msg cb.self.id (cb.mems mp) := by
    simp only [hbeatApply, RmcCtrlBlock.setMem, RmcCtrlBlock.setMsg, Function.update_self]
  have hmsg : (hbeatApply h p (cb.setMsg p msg, mp)).msgs p = hbeatDecodeTail h.endian msg := by
    simp only [hbeatApply, RmcCtrlBlock.setMem, RmcCtrlBlock.setMsg, Function.update_self]
  obtain ⟨hus, huss, -, huc⟩ := hbeatUpdate_sequence h.endian msg cb.self.id (cb.mems mp)
  obtain ⟨hgs, hgc, hgo, hgm, hgss⟩ := hbeatGap_receiver h mp p
    (hbeatApply h p (cb.setMsg p msg, mp))
  rw [hmem] at hgs hgc hgss
  obtain ⟨hmembers, hout, hsent⟩ := hbeatApply_frame h p (cb.setMsg p msg, mp)
  simp only [releaseMsg]
  refine ⟨hgm.trans hmembers, hgs.trans hus, hgss.trans huss, hgc.trans huc, hgo.trans hout, ?_⟩
  intro hgap
  rw [hbeatGap_none]
  · exact hsent
  · rw [hmem, hmsg, hus, hbeatDecodeTail_hdrSequence, hseq]
    exact hgap

theorem SizesIn.hbeatMember {P : Nat → Prop} {cb : RmcCtrlBlock} (h : SizesIn P cb) (host : Host) (p : Nat) :
    SizesIn P (hbeatMember host p cb).1 := by
  unfold V01.hbeatMember
  split
  · exact ⟨h.bufsize, h.size⟩
  · split <;> exact ⟨h.bufsize, h.size⟩

theorem hbeatDecodeTail_size (e : Endian) (m : RmcMsg) : (hbeatDecodeTail e m).size = m.size := by
  simp only [hbeatDecodeTail]
  split
  · split <;> rfl
  · split <;> rfl

theorem SizesIn.hbeatApply {P : Nat → Prop} {r : RmcCtrlBlock × Nat} (h : SizesIn P r.1)
    (host : Host) (p : Nat) : SizesIn P (hbeatApply host p r) := by
  have hset : ∀ mem, SizesIn P (r.1.setMem r.2 mem) := fun _ => ⟨h.bufsize, h.size⟩
  exact (hset _).setMsg (hbeatDecodeTail_size host.endian _)

theorem SizesIn.hbeatGap {P : Nat → Prop} {cb : RmcCtrlBlock} (h : SizesIn P cb) (host : Host)
    (mp p : Nat) : SizesIn P (hbeatGap host mp p cb) := by
  unfold V01.hbeatGap
  split
  · split
    · exact h.sendNack host mp p
    · exact h
  · exact h

theorem SizesIn.hbeatMsg {P : Nat → Prop} {cb : RmcCtrlBlock} (h : SizesIn P cb) (host : Host) (p : Nat) :
    SizesIn P (hbeatMsg host p cb) := by
  have hdec : SizesIn P (cb.setMsg p (hbeatDecode host.endian (cb.msgs p))) := h.setMsg rfl
  rw [hbeatMsg_eq]
  generalize hbeatDecode host.endian (cb.msgs p) = msg at hdec ⊢
  have hgap := ((hdec.hbeatMember host p).hbeatApply host p).hbeatGap host
    (V01.hbeatMember host p (cb.setMsg p msg)).2 p
  simp only [releaseMsg]
  exact ⟨hgap.bufsize, hgap.size⟩

theorem Roomy.hbeatMsg {n : Nat} {cb : RmcCtrlBlock} (h : Roomy n cb) (host : Host) (p : Nat) :
    Roomy n (hbeatMsg host p cb) :=
  roomy_iff.mpr ((roomy_iff.mp h).hbeatMsg host p)

/-! ## Heartbeat datagrams -/

/-- A HBEAT datagram that is as long as its header says, with the fields
of its structure. -/
structure IsHbeat (d : Datagram) (f : HbeatFields) (tail : List UInt8) : Prop where
  type : d.type = MsgType.hbeat.toByte
  length : d.length.toNat ≤ d.body.length
  body : d.body = f.bytes ++ tail

theorem hbeatAt_received (host : Host) {cb : RmcCtrlBlock} {d : Datagram} {f : HbeatFields}
    {tail : List UInt8} (hd : IsHbeat d f tail) (hf : Fits cb d) :
    HbeatAt ((received host (.ok d.bytes) cb).msgs (allocMsg cb).2).buf f tail := by
  have hbody := (holds_received host hf).body
  rw [hd.body] at hbody
  exact hbeatAt_iff.mpr hbody

theorem receive_hbeat (host : Host) (sender : SockaddrIn) {cb : RmcCtrlBlock} {d : Datagram}
    {f : HbeatFields} {tail : List UInt8} (hd : IsHbeat d f tail) (hf : Fits cb d) :
    receive host cb (sender, d)
      = some (hbeatMsg host (allocMsg cb).2 (received host (.ok d.bytes) cb)) := by
  rw [receive_whole host sender hf hd.length, dispatch, (holds_received host hf).type, hd.type,
    MsgType.ofByte_toByte]

/-- The first heartbeat of a peer registers it, one number before the
heartbeat's. -/
theorem receive_hbeat_new (host : Host) (sender : SockaddrIn) {cb : RmcCtrlBlock}
    {hand : List Nat} (h : Owned cb hand) {d : Datagram} {f : HbeatFields} {tail : List UInt8}
    (hd : IsHbeat d f tail) (hf : Fits cb d) (hnew : htblGet cb.members d.id = none) :
    ∃ cb' mp, receive host cb (sender, d) = some cb'
      ∧ (∃ hand', Owned cb' hand')
      ∧ (∀ n, Roomy n cb → Roomy n cb')
      ∧ htblGet cb'.members d.id = some mp
      ∧ (cb'.mems mp).sequence = d.sequence - 1
      ∧ (cb'.mems mp).session = f.session
      ∧ (cb'.mems mp).unseqMsgs = ∅
      ∧ cb'.ipcOut = cb.ipcOut
      ∧ cb'.sent = cb.sent := by
  have hheld := holds_received host hf
  have hdec := hbeatDecode_fields host.endian (hbeatAt_received host hd hf)
  have hhdr := hbeatDecode_header host.endian
    ((received host (.ok d.bytes) cb).msgs (allocMsg cb).2)
  obtain ⟨-, hmembers, hout, hsent⟩ := received_receiver host (.ok d.bytes) cb
  have hnew' : htblGet (received host (.ok d.bytes) cb).members
      (((received host (.ok d.bytes) cb).msgs (allocMsg cb).2).hdrId host.endian) = none := by
    rw [hmembers, hheld.id]
    exact hnew
  obtain ⟨hreg, hmem, -, hout', hsent'⟩ := hbeatMsg_new host hnew'
  obtain ⟨hus, huss, -, huc⟩ := hbeatUpdate_sequence host.endian
    (hbeatDecode host.endian ((received host (.ok d.bytes) cb).msgs (allocMsg cb).2))
    (received host (.ok d.bytes) cb).self.id (hbeatNewMember host.endian
      (hbeatDecode host.endian ((received host (.ok d.bytes) cb).msgs (allocMsg cb).2)))
  rw [hheld.id] at hreg
  refine ⟨_, _, receive_hbeat host sender hd hf,
    ⟨_, owned_hbeatMsg host (owned_received host _ h)⟩,
    fun n hn => (hn.received host _).hbeatMsg host _, hreg, ?_, ?_, ?_, hout'.trans hout,
    hsent'.trans hsent⟩
  · rw [hmem, hus]
    simp only [hbeatNewMember, hhdr.2.1, hheld.sequence]
  · rw [hmem, huss]
    exact hdec.2.2
  · rw [hmem, huc]
    rfl

/-- A later heartbeat of the same session leaves the member's place in the
sequence alone; a NACK is sent only if its number is ahead. -/
theorem receive_hbeat_same (host : Host) (sender : SockaddrIn) {cb : RmcCtrlBlock}
    {hand : List Nat} (h : Owned cb hand) {d : Datagram} {f : HbeatFields} {tail : List UInt8}
    (hd : IsHbeat d f tail) (hf : Fits cb d) {mp : Nat}
    (hk : htblGet cb.members d.id = some mp) (hsess : f.session = (cb.mems mp).session) :
    ∃ cb', receive host cb (sender, d) = some cb'
      ∧ (∃ hand', Owned cb' hand')
      ∧ (∀ n, Roomy n cb → Roomy n cb')
      ∧ cb'.members = cb.members
      ∧ (cb'.mems mp).sequence = (cb.mems mp).sequence
      ∧ (cb'.mems mp).session = (cb.mems mp).session
      ∧ (cb'.mems mp).unseqMsgs = (cb.mems mp).unseqMsgs
      ∧ cb'.ipcOut = cb.ipcOut
      ∧ (((cb.mems mp).sequence + 1 ≠ d.sequence → ¬ (cb.mems mp).sequence < d.sequence) →
          cb'.sent = cb.sent) := by
  have hheld := holds_received host hf
  have hdec := hbeatDecode_fields host.endian (hbeatAt_received host hd hf)
  obtain ⟨hmems, hmembers, hout, hsent⟩ := received_receiver host (.ok d.bytes) cb
  have hk' : htblGet (received host (.ok d.bytes) cb).members
      (((received host (.ok d.bytes) cb).msgs (allocMsg cb).2).hdrId host.endian) = some mp := by
    rw [hmembers, hheld.id]
    exact hk
  have hsess' : (hbeatDecode host.endian ((received host (.ok d.bytes) cb).msgs
      (allocMsg cb).2)).hbeatSession host.endian
      = ((received host (.ok d.bytes) cb).mems mp).session := by
    rw [hdec.2.2, hmems]
    exact hsess
  obtain ⟨hm, hs, hss, hc, ho, hno⟩ := hbeatMsg_same host hk' hsess'
  rw [hmems] at hs hss hc hno
  rw [hheld.sequence] at hno
  exact ⟨_, receive_hbeat host sender hd hf, ⟨_, owned_hbeatMsg host (owned_received host _ h)⟩,
    fun n hn => (hn.received host _).hbeatMsg host _, hm.trans hmembers, hs, hss, hc, ho.trans hout,
    fun hgap => (hno hgap).trans hsent⟩

end Rms.V01
