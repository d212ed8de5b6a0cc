/-
Rms.V01.DataTheorems — the DATA handler refines the reassembly machine.

`memberView` reads a member's `Reassembly` state out of the control
block, following the pointers in its cache to the message buffers. The
handler commutes with it (`dataMsg_refines`): one DATA message of the
member is one `arrive`, and the records it writes on `ipc_sock` are the
messages handed over. That the view of a cached message is stable is
where ownership comes in: the NACK that the handler sends meanwhile is
built in a buffer that nobody uses.

`receive` is the whole path of a datagram through the daemon, and
`receive_data` its specification for DATA datagrams of a member.
-/
import Rms.V01.PoolTheorems
import Rms.V01.ReassemblyTheorems

namespace Rms.V01

open Rms.ByteMem Rms.Util Rms.Runs Rms.Serial

/-! ## Owned buffers are in use -/

/-- A buffer in hand or stored in a table is not free. -/
theorem Owned.inUse {cb : RmcCtrlBlock} {hand : List Nat} (h : Owned cb hand) {q : Nat}
    (hq : q ∈ hand ∨ q ∈ htblValues cb.outmsgbuf ∨ q ∈ cachedMsgs cb) : InUse cb q := by
  have hcount := h.count q
  have hone : (List.range cb.nmsgs).count q ≤ 1 :=
    List.nodup_iff_count_le_one.mp List.nodup_range q
  simp only [places, List.count_append] at hcount
  have hrest : 0 < (htblValues cb.outmsgbuf).count q + (cachedMsgs cb).count q + hand.count q := by
    rcases hq with hq | hq | hq
    · have := List.count_pos_iff.mpr hq
      omega
    · have := List.count_pos_iff.mpr hq
      omega
    · have := List.count_pos_iff.mpr hq
      omega
  refine ⟨?_, ?_⟩
  · have hmem : q ∈ List.range cb.nmsgs := List.count_pos_iff.mp (by omega)
    exact List.mem_range.mp hmem
  · intro hfree
    have := List.count_pos_iff.mpr hfree
    omega

theorem mem_cachedMsgs {cb : RmcCtrlBlock} {k : UInt32} {mp q : Nat}
    (hk : htblGet cb.members k = some mp) (hq : q ∈ htblValues (cb.mems mp).unseqMsgs) :
    q ∈ cachedMsgs cb :=
  List.mem_flatMap.mpr ⟨mp, mem_htblValues.mpr ⟨k, hk⟩, hq⟩

/-! ## Messages and members as values -/

/-- What a message buffer says to the client. -/
structure MsgView where
  payload : List UInt8
  sequence : UInt32
  id : UInt32
  deriving DecidableEq, Repr

def msgView (e : Endian) (m : RmcMsg) : MsgView :=
  ⟨m.payload e, m.hdrSequence e, m.hdrId e⟩

/-- The record written for a message that is handed over. -/
def record (e : Endian) (sender : SockaddrIn) : Handed MsgView → IpcRecord
  | .direct v =>
      ⟨ipcMetadata e (UInt32.ofNat v.payload.length) sender, v.payload, v.sequence, v.id⟩
  | .released v => ⟨enc32 e (UInt32.ofNat v.payload.length), v.payload, v.sequence, v.id⟩

/-- The reassembly state of a member. -/
def memberView (e : Endian) (cb : RmcCtrlBlock) (mp : Nat) : Reassembly MsgView :=
  ⟨(cb.mems mp).sequence, htblMap (fun q => msgView e (cb.msgs q)) (cb.mems mp).unseqMsgs⟩

/-- The send loop puts out the message's data, whatever each `send` takes. -/
theorem sendLoop_eq (h : Host) (buf : Mem) (nfound rounds : Nat) :
    ∀ ret, ret ≤ nfound → nfound - ret ≤ rounds →
      sendLoop h buf nfound rounds ret = readBytes buf (sizeofHdr + ret) (nfound - ret) := by
  induction rounds with
  | zero =>
    intro ret hle hrounds
    rw [show nfound - ret = 0 by omega]
    rfl
  | succ n ih =>
    intro ret hle hrounds
    simp only [sendLoop]
    split
    · rename_i hlt
      have hsent : min (h.grain ret + 1) (nfound - ret) ≤ nfound - ret := Nat.min_le_right ..
      have hpos : 0 < min (h.grain ret + 1) (nfound - ret) := by omega
      rw [ih _ (by omega) (by omega), ← Nat.add_assoc, ← readBytes_add]
      congr 1
      omega
    · rw [show nfound - ret = 0 by omega]
      rfl

theorem sendLoop_payload (h : Host) (m : RmcMsg) :
    sendLoop h m.buf (m.hdrLength h.endian).toNat (m.hdrLength h.endian).toNat 0
      = m.payload h.endian :=
  sendLoop_eq h m.buf _ _ 0 (Nat.zero_le _) (Nat.le_refl _)

theorem payload_length (e : Endian) (m : RmcMsg) :
    UInt32.ofNat (m.payload e).length = (m.hdrLength e).toUInt32 := by
  apply UInt32.toNat_inj.mp
  have hlt := (m.hdrLength e).toNat_lt
  simp only [RmcMsg.payload, readBytes_length, UInt32.toNat_ofNat', UInt16.toNat_toUInt32]
  omega

/-! ## Refinement -/

theorem releaseCached_refines (h : Host) (sender : SockaddrIn) (mp n : Nat) :
    ∀ cb : RmcCtrlBlock,
      memberView h.endian (releaseCached h mp n cb) mp
          = (release n (memberView h.endian cb mp)).1
        ∧ (releaseCached h mp n cb).ipcOut = cb.ipcOut
            ++ ((release n (memberView h.endian cb mp)).2.map .released).map
                (record h.endian sender)
        ∧ (releaseCached h mp n cb).members = cb.members := by
  induction n with
  | zero =>
    intro cb
    exact ⟨rfl, (List.append_nil _).symm, rfl⟩
  | succ n ih =>
    intro cb
    have hmap := htblRemove_map (fun q => msgView h.endian (cb.msgs q))
      (cb.mems mp).unseqMsgs (cb.mems mp).sequence
    cases hrem : htblRemove (cb.mems mp).unseqMsgs (cb.mems mp).sequence with
    | none =>
      rw [hrem] at hmap
      have hcode : releaseCached h mp (n + 1) cb = cb := by
        simp only [releaseCached, hrem]
      have habs : release (n + 1) (memberView h.endian cb mp)
          = (memberView h.endian cb mp, []) := by
        simp only [release, memberView, hmap, Option.map_none]
      rw [hcode, habs]
      exact ⟨rfl, (List.append_nil _).symm, rfl⟩
    | some pt =>
      obtain ⟨p, t⟩ := pt
      rw [hrem] at hmap
      have hcode : releaseCached h mp (n + 1) cb = releaseCached h mp n
          ((deliver h (enc32 h.endian ((cb.msgs p).hdrLength h.endian).toUInt32) p cb).setMem mp
            { cb.mems mp with unseqMsgs := t, sequence := (cb.mems mp).sequence + 1 }) := by
        simp only [releaseCached, hrem]
      have hview : memberView h.endian
          ((deliver h (enc32 h.endian ((cb.msgs p).hdrLength h.endian).toUInt32) p cb).setMem mp
            { cb.mems mp with unseqMsgs := t, sequence := (cb.mems mp).sequence + 1 }) mp
          = ⟨(cb.mems mp).sequence + 1, htblMap (fun q => msgView h.endian (cb.msgs q)) t⟩ := by
        simp only [memberView, RmcCtrlBlock.setMem, Function.update_self, deliver]
      have habs : release (n + 1) (memberView h.endian cb mp)
          = ((release n ⟨(cb.mems mp).sequence + 1,
                htblMap (fun q => msgView h.endian (cb.msgs q)) t⟩).1,
              msgView h.endian (cb.msgs p) :: (release n ⟨(cb.mems mp).sequence + 1,
                htblMap (fun q => msgView h.endian (cb.msgs q)) t⟩).2) := by
        simp only [release, memberView, hmap, Option.map_some]
      obtain ⟨ihv, iho, ihm⟩ := ih
        ((deliver h (enc32 h.endian ((cb.msgs p).hdrLength h.endian).toUInt32) p cb).setMem mp
          { cb.mems mp with unseqMsgs := t, sequence := (cb.mems mp).sequence + 1 })
      rw [hview] at ihv iho
      rw [hcode, habs, ihv, iho, ihm]
      refine ⟨rfl, ?_, rfl⟩
      simp only [deliver, RmcCtrlBlock.setMem, sendLoop_payload, List.map_cons, record,
        payload_length, msgView, List.append_assoc, List.cons_append, List.nil_append]

/-- `alloc_msg` leaves the receiver's half alone. -/
theorem allocMsg_receiver (cb : RmcCtrlBlock) :
    (allocMsg cb).1.mems = cb.mems ∧ (allocMsg cb).1.members = cb.members
      ∧ (allocMsg cb).1.ipcOut = cb.ipcOut ∧ (allocMsg cb).1.sent = cb.sent := by
  obtain ⟨b, n, f, halloc⟩ := allocMsg_eq cb
  rw [halloc]
  exact ⟨rfl, rfl, rfl, rfl⟩

/-- `send_nack` only counts in the member. -/
theorem sendNack_receiver (h : Host) (mp p : Nat) (cb : RmcCtrlBlock) :
    ((sendNack h mp p cb).mems mp).sequence = (cb.mems mp).sequence
      ∧ ((sendNack h mp p cb).mems mp).unseqMsgs = (cb.mems mp).unseqMsgs
      ∧ (sendNack h mp p cb).ipcOut = cb.ipcOut
      ∧ (sendNack h mp p cb).members = cb.members
      ∧ ((sendNack h mp p cb).mems mp).session = (cb.mems mp).session := by
  simp only [sendNack, RmcCtrlBlock.sendto, RmcCtrlBlock.setMsg, RmcCtrlBlock.setMem,
    Function.update_self, and_self]

/-- Caching a message and sending the NACK. -/
theorem dataAhead_spec (h : Host) (mp p : Nat) (cb : RmcCtrlBlock) :
    ((dataAhead h mp p cb).mems mp).sequence = (cb.mems mp).sequence
      ∧ ((dataAhead h mp p cb).mems mp).unseqMsgs
          = htblPut (cb.mems mp).unseqMsgs ((cb.msgs p).hdrSequence h.endian) p
      ∧ (dataAhead h mp p cb).ipcOut = cb.ipcOut
      ∧ (dataAhead h mp p cb).members = cb.members := by
  obtain ⟨hmems, hmembers, hout, -⟩ := allocMsg_receiver (cacheMsg h mp p cb)
  have hnack := sendNack_receiver h mp (allocMsg (cacheMsg h mp p cb)).2
    (allocMsg (cacheMsg h mp p cb)).1
  have hmem : (cacheMsg h mp p cb).mems mp = { cb.mems mp with
      unseqMsgs := htblPut (cb.mems mp).unseqMsgs ((cb.msgs p).hdrSequence h.endian) p } :=
    Function.update_self ..
  rw [hmems, hmem, hmembers, hout] at hnack
  exact ⟨hnack.1, hnack.2.1, hnack.2.2.1, hnack.2.2.2.1⟩

/-- A DATA message of a member is one arrival at its machine. -/
theorem dataMsg_refines (host : Host) (sender : SockaddrIn) {p mp : Nat} {cb : RmcCtrlBlock}
    {hand : List Nat} (h : Owned cb (p :: hand))
    (hk : htblGet cb.members ((cb.msgs p).hdrId host.endian) = some mp) :
    memberView host.endian (dataMsg host sender p cb) mp
        = (arrive MsgView.sequence (memberView host.endian cb mp)
            (msgView host.endian (cb.msgs p))).1
      ∧ (dataMsg host sender p cb).ipcOut = cb.ipcOut
          ++ (arrive MsgView.sequence (memberView host.endian cb mp)
              (msgView host.endian (cb.msgs p))).2.map (record host.endian sender)
      ∧ (dataMsg host sender p cb).members = cb.members := by
  have hseq : (memberView host.endian cb mp).sequence = (cb.mems mp).sequence := rfl
  have hnum : (msgView host.endian (cb.msgs p)).sequence
      = (cb.msgs p).hdrSequence host.endian := rfl
  unfold dataMsg arrive
  rw [hk, hseq, hnum]
  simp only
  split
  · split
    · -- ahead: the cached buffers and this one keep their bytes
      obtain ⟨hs, hu, ho, hm⟩ := dataAhead_spec host mp p cb
      refine ⟨?_, ?_, hm⟩
      · have hput := htblMap_put (fun q => msgView host.endian (cb.msgs q))
          (cb.mems mp).unseqMsgs ((cb.msgs p).hdrSequence host.endian) p
        simp only [memberView]
        rw [hs, hu, ← hput]
        congr 1
        apply htblMap_congr
        intro q hq
        have hinUse : InUse cb q := by
          obtain ⟨k, hget⟩ := mem_htblValues.mp hq
          cases hc : htblGet (cb.mems mp).unseqMsgs ((cb.msgs p).hdrSequence host.endian) with
          | some c =>
            rw [htblPut_of_some p hc] at hget
            exact h.inUse (.inr (.inr (mem_cachedMsgs hk (mem_htblValues.mpr ⟨k, hget⟩))))
          | none =>
            rw [htblPut_of_none p hc, htblGet_insert] at hget
            split at hget
            · obtain rfl := Option.some.inj hget
              exact h.inUse (.inl (List.mem_cons_self ..))
            · exact h.inUse (.inr (.inr (mem_cachedMsgs hk (mem_htblValues.mpr ⟨k, hget⟩))))
        rw [dataAhead_msgs host mp p hinUse]
      · rw [ho]
        exact (List.append_nil _).symm
    · exact ⟨rfl, (List.append_nil _).symm, rfl⟩
  · -- in sequence: the first record, then the release loop
    obtain ⟨hv, ho, hm⟩ := releaseCached_refines host sender mp (htblCount (cb.mems mp).unseqMsgs)
      ((deliver host (ipcMetadata host.endian ((cb.msgs p).hdrLength host.endian).toUInt32 sender)
        p cb).setMem mp { cb.mems mp with sequence := (cb.mems mp).sequence + 1 })
    have hview : memberView host.endian ((deliver host (ipcMetadata host.endian
          ((cb.msgs p).hdrLength host.endian).toUInt32 sender) p cb).setMem mp
          { cb.mems mp with sequence := (cb.mems mp).sequence + 1 }) mp
        = ⟨(cb.mems mp).sequence + 1, (memberView host.endian cb mp).unseqMsgs⟩ := by
      simp only [memberView, RmcCtrlBlock.setMem, Function.update_self, deliver]
    have hcount : htblCount (memberView host.endian cb mp).unseqMsgs
        = htblCount (cb.mems mp).unseqMsgs := htblCount_map _ _
    rw [hview] at hv ho
    rw [hcount]
    refine ⟨hv, ?_, hm⟩
    refine ho.trans ?_
    simp only [deliver, RmcCtrlBlock.setMem, sendLoop_payload, List.map_cons, record,
      payload_length, msgView, List.append_assoc, List.cons_append, List.nil_append]

theorem releaseCached_frame (h : Host) (mp n : Nat) :
    ∀ cb : RmcCtrlBlock,
      ((releaseCached h mp n cb).mems mp).session = (cb.mems mp).session
        ∧ (releaseCached h mp n cb).sent = cb.sent := by
  induction n with
  | zero =>
    intro cb
    exact ⟨rfl, rfl⟩
  | succ n ih =>
    intro cb
    simp only [releaseCached]
    split
    · exact ⟨rfl, rfl⟩
    · obtain ⟨hsess, hsent⟩ := ih _
      refine ⟨hsess.trans ?_, hsent⟩
      rw [RmcCtrlBlock.setMem_self]

/-- A DATA message leaves the session alone, and sends a NACK only if it
is ahead. -/
theorem dataMsg_frame (h : Host) (sender : SockaddrIn) {p mp : Nat} {cb : RmcCtrlBlock}
    (hk : htblGet cb.members ((cb.msgs p).hdrId h.endian) = some mp) :
    ((dataMsg h sender p cb).mems mp).session = (cb.mems mp).session
      ∧ (((cb.mems mp).sequence + 1 ≠ (cb.msgs p).hdrSequence h.endian →
            ¬ (cb.mems mp).sequence < (cb.msgs p).hdrSequence h.endian) →
          (dataMsg h sender p cb).sent = cb.sent) := by
  unfold dataMsg
  rw [hk]
  simp only
  split
  · rename_i hne
    split
    · rename_i hlt
      refine ⟨?_, fun hno => absurd hlt (hno hne)⟩
      obtain ⟨hmems, -, -, -⟩ := allocMsg_receiver (cacheMsg h mp p cb)
      have hnack := (sendNack_receiver h mp (allocMsg (cacheMsg h mp p cb)).2
        (allocMsg (cacheMsg h mp p cb)).1).2.2.2.2
      rw [hmems, cacheMsg, RmcCtrlBlock.setMem_self] at hnack
      exact hnack
    · exact ⟨rfl, fun _ => rfl⟩
  · obtain ⟨hsess, hsent⟩ := releaseCached_frame h mp (htblCount (cb.mems mp).unseqMsgs)
      ((deliver h (ipcMetadata h.endian ((cb.msgs p).hdrLength h.endian).toUInt32 sender)
        p cb).setMem mp { cb.mems mp with sequence := (cb.mems mp).sequence + 1 })
    refine ⟨hsess.trans ?_, fun _ => hsent⟩
    rw [RmcCtrlBlock.setMem_self]

/-! ## Room for datagrams -/

/-- The size of every buffer, and of every buffer still to be made, meets
`P`. -/
structure SizesIn (P : Nat → Prop) (cb : RmcCtrlBlock) : Prop where
  bufsize : P cb.bufsize
  size : ∀ p, p < cb.nmsgs → P (cb.msgs p).size

section Sizes

variable {P : Nat → Prop}

theorem SizesIn.setMsg {cb : RmcCtrlBlock} (h : SizesIn P cb) {p : Nat} {m : RmcMsg}
    (hs : m.size = (cb.msgs p).size) : SizesIn P (cb.setMsg p m) := by
  refine ⟨h.bufsize, ?_⟩
  intro q hq
  by_cases heq : q = p
  · subst heq
    simp only [RmcCtrlBlock.setMsg, Function.update_self, hs]
    exact h.size q hq
  · simp only [RmcCtrlBlock.setMsg, Function.update_of_ne heq]
    exact h.size q hq

theorem SizesIn.newMsg {cb : RmcCtrlBlock} (h : SizesIn P cb) : SizesIn P (newMsg cb).1 := by
  refine ⟨h.bufsize, ?_⟩
  intro q hq
  by_cases heq : q = cb.nmsgs
  · subst heq
    simp only [V01.newMsg, RmcCtrlBlock.setMsg, Function.update_self]
    exact h.bufsize
  · simp only [V01.newMsg, RmcCtrlBlock.setMsg, Function.update_of_ne heq] at hq ⊢
    exact h.size q (by omega)

theorem SizesIn.allocMsg {cb : RmcCtrlBlock} (h : SizesIn P cb) :
    SizesIn P (allocMsg cb).1 := by
  unfold V01.allocMsg
  split
  · exact ⟨h.bufsize, h.size⟩
  · exact h.newMsg

theorem SizesIn.sendNack {cb : RmcCtrlBlock} (h : SizesIn P cb) (host : Host)
    (mp p : Nat) : SizesIn P (sendNack host mp p cb) := by
  have hset := h.setMsg (p := p)
    (m := nackFill host (cb.mems mp) (cb.msgs p) (nackList (cb.mems mp))) rfl
  exact ⟨hset.bufsize, hset.size⟩

theorem SizesIn.releaseCached (host : Host) (mp rounds : Nat) :
    ∀ {cb : RmcCtrlBlock}, SizesIn P cb → SizesIn P (releaseCached host mp rounds cb) := by
  induction rounds with
  | zero => intro cb h; exact h
  | succ r ih =>
    intro cb h
    simp only [V01.releaseCached]
    split
    · exact h
    · exact ih ⟨h.bufsize, h.size⟩

theorem SizesIn.dataMsg {cb : RmcCtrlBlock} (h : SizesIn P cb) (host : Host)
    (sender : SockaddrIn) (p : Nat) : SizesIn P (dataMsg host sender p cb) := by
  unfold V01.dataMsg
  split
  · exact ⟨h.bufsize, h.size⟩
  · rename_i mp _
    split
    · split
      · have hcache : SizesIn P (cacheMsg host mp p cb) := ⟨h.bufsize, h.size⟩
        have hnack := hcache.allocMsg.sendNack host mp (V01.allocMsg (cacheMsg host mp p cb)).2
        exact ⟨hnack.bufsize, hnack.size⟩
      · exact ⟨h.bufsize, h.size⟩
    · exact SizesIn.releaseCached host mp _ ⟨h.bufsize, h.size⟩

theorem SizesIn.received {cb : RmcCtrlBlock} (h : SizesIn P cb) (host : Host)
    (r : RecvResult) : SizesIn P (received host r cb) := by
  have hrecv : SizesIn P (recvMsg r cb).1 := h.allocMsg.setMsg rfl
  exact hrecv.setMsg rfl

/-- After `rmcast_init` every buffer has the configured size. -/
theorem sizesIn_rmcastInit (g : Garbage) (a : InitArgs) :
    SizesIn (· = (max 128 a.maxMsgSize).toNat + sizeofHdr) (rmcastInit g a) := by
  have hfill : ∀ (rounds : Nat) {cb : RmcCtrlBlock}, SizesIn (· = (max 128 a.maxMsgSize).toNat
      + sizeofHdr) cb → SizesIn (· = (max 128 a.maxMsgSize).toNat + sizeofHdr)
        (fillPool rounds cb) := by
    intro rounds
    induction rounds with
    | zero => intro cb h; exact h
    | succ r ih => intro cb h; exact ih ⟨h.newMsg.bufsize, h.newMsg.size⟩
  refine hfill _ ⟨rfl, ?_⟩
  intro q hq
  exact absurd hq (Nat.not_lt_zero q)

end Sizes

/-- Every buffer, and every buffer still to be made, has at least `n` bytes. -/
structure Roomy (n : Nat) (cb : RmcCtrlBlock) : Prop where
  bufsize : n ≤ cb.bufsize
  size : ∀ p, p < cb.nmsgs → n ≤ (cb.msgs p).size

theorem roomy_iff {n : Nat} {cb : RmcCtrlBlock} : Roomy n cb ↔ SizesIn (n ≤ ·) cb :=
  ⟨fun h => ⟨h.bufsize, h.size⟩, fun h => ⟨h.bufsize, h.size⟩⟩

theorem Roomy.dataMsg {n : Nat} {cb : RmcCtrlBlock} (h : Roomy n cb) (host : Host)
    (sender : SockaddrIn) (p : Nat) : Roomy n (dataMsg host sender p cb) :=
  roomy_iff.mpr ((roomy_iff.mp h).dataMsg host sender p)

theorem Roomy.received {n : Nat} {cb : RmcCtrlBlock} (h : Roomy n cb) (host : Host)
    (r : RecvResult) : Roomy n (received host r cb) :=
  roomy_iff.mpr ((roomy_iff.mp h).received host r)

theorem roomy_rmcastInit (g : Garbage) (a : InitArgs) :
    Roomy ((max 128 a.maxMsgSize).toNat + sizeofHdr) (rmcastInit g a) := by
  have hsizes := sizesIn_rmcastInit g a
  exact ⟨Nat.le_of_eq hsizes.bufsize.symm, fun p hp => Nat.le_of_eq (hsizes.size p hp).symm⟩

/-- The buffer that `alloc_msg` hands out exists afterwards. -/
theorem Owned.allocMsg_lt {cb : RmcCtrlBlock} {hand : List Nat} (h : Owned cb hand) :
    (allocMsg cb).2 < (allocMsg cb).1.nmsgs :=
  ((owned_allocMsg h).inUse (.inl (List.mem_cons_self ..))).1

theorem Roomy.fits {n : Nat} {cb : RmcCtrlBlock} {hand : List Nat} (h : Roomy n cb)
    (ho : Owned cb hand) {d : Datagram} (hd : d.bytes.length ≤ n) (hudp : d.bytes.length < 2147483648) :
    Fits cb d :=
  ⟨Nat.le_trans hd ((roomy_iff.mp h).allocMsg.size _ ho.allocMsg_lt), hudp⟩

/-! ## The path of a datagram -/

/-- A datagram arrives at the daemon. -/
def receive (h : Host) (cb : RmcCtrlBlock) (x : SockaddrIn × Datagram) : Option RmcCtrlBlock :=
  (mcastBranch h x.1 (.ok x.2.bytes) cb).map Prod.fst

theorem receive_whole (h : Host) (sender : SockaddrIn) {cb : RmcCtrlBlock} {d : Datagram}
    (hf : Fits cb d) (hlen : d.length.toNat ≤ d.body.length) :
    receive h cb (sender, d)
      = dispatch h sender (allocMsg cb).2 (received h (.ok d.bytes) cb) := by
  unfold receive
  rw [mcastBranch_whole h sender hf hlen, Option.map_map]
  exact Option.map_id'

theorem owned_received (host : Host) (r : RecvResult) {cb : RmcCtrlBlock} {hand : List Nat}
    (h : Owned cb hand) : Owned (received host r cb) ((allocMsg cb).2 :: hand) :=
  owned_setMsg (owned_setMsg (owned_allocMsg h) _ _) _ _

/-- Receiving a datagram leaves the receiver's half alone. -/
theorem received_receiver (h : Host) (r : RecvResult) (cb : RmcCtrlBlock) :
    (received h r cb).mems = cb.mems ∧ (received h r cb).members = cb.members
      ∧ (received h r cb).ipcOut = cb.ipcOut ∧ (received h r cb).sent = cb.sent :=
  allocMsg_receiver cb

theorem received_msgs (h : Host) (r : RecvResult) {cb : RmcCtrlBlock} {q : Nat}
    (hq : InUse cb q) : (received h r cb).msgs q = cb.msgs q :=
  (Function.update_of_ne (allocMsg_ne hq) _ _).trans
    ((Function.update_of_ne (allocMsg_ne hq) _ _).trans (allocMsg_msgs hq))

theorem memberView_received (host : Host) (r : RecvResult) {cb : RmcCtrlBlock} {hand : List Nat}
    (h : Owned cb hand) {k : UInt32} {mp : Nat} (hk : htblGet cb.members k = some mp) :
    memberView host.endian (received host r cb) mp = memberView host.endian cb mp := by
  simp only [memberView, (received_receiver host r cb).1]
  congr 1
  apply htblMap_congr
  intro q hq
  rw [received_msgs host r (h.inUse (.inr (.inr (mem_cachedMsgs hk hq))))]

/-- What a datagram says to the client. -/
def Datagram.view (d : Datagram) : MsgView := ⟨d.payload, d.sequence, d.id⟩

theorem Holds.view {e : Endian} {m : RmcMsg} {d : Datagram} (h : Holds e m d)
    (hlen : d.length.toNat ≤ d.body.length) : msgView e m = d.view := by
  have hpayload : m.payload e = d.payload := by
    have hsplit := readBytes_add m.buf sizeofHdr d.length.toNat (d.body.length - d.length.toNat)
    rw [show d.length.toNat + (d.body.length - d.length.toNat) = d.body.length by omega,
      h.body] at hsplit
    rw [RmcMsg.payload, h.length, Datagram.payload, hsplit]
    exact (List.take_left' (readBytes_length ..)).symm
  simp only [msgView, Datagram.view, hpayload, h.sequence, h.id]

/-- A DATA datagram that is as long as its header says. -/
structure IsData (d : Datagram) : Prop where
  type : d.type = MsgType.data.toByte
  length : d.length.toNat ≤ d.body.length

/-- A DATA datagram of a member, received whole, is one arrival. -/
theorem receive_data (host : Host) (sender : SockaddrIn) {cb : RmcCtrlBlock} {hand : List Nat}
    (h : Owned cb hand) {d : Datagram} (hd : IsData d) (hf : Fits cb d) {mp : Nat}
    (hk : htblGet cb.members d.id = some mp) :
    ∃ cb', receive host cb (sender, d) = some cb'
      ∧ (∃ hand', Owned cb' hand')
      ∧ (∀ n, Roomy n cb → Roomy n cb')
      ∧ cb'.members = cb.members
      ∧ memberView host.endian cb' mp
          = (arrive MsgView.sequence (memberView host.endian cb mp) d.view).1
      ∧ cb'.ipcOut = cb.ipcOut
          ++ (arrive MsgView.sequence (memberView host.endian cb mp) d.view).2.map
              (record host.endian sender)
      ∧ (cb'.mems mp).session = (cb.mems mp).session
      ∧ (((cb.mems mp).sequence + 1 ≠ d.sequence → ¬ (cb.mems mp).sequence < d.sequence) →
          cb'.sent = cb.sent) := by
  have hheld := holds_received host hf
  have hown := owned_received host (.ok d.bytes) h
  obtain ⟨hmems, hmembers, hout, hsent⟩ := received_receiver host (.ok d.bytes) cb
  have hk' : htblGet (received host (.ok d.bytes) cb).members
      (((received host (.ok d.bytes) cb).msgs (allocMsg cb).2).hdrId host.endian) = some mp := by
    rw [hmembers, hheld.id]
    exact hk
  obtain ⟨hview, hrec, hmem⟩ := dataMsg_refines host sender hown hk'
  obtain ⟨hsess, hno⟩ := dataMsg_frame host sender hk'
  rw [hmems] at hsess hno
  rw [hheld.sequence] at hno
  rw [memberView_received host _ h hk, hheld.view hd.length] at hview hrec
  obtain ⟨leak, hleak, -⟩ := owned_dataMsg host sender hown
  refine ⟨dataMsg host sender (allocMsg cb).2 (received host (.ok d.bytes) cb), ?_, ⟨_, hleak⟩,
    ?_, ?_, hview, ?_, hsess, fun hgap => (hno hgap).trans hsent⟩
  · rw [receive_whole host sender hf hd.length, dispatch, hheld.type, hd.type,
      MsgType.ofByte_toByte]
  · intro n hn
    exact (hn.received host _).dataMsg host sender _
  · rw [hmem, hmembers]
  · rw [hrec, hout]

/-- The message that is due, with nothing under its number in the cache. -/
theorem receive_data_due (host : Host) (sender : SockaddrIn) {cb : RmcCtrlBlock}
    {hand : List Nat} (h : Owned cb hand) {d : Datagram} (hd : IsData d) (hf : Fits cb d)
    {mp : Nat} (hk : htblGet cb.members d.id = some mp)
    (hdue : (cb.mems mp).sequence + 1 = d.sequence)
    (hnone : htblGet (cb.mems mp).unseqMsgs d.sequence = none) :
    ∃ cb', receive host cb (sender, d) = some cb'
      ∧ (∃ hand', Owned cb' hand')
      ∧ (∀ n, Roomy n cb → Roomy n cb')
      ∧ cb'.members = cb.members
      ∧ (cb'.mems mp).session = (cb.mems mp).session
      ∧ (cb'.mems mp).sequence = d.sequence
      ∧ ((cb.mems mp).unseqMsgs = ∅ → (cb'.mems mp).unseqMsgs = ∅)
      ∧ cb'.ipcOut = cb.ipcOut ++ [record host.endian sender (.direct d.view)]
      ∧ cb'.sent = cb.sent := by
  obtain ⟨cb', hrecv, hown', hroom, hmembers, hview, hout, hsess, hsent⟩ :=
    receive_data host sender h hd hf hk
  have hnone' : htblGet (memberView host.endian cb mp).unseqMsgs
      ((memberView host.endian cb mp).sequence + 1) = none := by
    simp only [memberView]
    rw [htblGet_map, hdue, hnone]
    rfl
  have harr : arrive MsgView.sequence (memberView host.endian cb mp) d.view
      = (⟨(memberView host.endian cb mp).sequence + 1,
          (memberView host.endian cb mp).unseqMsgs⟩, [.direct d.view]) := by
    unfold arrive
    rw [if_neg (fun hne => hne hdue),
      release_none (s := ⟨(memberView host.endian cb mp).sequence + 1,
        (memberView host.endian cb mp).unseqMsgs⟩) _ hnone']
    rfl
  rw [harr] at hview hout
  refine ⟨cb', hrecv, hown', hroom, hmembers, hsess, ?_, ?_, hout, ?_⟩
  · exact (congrArg Reassembly.sequence hview).trans hdue
  · intro hempty
    have hcache := congrArg Reassembly.unseqMsgs hview
    simp only [memberView, hempty, htblMap_empty] at hcache
    exact htblMap_eq_empty hcache
  · exact hsent fun hne => absurd hdue hne

/-- A message that is not due is not handed over; if its number is not
ahead it is dropped. -/
theorem receive_data_undue (host : Host) (sender : SockaddrIn) {cb : RmcCtrlBlock}
    {hand : List Nat} (h : Owned cb hand) {d : Datagram} (hd : IsData d) (hf : Fits cb d)
    {mp : Nat} (hk : htblGet cb.members d.id = some mp)
    (hdue : (cb.mems mp).sequence + 1 ≠ d.sequence) :
    ∃ cb', receive host cb (sender, d) = some cb'
      ∧ (∃ hand', Owned cb' hand')
      ∧ (∀ n, Roomy n cb → Roomy n cb')
      ∧ cb'.members = cb.members
      ∧ (cb'.mems mp).session = (cb.mems mp).session
      ∧ (cb'.mems mp).sequence = (cb.mems mp).sequence
      ∧ cb'.ipcOut = cb.ipcOut
      ∧ (¬ (cb.mems mp).sequence < d.sequence →
          ((cb.mems mp).unseqMsgs = ∅ → (cb'.mems mp).unseqMsgs = ∅) ∧ cb'.sent = cb.sent) := by
  obtain ⟨cb', hrecv, hown', hroom, hmembers, hview, hout, hsess, hsent⟩ :=
    receive_data host sender h hd hf hk
  have harr : (arrive MsgView.sequence (memberView host.endian cb mp) d.view).2 = []
      ∧ (arrive MsgView.sequence (memberView host.endian cb mp) d.view).1.sequence
        = (cb.mems mp).sequence
      ∧ (¬ (cb.mems mp).sequence < d.sequence →
          (arrive MsgView.sequence (memberView host.endian cb mp) d.view).1
            = memberView host.endian cb mp) := by
    unfold arrive
    rw [if_pos (show (memberView host.endian cb mp).sequence + 1 ≠ d.view.sequence from hdue)]
    split
    · rename_i hlt
      exact ⟨rfl, rfl, fun hn => absurd hlt hn⟩
    · exact ⟨rfl, rfl, fun _ => rfl⟩
  rw [harr.1] at hout
  refine ⟨cb', hrecv, hown', hroom, hmembers, hsess, ?_, hout.trans (List.append_nil _), ?_⟩
  · exact (congrArg Reassembly.sequence hview).trans harr.2.1
  · intro hlt
    refine ⟨fun hempty => ?_, hsent fun _ => hlt⟩
    have hcache := congrArg Reassembly.unseqMsgs (hview.trans (harr.2.2 hlt))
    simp only [memberView, hempty, htblMap_empty] at hcache
    exact htblMap_eq_empty hcache

/-- A DATA datagram of nobody known is dropped. -/
theorem receive_data_unknown (host : Host) (sender : SockaddrIn) {cb : RmcCtrlBlock}
    {hand : List Nat} (h : Owned cb hand) {d : Datagram} (hd : IsData d) (hf : Fits cb d)
    (hk : htblGet cb.members d.id = none) :
    ∃ cb', receive host cb (sender, d) = some cb'
      ∧ (∃ hand', Owned cb' hand')
      ∧ (∀ n, Roomy n cb → Roomy n cb')
      ∧ cb'.mems = cb.mems ∧ cb'.members = cb.members ∧ cb'.ipcOut = cb.ipcOut
      ∧ cb'.sent = cb.sent := by
  have hheld := holds_received host hf
  obtain ⟨hmems, hmembers, hout, hsent⟩ := received_receiver host (.ok d.bytes) cb
  refine ⟨releaseMsg (received host (.ok d.bytes) cb) (allocMsg cb).2, ?_,
    ⟨hand, owned_releaseMsg (owned_received host _ h)⟩, ?_, hmems, hmembers, hout, hsent⟩
  · rw [receive_whole host sender hf hd.length, dispatch, hheld.type, hd.type,
      MsgType.ofByte_toByte]
    simp only [dataMsg, hmembers, hheld.id, hk]
  · intro n hn
    have hr := hn.received host (.ok d.bytes)
    exact ⟨hr.bufsize, hr.size⟩

/-- A datagram too long for its buffer is dropped. -/
theorem receive_cut (host : Host) (sender : SockaddrIn) {cb : RmcCtrlBlock} {hand : List Nat}
    (h : Owned cb hand) {d : Datagram} (hlen : d.length.toNat = d.body.length)
    (hcut : ((allocMsg cb).1.msgs (allocMsg cb).2).size < d.bytes.length)
    (hudp : d.bytes.length < 2147483648) :
    ∃ cb', receive host cb (sender, d) = some cb'
      ∧ (∃ hand', Owned cb' hand')
      ∧ cb'.mems = cb.mems ∧ cb'.members = cb.members ∧ cb'.ipcOut = cb.ipcOut
      ∧ cb'.sent = cb.sent := by
  have hbytes := d.bytes_length
  have hret : (recvMsg (.ok d.bytes) cb).2.2 = ((allocMsg cb).1.msgs (allocMsg cb).2).size := by
    simp only [recvMsg, RecvResult.limit, RecvResult.ret, List.length_take, sizeT]
    omega
  obtain ⟨hmems, hmembers, hout, hsent⟩ := received_receiver host (.ok d.bytes) cb
  have hown := owned_setMsg (owned_allocMsg h) (allocMsg cb).2
  unfold receive mcastBranch
  simp only
  by_cases hshort : (recvMsg (.ok d.bytes) cb).2.2 < sizeofHdr
  · rw [if_pos hshort]
    exact ⟨_, rfl, ⟨hand, owned_releaseMsg (hown _)⟩, hmems, hmembers, hout, hsent⟩
  · rw [if_neg hshort]
    -- the header is whole, so it says that bytes are missing
    have hhdr : ((received host (.ok d.bytes) cb).msgs (allocMsg cb).2).hdrLength host.endian
        = d.length := (holds_received_cut host rfl (by omega) d).length
    have hmissing : (recvMsg (.ok d.bytes) cb).2.2
        < (((received host (.ok d.bytes) cb).msgs (allocMsg cb).2).hdrLength host.endian).toNat
          + sizeofHdr := by
      rw [hhdr]
      omega
    have hcode : (if (recvMsg (.ok d.bytes) cb).2.2
          < (((received host (.ok d.bytes) cb).msgs (allocMsg cb).2).hdrLength host.endian).toNat
            + sizeofHdr
        then some (received host (.ok d.bytes) cb, true)
        else (dispatch host sender (allocMsg cb).2 (received host (.ok d.bytes) cb)).map
          fun cb => (cb, false)) = some (received host (.ok d.bytes) cb, true) := if_pos hmissing
    refine ⟨received host (.ok d.bytes) cb, ?_, ⟨_, owned_received host _ h⟩, hmems, hmembers, hout,
      hsent⟩
    exact congrArg (Option.map Prod.fst) hcode

/-- A list of DATA datagrams of one member is a list of arrivals. -/
theorem run_receive_data (host : Host) {n : Nat} {mp : Nat} (xs : List (SockaddrIn × Datagram)) :
    ∀ {cb : RmcCtrlBlock} {hand : List Nat} {k : UInt32}, Owned cb hand → Roomy n cb →
      htblGet cb.members k = some mp →
      (∀ x ∈ xs, IsData x.2 ∧ x.2.id = k ∧ x.2.bytes.length ≤ n ∧ x.2.bytes.length < 2147483648) →
      ∃ cb' rs, run (receive host) cb xs = some cb'
        ∧ cb'.ipcOut = cb.ipcOut ++ rs
        ∧ rs.map IpcRecord.sequence
            = (arriveAll MsgView.sequence (memberView host.endian cb mp)
                (xs.map fun x => x.2.view)).2.map (fun a => a.msg.sequence) := by
  induction xs with
  | nil =>
    intro cb hand k _ _ _ _
    exact ⟨cb, [], rfl, (List.append_nil _).symm, rfl⟩
  | cons x xs ih =>
    intro cb hand k hown hroom hk hall
    obtain ⟨sender, d⟩ := x
    obtain ⟨hdata, hid, hlen, hudp⟩ := hall (sender, d) (List.mem_cons_self ..)
    obtain ⟨cb₁, hstep, ⟨hand₁, hown₁⟩, hroom₁, hmem₁, hview₁, hout₁, -, -⟩ :=
      receive_data host sender hown hdata (hroom.fits hown hlen hudp) (by rw [hid]; exact hk)
    obtain ⟨cb', rs, hrun, hout', hrs⟩ := ih hown₁ (hroom₁ n hroom) (by rw [hmem₁]; exact hk)
      (fun y hy => hall y (List.mem_cons_of_mem _ hy))
    rw [hview₁] at hrs
    refine ⟨cb', (arrive MsgView.sequence (memberView host.endian cb mp) d.view).2.map
      (record host.endian sender) ++ rs, ?_, ?_, ?_⟩
    · simp only [run, hstep, Option.bind_some, hrun]
    · rw [hout', hout₁, List.append_assoc]
    · rw [List.map_append, hrs]
      simp only [List.map_cons, arriveAll, List.map_append, List.map_map]
      congr 1
      apply List.map_congr_left
      intro a _
      cases a <;> rfl

/-! ## Completeness -/

theorem memberView_empty (e : Endian) {cb : RmcCtrlBlock} {mp : Nat}
    (hempty : (cb.mems mp).unseqMsgs = ∅) :
    memberView e cb mp = ⟨(cb.mems mp).sequence + 1 - 1, ∅⟩ := by
  rw [memberView, hempty, htblMap_empty, UInt32.add_sub_cancel]

/-- **Completeness of reassembly.** A member that expects number `e` and
has an empty cache sends DATA datagrams numbered within `N` of `e`, in
any order and any number of times; `m` is the first number that never
arrives. Everything before `m` is handed over exactly when the board of
the arrivals reaches `m`. -/
theorem data_complete_iff_reaches (host : Host) {n N mp : Nat} {id e m : UInt32} {cb : RmcCtrlBlock}
    {hand : List Nat} {xs : List (SockaddrIn × Datagram)} (hown : Owned cb hand)
    (hroom : Roomy n cb) (hk : htblGet cb.members id = some mp)
    (he : (cb.mems mp).sequence + 1 = e) (hempty : (cb.mems mp).unseqMsgs = ∅)
    (hN : N < 2147483648)
    (hdata : ∀ x ∈ xs, IsData x.2 ∧ x.2.id = id ∧ x.2.bytes.length ≤ n
      ∧ x.2.bytes.length < 2147483648)
    (hrange : ∀ x ∈ xs, dist e x.2.sequence ≤ N)
    (hmiss : ∀ x ∈ xs, x.2.sequence ≠ m)
    (hall : ∀ k, dist e k < dist e m → ∃ x ∈ xs, x.2.sequence = k) :
    ∃ cb' rs, run (receive host) cb xs = some cb' ∧ cb'.ipcOut = cb.ipcOut ++ rs
      ∧ ((∀ k, dist e k < dist e m → k ∈ rs.map IpcRecord.sequence)
          ↔ Board.Reaches e m (xs.map fun x => x.2.sequence)) := by
  obtain ⟨cb', rs, hrun, hout, hrs⟩ := run_receive_data host xs hown hroom hk hdata
  refine ⟨cb', rs, hrun, hout, ?_⟩
  have hnums : (xs.map fun x => x.2.view).map MsgView.sequence = xs.map fun x => x.2.sequence := by
    rw [List.map_map]
    rfl
  have hiff := complete_iff_reaches (e := e) (m := m) (N := N) (by omega)
    (xs.map fun x => x.2.view)
    (by
      rw [hnums]
      intro k hk
      obtain ⟨x, hx, rfl⟩ := List.mem_map.mp hk
      exact hrange x hx)
    (by
      rw [hnums]
      intro hmem
      obtain ⟨x, hx, heq⟩ := List.mem_map.mp hmem
      exact hmiss x hx heq)
    (by
      rw [hnums]
      intro k hk
      exact List.mem_map.mpr (hall k hk))
  rw [hnums] at hiff
  rw [memberView_empty host.endian hempty, he] at hrs
  rw [hrs]
  exact hiff

/-- A one-byte message of node 2. -/
def dataOne (sequence : UInt32) (b : UInt8) : Datagram :=
  { version := 0, type := 60, length := 1, sequence := sequence, id := 2, body := [b] }

/-- A node that knows node 2 and expects its number 1. -/
def knowsTwo : RmcCtrlBlock :=
  (registerMember (rmcastMemberInit [] 2 3) (rmcastInit zeroGarbage plainArgs)).1

theorem owned_knowsTwo : Owned knowsTwo [] :=
  owned_registerMember (owned_rmcastInit zeroGarbage plainArgs) rfl rfl

theorem roomy_knowsTwo : Roomy 140 knowsTwo :=
  ⟨(roomy_rmcastInit zeroGarbage plainArgs).bufsize, (roomy_rmcastInit zeroGarbage plainArgs).size⟩

/-- Node 2, which has heard of nobody. -/
def nodeTwo : RmcCtrlBlock := rmcastInit zeroGarbage { plainArgs with id := 2 }

theorem owned_nodeTwo : Owned nodeTwo [] := owned_rmcastInit _ _

/-- A heartbeat of node 2 that announces number 1. -/
def hbeatOne : Datagram :=
  { version := 0, type := 61, length := 16, sequence := 1, id := 2
    body := [0, 0, 0, 0, 0, 0, 0, 0, 0, 0, 0, 3, 0, 0, 0, 0] }

end Rms.V01
