/-
Rms.V01.ParseTheorems — whether parsing stays inside the datagram.

The length checks compare the bytes received with the length in the
header. The DATA and LEAVE cases read no further than that, so they stay
inside (`within_dataMsg`, `within_leaveMsg`). The others take their
offsets from fields that nothing compares with the length: a heartbeat is
read as a whole structure however short it is, its name up to a NUL, its
ack list as far as the count says, and so the entries of a NACK.
`parse_within_iff` says for which datagrams that does no harm.
-/
import Rms.V01.HbeatTheorems
import Rms.V01.Parse
import Rms.V01.PeerTheorems

namespace Rms.V01

open Rms.ByteMem Rms.Util

variable {h : Host} {sender : SockaddrIn} {cb : RmcCtrlBlock} {p n : Nat}

/-! ## What the datagram must be like -/

/-- The name of a peer to be registered has its NUL in the datagram. -/
def NameFits (h : Host) (n p : Nat) (cb : RmcCtrlBlock) : Prop :=
  let d := hbeatDecode h.endian (cb.msgs p)
  htblGet cb.members ((cb.msgs p).hdrId h.endian) = none → d.hbeatNamelen h.endian ≠ 0 →
    ∃ j, sizeofHdr ≤ j ∧ j < n ∧ d.buf j = 0

/-- The ack list lies in the datagram as far as it is scanned, which is up
to the pair of our own id. -/
def AcksFit (h : Host) (n p : Nat) (cb : RmcCtrlBlock) : Prop :=
  let d := hbeatDecode h.endian (cb.msgs p)
  let data := sizeofHdr + sizeofHbeat + (d.hbeatNamelen h.endian).toNat
  let acked := fun j => ntohl h.endian (load32 h.endian d.buf (data + j * 2 * sizeofLong))
  d.hbeatAcks h.endian ≠ 0 → ∀ j, j < (ntohs h.endian (d.hbeatAcks h.endian)).toNat →
    (∀ i, i < j → acked i ≠ cb.self.id) →
      data + (j * 2 + 1) * sizeofLong ≤ n
        ∧ (acked j = cb.self.id → data + (j * 2 + 2) * sizeofLong ≤ n)

/-- What a datagram of `n` bytes must be like for the switch to stay in it. -/
def ParseFits (h : Host) (n p : Nat) (cb : RmcCtrlBlock) : Prop :=
  match MsgType.ofByte (cb.msgs p).hdrType with
  | some .hbeat => sizeofHdr + sizeofHbeat ≤ n ∧ NameFits h n p cb ∧ AcksFit h n p cb
  | some .nack => sizeofHdr
      + (1 + (toInt32 (load32 h.endian (cb.msgs p).buf sizeofHdr)).toNat) * sizeofLong ≤ n
  | _ => True

namespace Footprint

/-! ## DATA and LEAVE -/

theorem within_sendLoop (h : Host) (buf : Mem) {nfound : Nat} (hn : sizeofHdr + nfound ≤ n)
    (k : Nat) : ∀ ret, (sendLoop h buf nfound k ret).Within n := by
  induction k with
  | zero => intro ret; exact Reads.within_pure _
  | succ k ih =>
    intro ret
    simp only [sendLoop]
    split
    · simp only [Reads.within_bind, Reads.within_bytes, Reads.within_pure, ih, and_true]
      right
      omega
    · exact Reads.within_pure _

theorem within_dataMsg (h : Host) (sender : SockaddrIn)
    (hn : sizeofHdr + ((cb.msgs p).hdrLength h.endian).toNat ≤ n) :
    (dataMsg h sender p cb).Within n := by
  have hhdr : sizeofHdr = 12 := rfl
  have hid : (hdrId h.endian (cb.msgs p)).Within n := by
    simp only [hdrId, Reads.within_load32]
    omega
  have hseq : (hdrSequence h.endian (cb.msgs p)).Within n := by
    simp only [hdrSequence, Reads.within_load32]
    omega
  have hlen : (hdrLength h.endian (cb.msgs p)).Within n := by
    simp only [hdrLength, Reads.within_load16]
    omega
  simp only [dataMsg, Reads.within_bind, hid, true_and]
  split
  · exact Reads.within_pure _
  · simp only [Reads.within_bind, hseq, true_and]
    split
    · split
      · simp [dataAhead, cacheMsg, hseq]
      · exact Reads.within_pure _
    · simp only [dataInSequence, deliver, Reads.within_bind, Reads.within_pure, hlen, true_and,
        and_true]
      exact within_sendLoop h _ hn _ 0

theorem within_leaveMsg (h : Host) (hn : sizeofHdr ≤ n) : (leaveMsg h p cb).Within n := by
  have hhdr : sizeofHdr = 12 := rfl
  simp only [leaveMsg, Reads.within_bind, hdrId, Reads.within_load32]
  refine ⟨by omega, ?_⟩
  split
  · exact Reads.within_pure _
  · split <;> exact Reads.within_pure _

/-! ## NACK -/

theorem within_nackLoop (h : Host) (p k : Nat) :
    ∀ (itr : Nat) (cb : RmcCtrlBlock),
      (nackLoop h p k itr cb).Within n ↔ k = 0 ∨ sizeofHdr + (itr + k) * sizeofLong ≤ n := by
  induction k with
  | zero => intro itr cb; simp [nackLoop]
  | succ k ih =>
    intro itr cb
    simp only [nackLoop, Reads.within_bind, Reads.within_load32, ih, sizeofLong]
    omega

theorem within_nackMsg (h : Host) (hn : sizeofHdr ≤ n) :
    (nackMsg h p cb).Within n ↔ sizeofHdr
      + (1 + (toInt32 (load32 h.endian (cb.msgs p).buf sizeofHdr)).toNat) * sizeofLong ≤ n := by
  simp only [sizeofHdr] at hn
  simp only [nackMsg, Reads.within_bind, hdrId, Reads.within_load32, within_nackLoop,
    Reads.val_load32, sizeofHdr, sizeofLong]
  omega

/-! ## HBEAT -/

theorem within_ackScan (e : Endian) (buf : Mem) (data : Nat) (id : UInt32) (k : Nat) :
    ∀ itr, (ackScan e buf data id k itr).Within n ↔
      ∀ j, j < k →
        (∀ i, i < j → ntohl e (load32 e buf (data + (itr + i) * 2 * sizeofLong)) ≠ id) →
          data + ((itr + j) * 2 + 1) * sizeofLong ≤ n
            ∧ (ntohl e (load32 e buf (data + (itr + j) * 2 * sizeofLong)) = id →
                data + ((itr + j) * 2 + 2) * sizeofLong ≤ n) := by
  simp only [sizeofLong]
  induction k with
  | zero => intro itr; simp [ackScan]
  | succ k ih =>
    intro itr
    simp only [ackScan, Reads.within_bind, Reads.within_load32, Reads.val_load32, sizeofLong]
    by_cases hid : ntohl e (load32 e buf (data + itr * 2 * 4)) = id
    · -- our own pair: its second word is read as well, and no further pair
      simp only [hid, if_true, Reads.within_bind, Reads.within_load32, Reads.within_pure, and_true]
      constructor
      · intro hin j hj hfree
        have hzero : j = 0 := by
          by_contra hne
          exact hfree 0 (by omega) hid
        subst hzero
        exact ⟨by omega, fun _ => by omega⟩
      · intro hall
        obtain ⟨-, hboth⟩ := hall 0 (by omega) (fun i hi => absurd hi (Nat.not_lt_zero i))
        have hlast := hboth hid
        omega
    · simp only [hid, if_false, ih (itr + 1)]
      have hshift : ∀ i, itr + 1 + i = itr + (i + 1) := fun i => by omega
      simp only [hshift]
      constructor
      · intro hin j hj hfree
        obtain ⟨hfirst, hrest⟩ := hin
        cases j with
        | zero => exact ⟨by omega, fun heq => absurd heq hid⟩
        | succ j => exact hrest j (by omega) fun i hi => hfree (i + 1) (by omega)
      · intro hall
        obtain ⟨hfirst, -⟩ := hall 0 (by omega) (fun i hi => absurd hi (Nat.not_lt_zero i))
        refine ⟨by omega, fun j hj hfree => hall (j + 1) (by omega) fun i hi => ?_⟩
        cases i with
        | zero => exact hid
        | succ i => exact hfree i (by omega)

/-- Behind the structure, looking up the member reads a name at most. -/
theorem within_hbeatMember (h : Host) (hn : sizeofHdr + sizeofHbeat ≤ n)
    (hsize : n ≤ (cb.msgs p).size) :
    (hbeatMember h p (cb.setMsg p (V01.hbeatDecode h.endian (cb.msgs p)))).Within n
      ↔ NameFits h n p cb := by
  simp only [sizeofHdr, sizeofHbeat] at hn
  have hval : (hdrId h.endian (V01.hbeatDecode h.endian (cb.msgs p))).val
      = (cb.msgs p).hdrId h.endian := (hbeatDecode_header h.endian (cb.msgs p)).2.2
  have hmembers : (cb.setMsg p (V01.hbeatDecode h.endian (cb.msgs p))).members = cb.members := rfl
  have hlen : (hbeatNamelen h.endian (V01.hbeatDecode h.endian (cb.msgs p))).val
      = (V01.hbeatDecode h.endian (cb.msgs p)).hbeatNamelen h.endian := rfl
  simp only [hbeatMember, RmcCtrlBlock.setMsg_self, Reads.within_bind, hval, hmembers, NameFits]
  have hhdr : (hdrId h.endian (V01.hbeatDecode h.endian (cb.msgs p))).Within n := by
    simp only [hdrId, Reads.within_load32]
    omega
  have hseq : (hdrSequence h.endian (V01.hbeatDecode h.endian (cb.msgs p))).Within n := by
    simp only [hdrSequence, Reads.within_load32]
    omega
  have hsess : (hbeatSession h.endian (V01.hbeatDecode h.endian (cb.msgs p))).Within n := by
    simp only [hbeatSession, Reads.within_load32]
    omega
  have hnamelen : (hbeatNamelen h.endian (V01.hbeatDecode h.endian (cb.msgs p))).Within n := by
    simp only [hbeatNamelen, Reads.within_load16]
    omega
  cases htblGet cb.members ((cb.msgs p).hdrId h.endian) with
  | some mp =>
    simp only [hhdr, hsess, true_and, Reads.within_bind, reduceCtorEq, false_implies, iff_true]
    split
    · simp [hbeatNewSession, hsess, hseq]
    · exact Reads.within_pure _
  | none =>
    simp only [hhdr, true_and, Reads.within_bind, Reads.within_pure, and_true, forall_const,
      hbeatNewMember, hnamelen, hlen]
    by_cases hname : (V01.hbeatDecode h.endian (cb.msgs p)).hbeatNamelen h.endian = 0
    · simp [hname, hhdr, hsess, hseq]
    · simp only [ne_eq, hname, not_false_eq_true, if_true, forall_const, Reads.within_bind, hhdr,
        hsess, hseq, Reads.within_pure, and_true]
      refine Reads.within_string _ _ sizeofHdr ?_
      have hkeep : (V01.hbeatDecode h.endian (cb.msgs p)).size = (cb.msgs p).size := rfl
      rw [hkeep, sizeofHdr]
      omega

theorem within_hbeatUpdate (e : Endian) (msg : RmcMsg) (selfId : UInt32) (mem : RmcMember)
    (hn : sizeofHdr + sizeofHbeat ≤ n) :
    (hbeatUpdate e msg selfId mem).Within n ↔ (msg.hbeatAcks e ≠ 0 →
      (ackScan e msg.buf (sizeofHdr + sizeofHbeat + (msg.hbeatNamelen e).toNat) selfId
        (ntohs e (msg.hbeatAcks e)).toNat 0).Within n) := by
  simp only [sizeofHdr, sizeofHbeat] at hn
  have hlost : (hbeatLost e msg).Within n := by
    simp only [hbeatLost, Reads.within_load32]
    omega
  have hnamelen : (hbeatNamelen e msg).Within n := by
    simp only [hbeatNamelen, Reads.within_load16]
    omega
  have hacks : (hbeatAcks e msg).Within n := by
    simp only [hbeatAcks, Reads.within_load16]
    omega
  have hval : (hbeatAcks e msg).val = msg.hbeatAcks e := rfl
  have hlen : (hbeatNamelen e msg).val = msg.hbeatNamelen e := rfl
  simp only [hbeatUpdate, Reads.within_bind, hlost, hnamelen, hacks, true_and, hval, hlen]
  by_cases hnone : msg.hbeatAcks e = 0
  · simp [hnone]
  · simp only [ne_eq, hnone, not_false_eq_true, if_true, forall_const, Reads.within_bind,
      and_iff_left_iff_imp]
    intro _
    split <;> exact Reads.within_pure _

theorem within_hbeatDecodeTail (e : Endian) (m : RmcMsg) :
    (hbeatDecodeTail e m).Within n ↔ sizeofHdr + sizeofHbeat ≤ n := by
  simp only [hbeatDecodeTail, Reads.within_bind, hbeatAcks, hbeatPgback, Reads.within_load16,
    Reads.within_pure, and_true, sizeofHdr, sizeofHbeat]
  omega

theorem within_hbeatMsg (h : Host) (hsize : n ≤ (cb.msgs p).size) :
    (hbeatMsg h p cb).Within n
      ↔ sizeofHdr + sizeofHbeat ≤ n ∧ NameFits h n p cb ∧ AcksFit h n p cb := by
  by_cases hn : sizeofHdr + sizeofHbeat ≤ n
  · have hn' := hn
    simp only [sizeofHdr, sizeofHbeat] at hn'
    have hdecode : (hbeatDecode h.endian (cb.msgs p)).Within n := by
      simp only [hbeatDecode, Reads.within_bind, hbeatNamelen, hbeatFlags, hbeatSession,
        Reads.within_load16, Reads.within_load32, Reads.within_pure, and_true]
      omega
    have hname := within_hbeatMember h hn hsize
    have hmsgs := hbeatMember_msgs h p (cb.setMsg p (V01.hbeatDecode h.endian (cb.msgs p)))
    have hself : (V01.hbeatMember h p (cb.setMsg p
        (V01.hbeatDecode h.endian (cb.msgs p)))).1.self.id = cb.self.id :=
      (sameSender_hbeatMember h p _).id
    simp only [hbeatMsg, Reads.within_bind, hdecode, true_and, val_hbeatDecode, hname,
      val_hbeatMember, hn]
    refine and_congr_right fun _ => ?_
    -- the rest reads the decoded message, whoever it is from
    generalize V01.hbeatMember h p (cb.setMsg p (V01.hbeatDecode h.endian (cb.msgs p))) = r
      at hmsgs hself ⊢
    have hmsg : r.1.msgs p = V01.hbeatDecode h.endian (cb.msgs p) := by
      rw [hmsgs, RmcCtrlBlock.setMsg_self]
    have hgap : ∀ mp cb₁, (hbeatGap h mp p cb₁).Within n := by
      intro mp cb₁
      simp only [hbeatGap, Reads.within_bind, hdrSequence, Reads.within_load32]
      refine ⟨by omega, ?_⟩
      split
      · split <;> exact Reads.within_pure _
      · exact Reads.within_pure _
    simp only [within_hbeatUpdate _ _ _ _ hn, within_hbeatDecodeTail, hn, hgap, Reads.within_pure,
      and_true, hmsg, hself, AcksFit]
    refine imp_congr_right fun _ => ?_
    simpa using within_ackScan h.endian (V01.hbeatDecode h.endian (cb.msgs p)).buf _ cb.self.id _ 0
  · simp only [hbeatMsg, Reads.within_bind, within_hbeatDecodeTail, hn, false_and, and_false]

end Footprint

/-! ## Every datagram -/

/-- **Parsing stays inside the datagram** exactly for the datagrams that
`ParseFits` describes. The computation whose reads are bounded is the
switch itself. -/
theorem parse_within_iff (h : Host) (sender : SockaddrIn) {bytes : List UInt8} {cb : RmcCtrlBlock}
    {m : RmcMsg} (hsize : bytes.length ≤ ((allocMsg cb).1.msgs (allocMsg cb).2).size)
    (hacc : accepted h (.ok bytes) cb = some m) :
    (Footprint.dispatch h sender (allocMsg cb).2 (received h (.ok bytes) cb)).val
        = dispatch h sender (allocMsg cb).2 (received h (.ok bytes) cb)
      ∧ ((Footprint.dispatch h sender (allocMsg cb).2 (received h (.ok bytes) cb)).Within
          bytes.length
        ↔ ParseFits h bytes.length (allocMsg cb).2 (received h (.ok bytes) cb)) := by
  refine ⟨Footprint.val_dispatch h sender _ _, ?_⟩
  have hhdr : sizeofHdr = 12 := rfl
  obtain ⟨hlong, hwhole⟩ : sizeofHdr ≤ bytes.length
      ∧ sizeofHdr + (((received h (.ok bytes) cb).msgs (allocMsg cb).2).hdrLength h.endian).toNat
        ≤ bytes.length := by
    have hret : (recvMsg (.ok bytes) cb).2.2 = bytes.length % 4294967296 := by
      simp only [recvMsg, RecvResult.limit, List.take_of_length_le hsize, RecvResult.ret, sizeT]
      omega
    simp only [accepted, hret] at hacc
    split at hacc
    · cases hacc
    · omega
  have hroom : bytes.length ≤ ((received h (.ok bytes) cb).msgs (allocMsg cb).2).size := by
    have hkeep : ((received h (.ok bytes) cb).msgs (allocMsg cb).2).size
        = ((allocMsg cb).1.msgs (allocMsg cb).2).size := by
      unfold received recvMsg
      simp only [RmcCtrlBlock.setMsg_self]
      rfl
    rw [hkeep]
    exact hsize
  generalize received h (.ok bytes) cb = cb₁ at *
  generalize (allocMsg cb).2 = p at *
  have htype : (Footprint.hdrType (cb₁.msgs p)).Within bytes.length := by
    simp only [Footprint.hdrType, Reads.within_load8]
    omega
  have hval : (Footprint.hdrType (cb₁.msgs p)).val = (cb₁.msgs p).hdrType := rfl
  simp only [Footprint.dispatch, ParseFits, Reads.within_bind, htype, true_and, hval]
  cases MsgType.ofByte (cb₁.msgs p).hdrType with
  | none => simp
  | some t =>
    cases t with
    | data => simp [Footprint.within_dataMsg h sender hwhole]
    | hbeat => simp [Footprint.within_hbeatMsg h hroom]
    | nack => simp [Footprint.within_nackMsg h hlong]
    | leave => simp [Footprint.within_leaveMsg h hlong]
    | ack => simp
    | join => simp
    | cert => simp

/-- A heartbeat of node 2 that acknowledges messages of nodes 9 and 1. -/
def hbeatTwoAcks : List UInt8 :=
  (hbeatDgram 0 { rmcastMemberInit [] 2 3 with sequence := 1 } none (some [(9, 4), (1, 5)]) 0).bytes

/-- Its two pairs are read inside its 44 bytes. -/
theorem parse_within_iff_twoAcks :
    hbeatTwoAcks.length = 44
      ∧ (Footprint.dispatch littleHost anyAddr (allocMsg knowsTwo).2
        (received littleHost (.ok hbeatTwoAcks) knowsTwo)).Within 44 := by
  have hacc : (accepted littleHost (.ok hbeatTwoAcks) knowsTwo).isSome = true := by
    decide +kernel
  obtain ⟨m, hm⟩ := Option.isSome_iff_exists.mp hacc
  have htype : MsgType.ofByte ((received littleHost (.ok hbeatTwoAcks) knowsTwo).msgs
      (allocMsg knowsTwo).2).hdrType = some .hbeat := by decide +kernel
  have hsize : hbeatTwoAcks.length
      ≤ ((allocMsg knowsTwo).1.msgs (allocMsg knowsTwo).2).size := by decide +kernel
  refine ⟨by decide +kernel, (parse_within_iff littleHost anyAddr hsize hm).2.mpr ?_⟩
  simp only [ParseFits, htype]
  refine ⟨by decide +kernel, fun hnew => ?_, ?_⟩
  · have hknown : (htblGet (received littleHost (.ok hbeatTwoAcks) knowsTwo).members
        (((received littleHost (.ok hbeatTwoAcks) knowsTwo).msgs
          (allocMsg knowsTwo).2).hdrId littleHost.endian)).isSome = true := by
      decide +kernel
    rw [hnew] at hknown
    cases hknown
  · simp only [AcksFit]
    decide +kernel

/-- A heartbeat of 12 bytes that announces no more passes the length
checks, and `pgback` is read at offset 27. -/
theorem parse_within_fails :
    (accepted littleHost (.ok [0, 61, 0, 0, 0, 0, 0, 5, 0, 0, 0, 2])
        (rmcastInit zeroGarbage plainArgs)).isSome = true
      ∧ 27 ∈ (Footprint.dispatch littleHost anyAddr
          (allocMsg (rmcastInit zeroGarbage plainArgs)).2
          (received littleHost (.ok [0, 61, 0, 0, 0, 0, 0, 5, 0, 0, 0, 2])
            (rmcastInit zeroGarbage plainArgs))).offsets := by
  decide +kernel

end Rms.V01
