/-
Rms.V01.BoundedTheorems — what the end of memory does to the daemon.

A datagram gets through the bounded switch exactly as through the
unbounded one, unless it makes the switch call `send_nack`
(`mcastBranch_of_not_asks`). That call writes a word for every number that
is not cached, so it does not return as long as fewer than three quarters
of all numbers are cached (`sendNack_eq_none`); each of them would need a
buffer of its own in the same memory.

Two results about single datagrams follow. No message ahead of its turn is
ever cached and asked for (`gap_never_classified`), and no NACK that
`send_nack` builds is ever answered as it should be
(`nack_never_exchanged`).
-/
import Rms.V01.Bounded
import Rms.V01.RecoveryTheorems

namespace Rms.V01.Bounded

open Rms.ByteMem Rms.Util Rms.Serial Rms.Runs

variable {h : Host} {sender : SockaddrIn} {r : RecvResult} {flag : Bool} {cb cb' : RmcCtrlBlock}
  {p mp : Nat} {sequence : UInt32} {t : Htbl Nat}

/-! ## The end of a NACK -/

theorem nackSize_eq (mem : RmcMember) : nackSize mem = nackEnd mem.sequence mem.unseqMsgs := by
  rw [nackSize, nackEnd, nackList_eq, missing]

theorem sendNack_eq_none (h : Host) (p : Nat)
    (hcount : htblCount (cb.mems mp).unseqMsgs ≤ 3221225473) : sendNack h mp p cb = none := by
  have hlt := lt_nackEnd (cb.mems mp).sequence hcount
  rw [sendNack, nackSize_eq]
  exact if_neg (Nat.not_le.mpr hlt)

/-! ## The cases of the switch -/

/-- The DATA case for a number that is not due. -/
theorem dataMsg_gap (hk : htblGet cb.members ((cb.msgs p).hdrId h.endian) = some mp)
    (hne : (cb.mems mp).sequence + 1 ≠ (cb.msgs p).hdrSequence h.endian) :
    dataMsg h sender p cb
      = if (cb.mems mp).sequence < (cb.msgs p).hdrSequence h.endian then
          (sendNack h mp (dataNack h mp p cb).2 (dataNack h mp p cb).1).map
            fun cb₁ => releaseMsg cb₁ (dataNack h mp p cb).2
        else some (releaseMsg cb p) := by
  unfold dataMsg
  rw [hk]
  simp only [hne, ne_eq, not_false_eq_true, if_true]
  rfl

theorem dataMsg_of_not_ahead
    (hno : ∀ mp, htblGet cb.members ((cb.msgs p).hdrId h.endian) = some mp →
      ¬ Ahead (cb.mems mp).peer ((cb.msgs p).hdrSequence h.endian)) :
    dataMsg h sender p cb = some (V01.dataMsg h sender p cb) := by
  unfold dataMsg V01.dataMsg
  cases hk : htblGet cb.members ((cb.msgs p).hdrId h.endian) with
  | none => rfl
  | some mp =>
    dsimp only
    by_cases hdue : (cb.mems mp).sequence + 1 ≠ (cb.msgs p).hdrSequence h.endian
    · have hbehind : ¬ (cb.mems mp).sequence < (cb.msgs p).hdrSequence h.endian :=
        fun hlt => hno mp hk ⟨hdue, hlt⟩
      rw [if_pos hdue, if_pos hdue, if_neg hbehind, if_neg hbehind]
    · rw [if_neg hdue, if_neg hdue]

theorem hbeatMsg_eq (h : Host) (p : Nat) (cb : RmcCtrlBlock) :
    hbeatMsg h p cb = (hbeatGap h
      (hbeatMember h p (cb.setMsg p (hbeatDecode h.endian (cb.msgs p)))).2 p
      (hbeatApply h p (hbeatMember h p (cb.setMsg p (hbeatDecode h.endian (cb.msgs p)))))).map
        fun cb₁ => releaseMsg cb₁ p := rfl

/-- The HBEAT case for a number that is not due. -/
theorem hbeatMsg_gap (hk : htblGet cb.members ((cb.msgs p).hdrId h.endian) = some mp)
    (hsess : (hbeatDecode h.endian (cb.msgs p)).hbeatSession h.endian = (cb.mems mp).session)
    (hne : (cb.mems mp).sequence + 1 ≠ (cb.msgs p).hdrSequence h.endian) :
    hbeatMsg h p cb
      = if (cb.mems mp).sequence < (cb.msgs p).hdrSequence h.endian then
          (sendNack h mp p (hbeatNack h mp p cb)).map fun cb₁ => releaseMsg cb₁ p
        else some (releaseMsg (hbeatNack h mp p cb) p) := by
  have hseq : ((hbeatNack h mp p cb).mems mp).sequence = (cb.mems mp).sequence := by
    rw [hbeatNack_mem]
    exact (hbeatUpdate_sequence _ _ _ _).1
  have hgap : hbeatGap h mp p (hbeatNack h mp p cb)
      = if (cb.mems mp).sequence < (cb.msgs p).hdrSequence h.endian then
          sendNack h mp p (hbeatNack h mp p cb)
        else some (hbeatNack h mp p cb) := by
    unfold hbeatGap
    rw [hseq, hbeatNack_hdrSequence, if_pos hne]
  rw [hbeatMsg_eq, hbeatMember_same hk hsess]
  change (hbeatGap h mp p (hbeatNack h mp p cb)).map _ = _
  rw [hgap]
  split <;> rfl

theorem hbeatMsg_of_not_ahead
    (hno : ∀ mp, htblGet cb.members ((cb.msgs p).hdrId h.endian) = some mp →
      (hbeatDecode h.endian (cb.msgs p)).hbeatSession h.endian = (cb.mems mp).session →
      ¬ Ahead (cb.mems mp).peer ((cb.msgs p).hdrSequence h.endian)) :
    hbeatMsg h p cb = some (V01.hbeatMsg h p cb) := by
  obtain ⟨cb₁, mp, hr, hno'⟩ := hbeatMember_not_ahead hno
  obtain ⟨hnumber, hseq⟩ := hbeatApply_compared hr
  rw [hbeatMsg_eq, V01.hbeatMsg_eq, hr]
  unfold hbeatGap V01.hbeatGap
  rw [hnumber, hseq]
  split
  · rename_i hne
    split
    · rename_i hlt
      exact absurd ⟨hne, hlt⟩ hno'
    · rfl
  · rfl

/-! ## A datagram -/

theorem dataMsg_free (hd : dataMsg h sender p cb = some cb') :
    V01.dataMsg h sender p cb = cb' := by
  unfold dataMsg at hd
  unfold V01.dataMsg
  cases hk : htblGet cb.members ((cb.msgs p).hdrId h.endian) with
  | none =>
    simp only [hk] at hd ⊢
    exact Option.some.inj hd
  | some mp =>
    simp only [hk] at hd ⊢
    split at hd
    · rename_i hne
      rw [if_pos hne]
      split at hd
      · rename_i hlt
        rw [if_pos hlt]
        unfold dataAhead sendNack at hd
        dsimp only at hd
        split at hd
        · exact Option.some.inj hd
        · cases hd
      · rename_i hlt
        rw [if_neg hlt]
        exact Option.some.inj hd
    · rename_i hdue
      rw [if_neg hdue]
      exact Option.some.inj hd

theorem hbeatMsg_free (hd : hbeatMsg h p cb = some cb') : V01.hbeatMsg h p cb = cb' := by
  rw [hbeatMsg_eq] at hd
  rw [V01.hbeatMsg_eq]
  generalize hbeatMember h p (cb.setMsg p (hbeatDecode h.endian (cb.msgs p))) = x at hd ⊢
  unfold hbeatGap sendNack at hd
  unfold V01.hbeatGap
  split at hd
  · rename_i hne
    rw [if_pos hne]
    split at hd
    · rename_i hlt
      rw [if_pos hlt]
      split at hd
      · exact Option.some.inj hd
      · cases hd
    · rename_i hlt
      rw [if_neg hlt]
      exact Option.some.inj hd
  · rename_i hdue
    rw [if_neg hdue]
    exact Option.some.inj hd

/-- The switch has the result of the unbounded one, or none. -/
theorem dispatch_free (hd : dispatch h sender p cb = some cb') :
    V01.dispatch h sender p cb = some cb' := by
  unfold dispatch at hd
  split at hd
  · rename_i ht
    rw [V01.dispatch, ht]
    exact congrArg some (dataMsg_free hd)
  · rename_i ht
    rw [V01.dispatch, ht]
    exact congrArg some (hbeatMsg_free hd)
  · exact hd

theorem mcastBranch_free (hb : mcastBranch h sender r cb = some (cb', flag)) :
    V01.mcastBranch h sender r cb = some (cb', flag) := by
  unfold mcastBranch at hb
  unfold V01.mcastBranch
  dsimp only at hb ⊢
  split at hb
  · rename_i hshort
    rw [if_pos hshort]
    exact hb
  · rename_i hlong
    rw [if_neg hlong]
    split at hb
    · rename_i hcut
      rw [if_pos hcut]
      exact hb
    · rename_i hwhole
      rw [if_neg hwhole]
      obtain ⟨cb₁, hd, heq⟩ := Option.map_eq_some_iff.mp hb
      exact Option.map_eq_some_iff.mpr ⟨cb₁, dispatch_free hd, heq⟩

/-- Up to the switch there is no difference. -/
theorem mcastBranch_dropped (hnone : accepted h r cb = none) :
    mcastBranch h sender r cb = V01.mcastBranch h sender r cb := by
  unfold mcastBranch V01.mcastBranch
  dsimp only
  split
  · rfl
  · rename_i hlong
    split
    · rfl
    · rename_i hwhole
      exact absurd (hnone.symm.trans (if_neg (not_or.mpr ⟨hlong, hwhole⟩))) nofun

theorem mcastBranch_accepted (sender : SockaddrIn) {m : RmcMsg} (hacc : accepted h r cb = some m) :
    mcastBranch h sender r cb
        = (dispatch h sender (allocMsg cb).2 (received h r cb)).map (fun cb => (cb, false))
      ∧ V01.mcastBranch h sender r cb
        = (V01.dispatch h sender (allocMsg cb).2 (received h r cb)).map (fun cb => (cb, false))
      ∧ (received h r cb).msgs (allocMsg cb).2 = m := by
  have hfits : ¬ ((recvMsg r cb).2.2 < sizeofHdr ∨ (recvMsg r cb).2.2
      < (((received h r cb).msgs (allocMsg cb).2).hdrLength h.endian).toNat + sizeofHdr) := by
    intro hshort
    exact absurd ((if_pos hshort).symm.trans hacc) nofun
  obtain ⟨hlong, hwhole⟩ := not_or.mp hfits
  have hm : (received h r cb).msgs (allocMsg cb).2 = m :=
    Option.some.inj ((if_neg hfits).symm.trans hacc)
  refine ⟨?_, ?_, hm⟩
  · unfold mcastBranch
    dsimp only
    rw [if_neg hlong]
    exact if_neg hwhole
  · unfold V01.mcastBranch
    dsimp only
    rw [if_neg hlong]
    exact if_neg hwhole

theorem peerAt_received {y : UInt32} (hk : htblGet (received h r cb).members y = some mp) :
    peerAt cb y = some ((received h r cb).mems mp).peer := by
  obtain ⟨hmems, hmembers, -⟩ := received_receiver h r cb
  rw [← peerAt_congr hmembers hmems y, peerAt, hk]
  rfl

theorem received_of_peerAt {y : UInt32} {v : Peer Nat} (hv : peerAt cb y = some v) :
    ∃ mp, htblGet (received h r cb).members y = some mp
      ∧ v = ((received h r cb).mems mp).peer := by
  obtain ⟨hmems, hmembers, -⟩ := received_receiver h r cb
  obtain ⟨mp, hk, heq⟩ := Option.map_eq_some_iff.mp ((peerAt_congr hmembers hmems y).trans hv)
  exact ⟨mp, hk, heq.symm⟩

/-- **A datagram that asks for no NACK** does what it does with unbounded
buffers. -/
theorem mcastBranch_of_not_asks (hno : ∀ sequence t, ¬ Asks h r cb sequence t) :
    mcastBranch h sender r cb = V01.mcastBranch h sender r cb := by
  cases hacc : accepted h r cb with
  | none => exact mcastBranch_dropped hacc
  | some m =>
    obtain ⟨hbounded, hfree, hm⟩ := mcastBranch_accepted sender hacc
    rw [hbounded, hfree]
    refine congrArg _ ?_
    cases ht : MsgType.ofByte m.hdrType with
    | none => simp only [dispatch, hm, ht]
    | some type =>
      cases type with
      | data =>
        simp only [dispatch, V01.dispatch, hm, ht]
        refine dataMsg_of_not_ahead fun mp hk hahead => ?_
        rw [hm] at hk hahead
        exact hno _ _ (.data hacc (by simp only [eventOf, ht]) (peerAt_received hk) hahead)
      | hbeat =>
        simp only [dispatch, V01.dispatch, hm, ht]
        refine hbeatMsg_of_not_ahead fun mp hk hsess hahead => ?_
        rw [hm] at hk hsess hahead
        refine hno _ _ (.hbeat hacc ?_ (peerAt_received hk) hahead)
        simp only [eventOf, ht, hsess]
        rfl
      | nack => simp only [dispatch, hm, ht]
      | leave => simp only [dispatch, hm, ht]
      | ack => simp only [dispatch, hm, ht]
      | join => simp only [dispatch, hm, ht]
      | cert => simp only [dispatch, hm, ht]

/-- **A datagram that asks for a NACK** without an end in memory is the
last one. -/
theorem mcastBranch_of_asks (ha : Asks h r cb sequence t)
    (hlt : memorySize < nackEnd sequence t) : mcastBranch h sender r cb = none := by
  have hout : ∀ {cb₁ : RmcCtrlBlock} {mp p : Nat},
      nackEnd (cb₁.mems mp).sequence (cb₁.mems mp).unseqMsgs = nackEnd sequence t →
      sendNack h mp p cb₁ = none := by
    intro cb₁ mp p hend
    rw [sendNack, nackSize_eq, hend, if_neg (by omega)]
  cases ha with
  | @data m v hacc hev hv hahead =>
    obtain ⟨hbounded, -, rfl⟩ := mcastBranch_accepted sender hacc
    obtain ⟨mp, hk, rfl⟩ := received_of_peerAt (h := h) (r := r) hv
    obtain ⟨ht, -⟩ := eventOf_eq_data hev
    have hnumber : ((received h r cb).mems mp).sequence
        < ((received h r cb).msgs (allocMsg cb).2).hdrSequence h.endian := hahead.2
    rw [hbounded, dispatch, ht]
    simp only
    rw [dataMsg_gap hk hahead.1, if_pos hnumber, hout (by rw [dataNack_mem]; rfl)]
    rfl
  | @hbeat m v hacc hev hv hahead =>
    obtain ⟨hbounded, -, rfl⟩ := mcastBranch_accepted sender hacc
    obtain ⟨mp, hk, rfl⟩ := received_of_peerAt (h := h) (r := r) hv
    obtain ⟨ht, hsess⟩ := eventOf_eq_hbeat hev
    have hnumber : ((received h r cb).mems mp).sequence
        < ((received h r cb).msgs (allocMsg cb).2).hdrSequence h.endian := hahead.2
    obtain ⟨hseq, -, -, hunseq⟩ := hbeatUpdate_sequence h.endian
      (hbeatDecode h.endian ((received h r cb).msgs (allocMsg cb).2)) (received h r cb).self.id
      ((received h r cb).mems mp)
    rw [hbounded, dispatch, ht]
    simp only
    rw [hbeatMsg_gap hk hsess hahead.1, if_pos hnumber, hout (by
      rw [hbeatNack_mem, hseq, hunseq]; rfl)]
    rfl

/-- A datagram that arrives. -/
def receive (h : Host) (cb : RmcCtrlBlock) (x : SockaddrIn × Datagram) : Option RmcCtrlBlock :=
  (mcastBranch h x.1 (.ok x.2.bytes) cb).map Prod.fst

/-! ## Messages ahead of their turn -/

/-- One datagram was passed to `sendto` for the node `id`, whatever is in
it, and no other. -/
def Asked (h : Host) (id : UInt32) (cb cb' : RmcCtrlBlock) : Prop :=
  ∃ bytes failed, cb'.sent = cb.sent ++ [⟨.ucast (htonl h.endian id), bytes, failed⟩]

/-- The message in buffer `p` is in the member's cache under its number,
unless that number was taken. -/
def Cached (h : Host) (mp p : Nat) (cb cb' : RmcCtrlBlock) : Prop :=
  (cb'.mems mp).unseqMsgs
    = htblPut (cb.mems mp).unseqMsgs ((cb.msgs p).hdrSequence h.endian) p

theorem not_asked (h : Host) (id : UInt32) (hsent : cb'.sent = cb.sent) :
    ¬ Asked h id cb cb' := by
  rintro ⟨bytes, failed, hnew⟩
  rw [hsent] at hnew
  simp at hnew

/-- **Gap classification.** A message whose number lies `d` beyond the one
that is due is never cached and asked for, and a heartbeat with that
number never makes a NACK. Either counting from `mem->sequence` to the
number wraps, and the message is dropped as an old one; or `send_nack` is
called, and does not return. -/
theorem gap_never_classified (h : Host) (sender : SockaddrIn) {cb : RmcCtrlBlock} {mp p d : Nat}
    (hk : htblGet cb.members ((cb.msgs p).hdrId h.endian) = some mp)
    (hpos : 1 ≤ d) (hnear : d < 2147483648)
    (hq : (cb.msgs p).hdrSequence h.endian = (cb.mems mp).sequence + 1 + UInt32.ofNat d)
    (hcount : htblCount (cb.mems mp).unseqMsgs ≤ 3221225472) :
    (dataMsg h sender p cb
        = (if (cb.mems mp).sequence.toNat + 1 + d < 4294967296 then none
          else some (releaseMsg cb p))
      ∧ ¬ ∃ cb', dataMsg h sender p cb = some cb' ∧ Cached h mp p cb cb'
        ∧ Asked h (cb.mems mp).id cb cb')
    ∧ ((hbeatDecode h.endian (cb.msgs p)).hbeatSession h.endian = (cb.mems mp).session →
        hbeatMsg h p cb
          = (if (cb.mems mp).sequence.toNat + 1 + d < 4294967296 then none
            else some (releaseMsg (hbeatNack h mp p cb) p))
        ∧ ¬ ∃ cb', hbeatMsg h p cb = some cb' ∧ Asked h (cb.mems mp).id cb cb') := by
  obtain ⟨hne, hlt⟩ := ahead_iff (cb.mems mp).sequence hpos hnear
  rw [← hq] at hne hlt
  have hdata : dataMsg h sender p cb
      = if (cb.mems mp).sequence.toNat + 1 + d < 4294967296 then none
        else some (releaseMsg cb p) := by
    have hput := htblCount_htblPut_le (cb.mems mp).unseqMsgs ((cb.msgs p).hdrSequence h.endian) p
    rw [dataMsg_gap hk hne, if_congr hlt rfl rfl, sendNack_eq_none h _ (by
      rw [dataNack_mem]; exact hput.trans (by omega))]
    rfl
  refine ⟨⟨hdata, ?_⟩, fun hsess => ?_⟩
  · rintro ⟨cb', hcb, -, hasked⟩
    rw [hdata] at hcb
    split at hcb
    · cases hcb
    · obtain rfl := Option.some.inj hcb
      exact not_asked h _ rfl hasked
  · have hhbeat : hbeatMsg h p cb
        = if (cb.mems mp).sequence.toNat + 1 + d < 4294967296 then none
          else some (releaseMsg (hbeatNack h mp p cb) p) := by
      rw [hbeatMsg_gap hk hsess hne, if_congr hlt rfl rfl, sendNack_eq_none h _ (by
        rw [hbeatNack_mem, (hbeatUpdate_sequence _ _ _ _).2.2.2]; omega)]
      rfl
    refine ⟨hhbeat, ?_⟩
    rintro ⟨cb', hcb, hasked⟩
    rw [hhbeat] at hcb
    split at hcb
    · cases hcb
    · obtain rfl := Option.some.inj hcb
      exact not_asked h _ rfl hasked

/-- Number 3 of node 2 comes when number 1 is due: there is no state behind
it. -/
theorem gap_never_classified_three :
    dataMsg littleHost anyAddr (allocMsg knowsTwo).2 threeArrived = none := by
  have hk : htblGet threeArrived.members
      ((threeArrived.msgs (allocMsg knowsTwo).2).hdrId littleHost.endian) = some 0 := by
    decide +kernel
  have hq : (threeArrived.msgs (allocMsg knowsTwo).2).hdrSequence littleHost.endian
      = (threeArrived.mems 0).sequence + 1 + UInt32.ofNat 2 := by decide +kernel
  have hwrap : (threeArrived.mems 0).sequence.toNat + 1 + 2 < 4294967296 := by decide +kernel
  have hcount : htblCount (threeArrived.mems 0).unseqMsgs ≤ 3221225472 := by decide +kernel
  have hnever := gap_never_classified littleHost anyAddr hk (d := 2) (by decide) (by decide) hq
    hcount
  rw [hnever.1.1, if_pos hwrap]

/-- Node 2 announces number 0, and its number 1 arrives first: the message
is dropped, and nothing is sent. -/
theorem gap_classified_fails :
    ∃ cb, run (receive littleHost) (rmcastInit zeroGarbage plainArgs)
        [hbeatAt 0, (anyAddr, dataOne 1 33)] = some cb
      ∧ (cb.mems 0).sequence + 1 + UInt32.ofNat 1 = (dataOne 1 33).sequence
      ∧ htblGet (cb.mems 0).unseqMsgs 1 = none ∧ cb.sent = [] ∧ cb.ipcOut = [] := by
  have hrun : (run (receive littleHost) (rmcastInit zeroGarbage plainArgs)
      [hbeatAt 0, (anyAddr, dataOne 1 33)]).map (fun cb =>
        ((cb.mems 0).sequence + 1 + UInt32.ofNat 1, htblGet (cb.mems 0).unseqMsgs 1, cb.sent,
          cb.ipcOut)) = some (1, none, [], []) := by
    decide +kernel
  obtain ⟨cb, hcb, heq⟩ := Option.map_eq_some_iff.mp hrun
  simp only [Prod.mk.injEq] at heq
  exact ⟨cb, hcb, heq⟩

/-! ## The NACK on its way -/

/-- The numbers that the handler looks up for a datagram: none, unless it
gets to the NACK case. -/
def lookups (h : Host) (r : RecvResult) (cb : RmcCtrlBlock) : List UInt32 :=
  match (accepted h r cb).bind fun m => MsgType.ofByte m.hdrType with
  | some .nack => nackMsgLookups h (allocMsg cb).2 (received h r cb)
  | _ => []

/-- What `send_nack` did between `cbR` and `cbR'` is answered as it should
be: one datagram was sent, the node `cbS` looks up just the numbers listed,
and all it sends goes to the node that asked. -/
def Exchanged (hS : Host) (sender : SockaddrIn) (asker : UInt32) (listed : List UInt32)
    (cbR cbR' cbS : RmcCtrlBlock) : Prop :=
  ∃ x cbS' ys, cbR'.sent = cbR.sent ++ [x]
    ∧ (V01.mcastBranch hS sender (.ok x.bytes) cbS).map Prod.fst = some cbS'
    ∧ cbS'.sent = cbS.sent ++ ys
    ∧ (∀ k, k ∈ lookups hS (.ok x.bytes) cbS ↔ k ∈ listed)
    ∧ ∀ y ∈ ys, y.dest = .ucast (htonl hS.endian asker)

theorem lookups_short (h : Host) {bytes : List UInt8} (cb : RmcCtrlBlock)
    (hshort : bytes.length < sizeofHdr) : lookups h (.ok bytes) cb = [] := by
  have hret : (recvMsg (.ok bytes) cb).2.2 < sizeofHdr := by
    simp only [recvMsg, RecvResult.limit, RecvResult.ret, List.length_take, sizeT]
    omega
  have hnone : accepted h (.ok bytes) cb = none := if_pos (.inl hret)
  simp only [lookups, hnone, Option.bind_none]

/-- With two messages cached or fewer, less than a header is sent. -/
theorem nackBytes_short (h : Host) (mem : RmcMember) (m : RmcMsg)
    (hcount : htblCount mem.unseqMsgs ≤ 2) :
    nackList mem ≠ [] ∧ (nackBytes h mem m (nackList mem)).length < sizeofHdr := by
  obtain ⟨c, hcached, hsplit⟩ := missing_add_cached mem.sequence mem.unseqMsgs
  have hlength : (nackList mem).length = missing mem.sequence mem.unseqMsgs := by
    rw [nackList_eq, missing]
  constructor
  · intro hnil
    rw [hnil, List.length_nil] at hlength
    omega
  · rw [nackBytes, readBytes_length, hlength]
    simp only [sizeT, sizeofHdr, sizeofLong]
    omega

/-- **The NACK exchange.** No NACK that `send_nack` builds is answered as it
should be: the call does not return. With buffers without an end it
would, and for the first three numbers missing what it sends is shorter
than a header and is dropped. -/
theorem nack_never_exchanged (hR hS : Host) (sender : SockaddrIn) (asker : UInt32)
    (cbR cbS : RmcCtrlBlock) (mp p : Nat)
    (hcount : htblCount (cbR.mems mp).unseqMsgs ≤ 3221225473) :
    (¬ ∃ cbR', sendNack hR mp p cbR = some cbR'
        ∧ Exchanged hS sender asker (nackList (cbR.mems mp)) cbR cbR' cbS)
    ∧ (htblCount (cbR.mems mp).unseqMsgs ≤ 2 →
        ¬ Exchanged hS sender asker (nackList (cbR.mems mp)) cbR
          (V01.sendNack hR mp p cbR) cbS) := by
  constructor
  · rintro ⟨cbR', hsome, -⟩
    rw [sendNack_eq_none hR p hcount] at hsome
    cases hsome
  · rintro hfew ⟨x, cbS', ys, hsent, -, -, hlook, -⟩
    obtain ⟨hne, hshort⟩ := nackBytes_short hR (cbR.mems mp) (cbR.msgs p) hfew
    rw [sendNack_sent] at hsent
    obtain rfl := List.singleton_injective (List.append_cancel_left hsent)
    rw [lookups_short hS cbS hshort] at hlook
    obtain ⟨k, hk⟩ := List.exists_mem_of_ne_nil _ hne
    exact absurd ((hlook k).mpr hk) List.not_mem_nil

/-- Node 1 expects number 5 of node 2 and number 6 has arrived: the state in
which the DATA case calls `send_nack`, and the buffer for the NACK. -/
def asksForFive : RmcCtrlBlock × Nat :=
  let cb := (registerMember { rmcastMemberInit [] 2 3 with sequence := 4 }
    (rmcastInit zeroGarbage plainArgs)).1
  dataNack littleHost 0 (allocMsg cb).2 (received littleHost (.ok (dataOne 6 33).bytes) cb)

theorem asksForFive_mem :
    (asksForFive.1.mems 0).sequence = 4 ∧ htblCount (asksForFive.1.mems 0).unseqMsgs = 1
      ∧ htblGet (asksForFive.1.mems 0).unseqMsgs 5 = none := by
  decide +kernel

theorem nack_never_exchanged_five :
    ¬ (∃ cbR', sendNack littleHost 0 asksForFive.2 asksForFive.1 = some cbR'
        ∧ Exchanged littleHost anyAddr 1 (nackList (asksForFive.1.mems 0)) asksForFive.1 cbR'
          nodeTwo)
      ∧ ¬ Exchanged littleHost anyAddr 1 (nackList (asksForFive.1.mems 0)) asksForFive.1
        (V01.sendNack littleHost 0 asksForFive.2 asksForFive.1) nodeTwo := by
  obtain ⟨-, hone, -⟩ := asksForFive_mem
  have hnever := nack_never_exchanged littleHost littleHost anyAddr 1 asksForFive.1 nodeTwo 0
    asksForFive.2 (by rw [hone]; decide)
  exact ⟨hnever.1, hnever.2 (by rw [hone]; decide)⟩

/-- Number 5 is missing and is on the list, with all other numbers but
three. The call does not return; with buffers without an end it would pass
less than a header to `sendto`, for which node 2 looks up nothing. -/
theorem nack_exchange_fails :
    5 ∈ nackList (asksForFive.1.mems 0)
      ∧ sendNack littleHost 0 asksForFive.2 asksForFive.1 = none
      ∧ ∃ x, (V01.sendNack littleHost 0 asksForFive.2 asksForFive.1).sent
          = asksForFive.1.sent ++ [x]
        ∧ x.bytes.length < sizeofHdr ∧ lookups littleHost (.ok x.bytes) nodeTwo = [] := by
  obtain ⟨hseq, hone, hfive⟩ := asksForFive_mem
  have hmem : 5 ∈ nackList (asksForFive.1.mems 0) := by
    rw [nackList_eq, hseq, List.mem_filter, mem_span (by decide), hfive]
    exact ⟨by decide, rfl⟩
  have hshort := (nackBytes_short littleHost (asksForFive.1.mems 0)
    (asksForFive.1.msgs asksForFive.2) (by rw [hone]; decide)).2
  have hsent := sendNack_sent littleHost 0 asksForFive.2 asksForFive.1
  -- the bytes are too many to be computed
  generalize nackBytes littleHost (asksForFive.1.mems 0) (asksForFive.1.msgs asksForFive.2)
    (nackList (asksForFive.1.mems 0)) = bytes at hshort hsent
  exact ⟨hmem, sendNack_eq_none _ _ (by rw [hone]; decide), _, hsent, hshort,
    lookups_short littleHost nodeTwo hshort⟩

end Rms.V01.Bounded
