/-
Rms.V01.ReceiveTheorems — receives that fail or come short.

`recvfrom` may fail, and a datagram may be shorter than a header or than
its header says. The daemon should then do nothing but give the buffer
back (`Unchanged`).

The two checks compare the result with unsigned sizes. A result of −1
passes both, and the switch handles whatever the recycled buffer held
before; that does no harm only if the switch would drop it (`Harmless`).
And the second check forgets the buffer. So of the three cases only the
first check works (`short_receive_iff`).
-/
import Rms.V01.GapTheorems
import Rms.V01.FramingTheorems
import Rms.V01.PeerTheorems
import Rms.V01.RegistryTheorems

namespace Rms.V01

open Rms.ByteMem Rms.Util Rms.Runs

variable {h : Host} {sender : SockaddrIn} {cb cb' : RmcCtrlBlock} {p mp : Nat}

/-- Nothing was delivered or sent, the members and what is kept for
retransmission are as they were, and buffer `p` is on top of `pool`. -/
structure Unchanged (cb cb' : RmcCtrlBlock) (p : Nat) (pool : List Nat) : Prop where
  ipcOut : cb'.ipcOut = cb.ipcOut
  sent : cb'.sent = cb.sent
  members : cb'.members = cb.members
  member : ∀ id mp, htblGet cb.members id = some mp →
    (cb'.mems mp).session = (cb.mems mp).session
      ∧ (cb'.mems mp).sequence = (cb.mems mp).sequence
      ∧ (cb'.mems mp).unseqMsgs = (cb.mems mp).unseqMsgs
  outmsgbuf : cb'.outmsgbuf = cb.outmsgbuf
  bufmsgq : cb'.bufmsgq = p :: pool

/-- The switch drops the message in buffer `p` without a trace. -/
def Harmless (h : Host) (p : Nat) (cb : RmcCtrlBlock) : Prop :=
  match MsgType.ofByte (cb.msgs p).hdrType with
  | some .data => ∀ mp, htblGet cb.members ((cb.msgs p).hdrId h.endian) = some mp →
      (cb.mems mp).sequence + 1 ≠ (cb.msgs p).hdrSequence h.endian
        ∧ ¬ (cb.mems mp).sequence < (cb.msgs p).hdrSequence h.endian
  | some .hbeat => ∃ mp, htblGet cb.members ((cb.msgs p).hdrId h.endian) = some mp
      ∧ (hbeatDecode h.endian (cb.msgs p)).hbeatSession h.endian = (cb.mems mp).session
      ∧ ((cb.mems mp).sequence + 1 ≠ (cb.msgs p).hdrSequence h.endian →
          ¬ (cb.mems mp).sequence < (cb.msgs p).hdrSequence h.endian)
  | some .nack => False
  | some .leave => False
  | _ => True

/-! ## The cases of the switch -/

theorem unchanged_releaseMsg (cb : RmcCtrlBlock) (p : Nat) :
    Unchanged cb (releaseMsg cb p) p cb.bufmsgq :=
  { ipcOut := rfl, sent := rfl, members := rfl, outmsgbuf := rfl, bufmsgq := rfl
    member := fun _ _ _ => ⟨rfl, rfl, rfl⟩ }

/-- A step that does not give the buffer back changes the pool. -/
theorem not_unchanged_of_pool (hpool : cb'.bufmsgq = cb.bufmsgq) :
    ¬ Unchanged cb cb' p cb.bufmsgq := by
  intro hsame
  have hlen := congrArg List.length (hpool.symm.trans hsame.bufmsgq)
  simp at hlen

/-- A step that sends a NACK is not unchanged. -/
theorem not_unchanged_of_sent {q : Nat} {cb₁ : RmcCtrlBlock} (hsent : cb₁.sent = cb.sent) :
    ¬ Unchanged cb (releaseMsg (sendNack h mp q cb₁) q) p cb.bufmsgq := by
  intro hsame
  have hlen := congrArg List.length hsame.sent
  change (sendNack h mp q cb₁).sent.length = cb.sent.length at hlen
  rw [sendNack_sent, hsent] at hlen
  simp at hlen

theorem dataMsg_unchanged_iff (h : Host) (sender : SockaddrIn) (p : Nat) (cb : RmcCtrlBlock) :
    Unchanged cb (dataMsg h sender p cb) p cb.bufmsgq
      ↔ ∀ mp, htblGet cb.members ((cb.msgs p).hdrId h.endian) = some mp →
          (cb.mems mp).sequence + 1 ≠ (cb.msgs p).hdrSequence h.endian
            ∧ ¬ (cb.mems mp).sequence < (cb.msgs p).hdrSequence h.endian := by
  cases hk : htblGet cb.members ((cb.msgs p).hdrId h.endian) with
  | none =>
    have hdrop : dataMsg h sender p cb = releaseMsg cb p := by
      unfold dataMsg
      rw [hk]
    rw [hdrop]
    simp [unchanged_releaseMsg]
  | some mp =>
    simp only [Option.some.injEq, forall_eq']
    by_cases hdue : (cb.mems mp).sequence + 1 = (cb.msgs p).hdrSequence h.endian
    · -- in sequence: a record is written
      have hseq : dataMsg h sender p cb = dataInSequence h sender mp p cb := by
        unfold dataMsg
        rw [hk]
        simp [hdue]
      obtain ⟨r, rs, hout, -⟩ := dataInSequence_records h sender mp p cb
      simp only [hdue, ne_eq, not_true_eq_false, false_and, iff_false]
      intro hsame
      have hlen := congrArg List.length hsame.ipcOut
      rw [hseq, hout] at hlen
      simp at hlen
    · rw [dataMsg_gap hk hdue]
      by_cases hlt : (cb.mems mp).sequence < (cb.msgs p).hdrSequence h.endian
      · simp only [hlt, if_true, not_true_eq_false, and_false, iff_false]
        exact not_unchanged_of_sent (allocMsg_receiver (cacheMsg h mp p cb)).2.2.2
      · simp [hlt, hdue, unchanged_releaseMsg]

/-- A heartbeat that does not go on with a member's session changes the
members or the session. -/
theorem not_unchanged_hbeatMsg
    (hnot : ¬ ∃ mp, htblGet cb.members ((cb.msgs p).hdrId h.endian) = some mp
      ∧ (hbeatDecode h.endian (cb.msgs p)).hbeatSession h.endian = (cb.mems mp).session) :
    ¬ Unchanged cb (hbeatMsg h p cb) p cb.bufmsgq := by
  intro hsame
  cases hk : htblGet cb.members ((cb.msgs p).hdrId h.endian) with
  | none =>
    have hnew := (hbeatMsg_new h hk).1
    rw [hsame.members, hk] at hnew
    cases hnew
  | some mp =>
    have hsess : (hbeatDecode h.endian (cb.msgs p)).hbeatSession h.endian
        ≠ (cb.mems mp).session := fun heq => hnot ⟨mp, hk, heq⟩
    have hpeer := (hbeatMsg_peer h p cb).2.1
    rw [hbeatMember_restart hk hsess] at hpeer
    have hnew := congrArg Peer.session hpeer
    simp only [RmcMember.peer, RmcCtrlBlock.setMem_self, hbeatNewSession] at hnew
    exact hsess (hnew.symm.trans (hsame.member _ mp hk).1)

theorem unchanged_hbeatNack (h : Host) (mp p : Nat) (cb : RmcCtrlBlock) :
    Unchanged cb (releaseMsg (hbeatNack h mp p cb) p) p cb.bufmsgq := by
  obtain ⟨msg, heq⟩ := hbeatNack_eq h mp p cb
  rw [heq]
  refine ⟨rfl, rfl, rfl, ?_, rfl, rfl⟩
  intro id mp' _
  simp only [releaseMsg, RmcCtrlBlock.setMem, RmcCtrlBlock.setMsg]
  by_cases hmp : mp' = mp
  · obtain ⟨hseq, hsess, -, hunseq⟩ := hbeatUpdate_sequence h.endian
      (hbeatDecode h.endian (cb.msgs p)) cb.self.id (cb.mems mp)
    rw [hmp, Function.update_self]
    exact ⟨hsess, hseq, hunseq⟩
  · rw [Function.update_of_ne hmp]
    exact ⟨rfl, rfl, rfl⟩

theorem hbeatMsg_unchanged_iff (h : Host) (p : Nat) (cb : RmcCtrlBlock) :
    Unchanged cb (hbeatMsg h p cb) p cb.bufmsgq
      ↔ ∃ mp, htblGet cb.members ((cb.msgs p).hdrId h.endian) = some mp
          ∧ (hbeatDecode h.endian (cb.msgs p)).hbeatSession h.endian = (cb.mems mp).session
          ∧ ((cb.mems mp).sequence + 1 ≠ (cb.msgs p).hdrSequence h.endian →
              ¬ (cb.mems mp).sequence < (cb.msgs p).hdrSequence h.endian) := by
  by_cases hsame : ∃ mp, htblGet cb.members ((cb.msgs p).hdrId h.endian) = some mp
      ∧ (hbeatDecode h.endian (cb.msgs p)).hbeatSession h.endian = (cb.mems mp).session
  · obtain ⟨mp, hk, hsess⟩ := hsame
    simp only [hk, Option.some.injEq, exists_eq_left', hsess, true_and]
    by_cases hdue : (cb.mems mp).sequence + 1 = (cb.msgs p).hdrSequence h.endian
    · have hno : hbeatMsg h p cb = releaseMsg (hbeatNack h mp p cb) p := by
        rw [hbeatMsg_eq, hbeatMember_same hk hsess]
        change releaseMsg (hbeatGap h mp p (hbeatNack h mp p cb)) p = _
        rw [hbeatGap_none]
        intro hne
        rw [hbeatNack_mem, (hbeatUpdate_sequence _ _ _ _).1, hbeatNack_hdrSequence] at hne
        exact absurd hdue hne
      rw [hno]
      simp [hdue, unchanged_hbeatNack]
    · rw [hbeatMsg_gap hk hsess hdue]
      by_cases hlt : (cb.mems mp).sequence < (cb.msgs p).hdrSequence h.endian
      · simp only [hlt, if_true, ne_eq, hdue, not_false_eq_true, not_true_eq_false,
          forall_const, iff_false]
        exact not_unchanged_of_sent rfl
      · simp [hlt, unchanged_hbeatNack]
  · constructor
    · intro hun
      exact absurd hun (not_unchanged_hbeatMsg hsame)
    · intro hmp
      obtain ⟨mp, hk, hsess, -⟩ := hmp
      exact absurd ⟨mp, hk, hsess⟩ hsame

theorem nackLoop_bufmsgq (h : Host) (p n : Nat) :
    ∀ (itr : Nat) (cb : RmcCtrlBlock), (nackLoop h p n itr cb).bufmsgq = cb.bufmsgq := by
  induction n with
  | zero => intro itr cb; rfl
  | succ n ih =>
    intro itr cb
    simp only [nackLoop]
    rw [ih]
    split <;> rfl

/-- The NACK handler never gives its buffer back. -/
theorem nackMsg_bufmsgq (h : Host) (p : Nat) (cb : RmcCtrlBlock) :
    (nackMsg h p cb).bufmsgq = cb.bufmsgq :=
  nackLoop_bufmsgq h p _ 1 _

/-- A LEAVE unregisters its sender, or forgets the buffer. -/
theorem not_unchanged_leaveMsg (hl : leaveMsg h p cb = some cb') :
    ¬ Unchanged cb cb' p cb.bufmsgq := by
  cases hk : htblGet cb.members ((cb.msgs p).hdrId h.endian) with
  | none =>
    unfold leaveMsg at hl
    rw [htblRemove_eq_none.mpr hk] at hl
    obtain rfl := Option.some.inj hl
    exact not_unchanged_of_pool rfl
  | some mp =>
    intro hsame
    cases registryStep_leaveMsg hl with
    | same hs hleave hhbeat =>
      rw [hleave rfl] at hk
      cases hk
    | join ht hnew hmembers hqueue hnmems hfreed => cases ht
    | leave mp' r ht hk' hmembers hqueue hnmems hfreed =>
      have hget := htblGet_erase cb.members ((cb.msgs p).hdrId h.endian)
        ((cb.msgs p).hdrId h.endian)
      rw [← hmembers, hsame.members, hk] at hget
      simp at hget

/-- The switch leaves everything as it was exactly for a harmless message. -/
theorem dispatch_unchanged_iff (h : Host) (sender : SockaddrIn) (p : Nat) (cb : RmcCtrlBlock) :
    (∃ cb', dispatch h sender p cb = some cb' ∧ Unchanged cb cb' p cb.bufmsgq)
      ↔ Harmless h p cb := by
  unfold dispatch Harmless
  cases MsgType.ofByte (cb.msgs p).hdrType with
  | none => simp [unchanged_releaseMsg]
  | some t =>
    cases t with
    | data =>
      simp only [Option.some.injEq, exists_eq_left']
      exact dataMsg_unchanged_iff h sender p cb
    | hbeat =>
      simp only [Option.some.injEq, exists_eq_left']
      exact hbeatMsg_unchanged_iff h p cb
    | nack =>
      simp only [Option.some.injEq, exists_eq_left', iff_false]
      exact not_unchanged_of_pool (nackMsg_bufmsgq h p cb)
    | leave =>
      simp only [iff_false]
      intro hex
      obtain ⟨cb', hl, hun⟩ := hex
      exact not_unchanged_leaveMsg hl hun
    | _ => simp [unchanged_releaseMsg]

/-! ## The receive -/

/-- The result of `recvfrom` into the next buffer. -/
def recvRet (r : RecvResult) (cb : RmcCtrlBlock) : Int :=
  (r.limit ((allocMsg cb).1.msgs (allocMsg cb).2).size).ret

/-- The receive failed, or returned less than a header, or less than the
header announces. -/
def ShortReceive (h : Host) (r : RecvResult) (cb : RmcCtrlBlock) : Prop :=
  recvRet r cb < 0 ∨ recvRet r cb < sizeofHdr
    ∨ recvRet r cb
        < sizeofHdr + (((received h r cb).msgs (allocMsg cb).2).hdrLength h.endian).toNat

theorem unchanged_received (h : Host) (r : RecvResult) (cb cb' : RmcCtrlBlock) :
    Unchanged (received h r cb) cb' (allocMsg cb).2 (received h r cb).bufmsgq
      ↔ Unchanged cb cb' (allocMsg cb).2 (allocMsg cb).1.bufmsgq := by
  obtain ⟨hmems, hmembers, hout, hsent⟩ := received_receiver h r cb
  have hkept : (received h r cb).outmsgbuf = cb.outmsgbuf :=
    (sameSender_recvMsg r cb).outmsgbuf
  have hpool : (received h r cb).bufmsgq = (allocMsg cb).1.bufmsgq := rfl
  constructor
  · intro hun
    exact ⟨hun.ipcOut.trans hout, hun.sent.trans hsent, hun.members.trans hmembers,
      hmems ▸ hmembers ▸ hun.member, hun.outmsgbuf.trans hkept, hun.bufmsgq⟩
  · intro hun
    exact ⟨hun.ipcOut.trans hout.symm, hun.sent.trans hsent.symm, hun.members.trans hmembers.symm,
      hmems.symm ▸ hmembers.symm ▸ hun.member, hun.outmsgbuf.trans hkept.symm, hun.bufmsgq⟩

/-- **Failed and short receives.** Such a receive leaves everything as it
was and gives the buffer back exactly if fewer bytes than a header were
received, or if the call failed and the buffer happens to hold a message
that the switch drops. -/
theorem short_receive_iff (h : Host) (sender : SockaddrIn) (r : RecvResult) (cb : RmcCtrlBlock)
    (hshort : ShortReceive h r cb) :
    (∃ cb' flag, mcastBranch h sender r cb = some (cb', flag)
        ∧ Unchanged cb cb' (allocMsg cb).2 (allocMsg cb).1.bufmsgq)
      ↔ (0 ≤ recvRet r cb ∧ recvRet r cb < sizeofHdr)
        ∨ (recvRet r cb < 0 ∧ Harmless h (allocMsg cb).2 (received h r cb)) := by
  have hlen := (((received h r cb).msgs (allocMsg cb).2).hdrLength h.endian).toNat_lt
  have hret : (recvMsg r cb).2.2 = sizeT (recvRet r cb) := rfl
  have hcode : mcastBranch h sender r cb
      = if (recvMsg r cb).2.2 < sizeofHdr then
          some (releaseMsg (recvMsg r cb).1 (allocMsg cb).2, true)
        else if (recvMsg r cb).2.2
            < (((received h r cb).msgs (allocMsg cb).2).hdrLength h.endian).toNat + sizeofHdr then
          some (received h r cb, true)
        else (dispatch h sender (allocMsg cb).2 (received h r cb)).map fun cb => (cb, false) := rfl
  have hhdr : sizeofHdr = 12 := rfl
  by_cases hneg : recvRet r cb < 0
  · -- −1 is a large number for both checks
    have hminus : recvRet r cb = -1 := by
      have := RecvResult.neg_one_le_ret (r.limit ((allocMsg cb).1.msgs (allocMsg cb).2).size)
      unfold recvRet at hneg ⊢
      omega
    have hsize : sizeT (recvRet r cb) = 4294967295 := by
      rw [hminus]
      rfl
    rw [hcode, hret, hsize, if_neg (by omega), if_neg (by omega)]
    simp only [Option.map_eq_some_iff, Prod.mk.injEq, hneg, true_and]
    rw [← dispatch_unchanged_iff h sender]
    constructor
    · intro hex
      obtain ⟨cb', flag, ⟨cb₁, hd, rfl, -⟩, hun⟩ := hex
      exact .inr ⟨cb₁, hd, (unchanged_received h r cb cb₁).mpr hun⟩
    · intro hor
      rcases hor with ⟨hpos, -⟩ | ⟨cb', hd, hun⟩
      · omega
      · exact ⟨cb', false, ⟨cb', hd, rfl, rfl⟩, (unchanged_received h r cb cb').mp hun⟩
  · have hsmall : recvRet r cb < 65548 := by
      unfold ShortReceive at hshort
      omega
    have hsize : (sizeT (recvRet r cb) : Int) = recvRet r cb := by
      simp only [sizeT]
      omega
    by_cases hhead : recvRet r cb < sizeofHdr
    · rw [hcode, hret, if_pos (by omega)]
      simp only [not_lt.mp hneg, hhead, true_and, true_or, iff_true]
      refine ⟨_, _, rfl, (unchanged_received h r cb _).mp ?_⟩
      exact ⟨rfl, rfl, rfl, fun _ _ _ => ⟨rfl, rfl, rfl⟩, rfl, rfl⟩
    · have htrunc : recvRet r cb
          < sizeofHdr + (((received h r cb).msgs (allocMsg cb).2).hdrLength h.endian).toNat := by
        unfold ShortReceive at hshort
        omega
      rw [hcode, hret, if_neg (by omega), if_pos (by omega)]
      simp only [hneg, hhead, and_false, false_and, or_false, iff_false]
      intro hex
      obtain ⟨cb', flag, heq, hun⟩ := hex
      obtain ⟨rfl, -⟩ := Prod.mk.inj (Option.some.inj heq)
      exact not_unchanged_of_pool rfl ((unchanged_received h r cb _).mpr hun)

/-- One byte for a node that knows nobody: the buffer goes back. -/
theorem short_receive_iff_one_byte :
    ∃ cb' flag, mcastBranch littleHost anyAddr (.ok [9]) (rmcastInit zeroGarbage plainArgs)
        = some (cb', flag)
      ∧ Unchanged (rmcastInit zeroGarbage plainArgs) cb'
          (allocMsg (rmcastInit zeroGarbage plainArgs)).2
          (allocMsg (rmcastInit zeroGarbage plainArgs)).1.bufmsgq := by
  have hret : recvRet (.ok [9]) (rmcastInit zeroGarbage plainArgs) = 1 := by decide +kernel
  have hhdr : (sizeofHdr : Int) = 12 := rfl
  have hshort : ShortReceive littleHost (.ok [9]) (rmcastInit zeroGarbage plainArgs) := by
    unfold ShortReceive
    omega
  exact (short_receive_iff littleHost anyAddr (.ok [9]) _ hshort).mpr (by omega)

/-- A pass that only sends a heartbeat. -/
def beating : Iteration := { mcast := none, ipc := none, hbeat := true }

/-- A node sends a heartbeat, and then the receive into the same buffer
fails: the node registers itself as a member. -/
theorem short_receive_fails :
    ∃ cb cb' flag, run (iteration littleHost) (rmcastInit zeroGarbage plainArgs) [beating] = some cb
      ∧ recvRet .err cb = -1
      ∧ mcastBranch littleHost anyAddr .err cb = some (cb', flag)
      ∧ htblGet cb.members 1 = none ∧ htblGet cb'.members 1 = some 0 := by
  have hrun : (run (iteration littleHost) (rmcastInit zeroGarbage plainArgs) [beating]).map
      (fun cb => (recvRet .err cb, htblGet cb.members 1,
        (mcastBranch littleHost anyAddr .err cb).map fun r => htblGet r.1.members 1))
      = some (-1, none, some (some 0)) := by decide +kernel
  obtain ⟨cb, hcb, heq⟩ := Option.map_eq_some_iff.mp hrun
  simp only [Prod.mk.injEq] at heq
  obtain ⟨hret, hbefore, hafter⟩ := heq
  obtain ⟨⟨cb', flag⟩, hstep, hone⟩ := Option.map_eq_some_iff.mp hafter
  exact ⟨cb, cb', flag, hcb, hret, hstep, hbefore, hone⟩

end Rms.V01
