/-
Rms.V01.GapTheorems — numbers ahead of their turn.

A DATA message or a heartbeat whose number lies beyond the one that is
due tells the receiver that messages are missing. The handler should
then cache the message and send a NACK that lists what is missing below
its number.

Whether a number is ahead is decided by comparing it with
`mem->sequence` as an unsigned word, so the answer is right exactly as
long as the numbers have not wrapped in between (`ahead_iff`).
A member registered by a heartbeat with number 0 starts on the wrong
side: everything ahead of its first message is dropped.

What the NACK lists has nothing to do with the number at hand. The loop
of `send_nack` counts from `sequence + 1` to `sequence - 1`, so it always
goes once round (`collect_nack`), and never lists just what is missing
in the rounds that takes (`nack_never_exact`).
-/
import Rms.V01.HbeatTheorems
import Rms.V01.NackTheorems

namespace Rms.V01

open Rms.ByteMem Rms.Util Rms.Serial Rms.Runs

variable {h : Host} {sender : SockaddrIn} {cb : RmcCtrlBlock} {mp p : Nat}

/-! ## The calls of `send_nack` -/

/-- The state in which the DATA case calls `send_nack`, and the buffer for
the NACK. -/
def dataNack (h : Host) (mp p : Nat) (cb : RmcCtrlBlock) : RmcCtrlBlock × Nat :=
  allocMsg (cacheMsg h mp p cb)

/-- The state in which the HBEAT case calls `send_nack` for a member whose
session goes on. -/
def hbeatNack (h : Host) (mp p : Nat) (cb : RmcCtrlBlock) : RmcCtrlBlock :=
  hbeatApply h p (cb.setMsg p (hbeatDecode h.endian (cb.msgs p)), mp)

theorem dataNack_mem (h : Host) (mp p : Nat) (cb : RmcCtrlBlock) :
    (dataNack h mp p cb).1.mems mp = { cb.mems mp with
      unseqMsgs := htblPut (cb.mems mp).unseqMsgs ((cb.msgs p).hdrSequence h.endian) p } := by
  rw [dataNack, (allocMsg_receiver (cacheMsg h mp p cb)).1, cacheMsg, RmcCtrlBlock.setMem_self]

/-- The heartbeat's buffer and the member are all that has changed by then. -/
theorem hbeatNack_eq (h : Host) (mp p : Nat) (cb : RmcCtrlBlock) :
    ∃ msg, hbeatNack h mp p cb = (cb.setMsg p msg).setMem mp (hbeatUpdate h.endian
      (hbeatDecode h.endian (cb.msgs p)) cb.self.id (cb.mems mp)) := by
  refine ⟨hbeatDecodeTail h.endian (hbeatDecode h.endian (cb.msgs p)), ?_⟩
  simp only [hbeatNack, hbeatApply, RmcCtrlBlock.setMem, RmcCtrlBlock.setMsg,
    Function.update_self, Function.update_idem]

theorem hbeatNack_mem (h : Host) (mp p : Nat) (cb : RmcCtrlBlock) :
    (hbeatNack h mp p cb).mems mp = hbeatUpdate h.endian (hbeatDecode h.endian (cb.msgs p))
      cb.self.id (cb.mems mp) := by
  obtain ⟨msg, heq⟩ := hbeatNack_eq h mp p cb
  rw [heq, RmcCtrlBlock.setMem_self]

theorem hbeatNack_hdrSequence (h : Host) (mp p : Nat) (cb : RmcCtrlBlock) :
    ((hbeatNack h mp p cb).msgs p).hdrSequence h.endian = (cb.msgs p).hdrSequence h.endian := by
  simp only [hbeatNack, hbeatApply, RmcCtrlBlock.setMsg_self]
  rw [hbeatDecodeTail_hdrSequence]
  exact (hbeatDecode_header h.endian (cb.msgs p)).2.1

/-- The DATA case for a number that is not due. -/
theorem dataMsg_gap (hk : htblGet cb.members ((cb.msgs p).hdrId h.endian) = some mp)
    (hne : (cb.mems mp).sequence + 1 ≠ (cb.msgs p).hdrSequence h.endian) :
    dataMsg h sender p cb
      = if (cb.mems mp).sequence < (cb.msgs p).hdrSequence h.endian then
          releaseMsg (sendNack h mp (dataNack h mp p cb).2 (dataNack h mp p cb).1)
            (dataNack h mp p cb).2
        else releaseMsg cb p := by
  unfold dataMsg
  rw [hk]
  simp only [hne, ne_eq, not_false_eq_true, if_true]
  rfl

/-- The HBEAT case for a number that is not due. -/
theorem hbeatMsg_gap (hk : htblGet cb.members ((cb.msgs p).hdrId h.endian) = some mp)
    (hsess : (hbeatDecode h.endian (cb.msgs p)).hbeatSession h.endian = (cb.mems mp).session)
    (hne : (cb.mems mp).sequence + 1 ≠ (cb.msgs p).hdrSequence h.endian) :
    hbeatMsg h p cb
      = if (cb.mems mp).sequence < (cb.msgs p).hdrSequence h.endian then
          releaseMsg (sendNack h mp p (hbeatNack h mp p cb)) p
        else releaseMsg (hbeatNack h mp p cb) p := by
  have hseq : ((hbeatNack h mp p cb).mems mp).sequence = (cb.mems mp).sequence := by
    rw [hbeatNack_mem]
    exact (hbeatUpdate_sequence _ _ _ _).1
  have hgap : hbeatGap h mp p (hbeatNack h mp p cb)
      = if (cb.mems mp).sequence < (cb.msgs p).hdrSequence h.endian then
          sendNack h mp p (hbeatNack h mp p cb)
        else hbeatNack h mp p cb := by
    unfold hbeatGap
    rw [hseq, hbeatNack_hdrSequence, if_pos hne]
  rw [hbeatMsg_eq, hbeatMember_same hk hsess]
  change releaseMsg (hbeatGap h mp p (hbeatNack h mp p cb)) p = _
  rw [hgap]
  split <;> rfl

/-! ## What counts as ahead -/

/-- A number `d` beyond the one that is due, as the code compares it. -/
theorem ahead_iff (s : UInt32) {d : Nat} (hpos : 1 ≤ d) (hnear : d < 2147483648) :
    s + 1 ≠ s + 1 + UInt32.ofNat d
      ∧ (s < s + 1 + UInt32.ofNat d ↔ s.toNat + 1 + d < 4294967296) := by
  have hs := s.toNat_lt
  have hone : (1 : UInt32).toNat = 1 := rfl
  constructor
  · intro heq
    have hnat := congrArg UInt32.toNat heq
    simp only [UInt32.toNat_add, UInt32.toNat_ofNat', hone] at hnat
    omega
  · simp only [UInt32.lt_iff_toNat_lt, UInt32.toNat_add, UInt32.toNat_ofNat', hone]
    omega

/-! ## What the NACK lists -/

/-- The loop of `send_nack` for a member, with the rounds it is given. -/
def nackRounds (mem : RmcMember) (fuel : Nat) : Option (List UInt32) :=
  collect (fun k => (htblGet mem.unseqMsgs k).isNone) (mem.sequence - 1) fuel (mem.sequence + 1)

/-- The numbers between the last one delivered and `q` that are not
cached, in their order. -/
def missingBelow (mem : RmcMember) (q : UInt32) : List UInt32 :=
  (span (mem.sequence + 1) (dist mem.sequence q - 1)).filter
    fun k => (htblGet mem.unseqMsgs k).isNone

/-- The loop of `send_nack` ends in as many rounds as `q` is away, and
lists what is missing below `q`. -/
def NackExact (mem : RmcMember) (q : UInt32) : Prop :=
  nackRounds mem (dist mem.sequence q) = some (missingBelow mem q)

theorem dist_around (s : UInt32) : dist (s + 1) (s - 1) = 4294967294 := by
  have hone : (1 : UInt32).toNat = 1 := rfl
  have hlt := s.toNat_lt
  rw [Serial.dist, UInt32.toNat_sub, UInt32.toNat_sub, UInt32.toNat_add, hone]
  omega

/-- The loop goes once round, whatever made the handler call it. -/
theorem collect_nack (mem : RmcMember) (fuel : Nat) :
    nackRounds mem fuel = if 4294967294 ≤ fuel then some (nackList mem) else none := by
  rw [nackRounds, collect_eq, dist_around, nackList_eq]

theorem not_nackExact {mem : RmcMember} {q : UInt32} (hnear : dist mem.sequence q < 2147483648) :
    ¬ NackExact mem q := by
  rw [NackExact, collect_nack, if_neg (by omega)]
  intro hnone
  cases hnone

/-- **NACK contents.** No call of `send_nack` that the handlers make for a
number `q` ahead of its turn ends within `q - s` rounds with the missing
numbers below `q`. -/
theorem nack_never_exact (h : Host) (sender : SockaddrIn) {cb : RmcCtrlBlock} {mp p : Nat}
    (hk : htblGet cb.members ((cb.msgs p).hdrId h.endian) = some mp)
    (hahead : 1 < dist (cb.mems mp).sequence ((cb.msgs p).hdrSequence h.endian))
    (hnear : dist (cb.mems mp).sequence ((cb.msgs p).hdrSequence h.endian) < 2147483648) :
    (((cb.mems mp).sequence < (cb.msgs p).hdrSequence h.endian →
        dataMsg h sender p cb
          = releaseMsg (sendNack h mp (dataNack h mp p cb).2 (dataNack h mp p cb).1)
              (dataNack h mp p cb).2)
      ∧ ¬ NackExact ((dataNack h mp p cb).1.mems mp) ((cb.msgs p).hdrSequence h.endian))
    ∧ ((hbeatDecode h.endian (cb.msgs p)).hbeatSession h.endian = (cb.mems mp).session →
        ((cb.mems mp).sequence < (cb.msgs p).hdrSequence h.endian →
          hbeatMsg h p cb = releaseMsg (sendNack h mp p (hbeatNack h mp p cb)) p)
        ∧ ¬ NackExact ((hbeatNack h mp p cb).mems mp) ((cb.msgs p).hdrSequence h.endian)) := by
  have hne : (cb.mems mp).sequence + 1 ≠ (cb.msgs p).hdrSequence h.endian := by
    intro heq
    have hnext := dist_succ (cb.mems mp).sequence (cb.mems mp).sequence (by simp)
    rw [heq, dist_self] at hnext
    omega
  constructor
  · constructor
    · intro hcall
      rw [dataMsg_gap hk hne, if_pos hcall]
    · apply not_nackExact
      rw [dataNack_mem]
      exact hnear
  · intro hsess
    constructor
    · intro hcall
      rw [hbeatMsg_gap hk hsess hne, if_pos hcall]
    · apply not_nackExact
      rw [hbeatNack_mem, (hbeatUpdate_sequence _ _ _ _).1]
      exact hnear

/-! ## Node 2 on the wire -/

/-- A heartbeat of node 2 that announces a number. -/
def hbeatAt (sequence : UInt32) : SockaddrIn × Datagram :=
  (anyAddr, { hbeatOne with sequence := sequence })

/-- A node that expects number 1 of node 2 and has received number 3. -/
def threeArrived : RmcCtrlBlock := received littleHost (.ok (dataOne 3 33).bytes) knowsTwo

/-- The calls for number 3 that node 2's message and a heartbeat make. -/
theorem nack_never_exact_three :
    ¬ NackExact ((dataNack littleHost 0 (allocMsg knowsTwo).2 threeArrived).1.mems 0)
      ((threeArrived.msgs (allocMsg knowsTwo).2).hdrSequence littleHost.endian) := by
  have hk : htblGet threeArrived.members
      ((threeArrived.msgs (allocMsg knowsTwo).2).hdrId littleHost.endian) = some 0 := by
    decide +kernel
  have hdist : dist (threeArrived.mems 0).sequence
      ((threeArrived.msgs (allocMsg knowsTwo).2).hdrSequence littleHost.endian) = 3 := by
    decide +kernel
  exact (nack_never_exact littleHost anyAddr hk (by omega) (by omega)).1.2

/-- Node 2 announces number 5 and number 6 arrives: number 5 is missing,
and the loop has not ended after the two rounds from 4 to 6. -/
theorem nack_exact_fails :
    ∃ cb mem, run (receive littleHost) (rmcastInit zeroGarbage plainArgs) [hbeatAt 5] = some cb
      ∧ mem = (dataNack littleHost 0 (allocMsg cb).2
          (received littleHost (.ok (dataOne 6 33).bytes) cb)).1.mems 0
      ∧ dist mem.sequence 6 = 2 ∧ missingBelow mem 6 = [5]
      ∧ nackRounds mem (dist mem.sequence 6) = none := by
  have hrun : (run (receive littleHost) (rmcastInit zeroGarbage plainArgs) [hbeatAt 5]).map
      (fun cb =>
        let mem := (dataNack littleHost 0 (allocMsg cb).2
          (received littleHost (.ok (dataOne 6 33).bytes) cb)).1.mems 0
        (dist mem.sequence 6, missingBelow mem 6, nackRounds mem (dist mem.sequence 6)))
      = some (2, [5], none) := by
    decide +kernel
  obtain ⟨cb, hcb, heq⟩ := Option.map_eq_some_iff.mp hrun
  simp only [Prod.mk.injEq] at heq
  exact ⟨cb, _, hcb, rfl, heq⟩

end Rms.V01
