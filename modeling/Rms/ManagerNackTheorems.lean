/-
Rms.ManagerNackTheorems — what the NACKs of `rms_manager` list.

A datagram with number `q` beyond the next one tells that messages are
missing below it. `send_nack` does not get `q`: it lists what is not
cached from `sequence_rcvd + 1` up to, and not including,
`sequence_sent - 1`. After a DATA datagram `sequence_sent` is `q`, so the
list stops one number short; a heartbeat leaves `sequence_sent` where the
last DATA datagram put it, and if that is not ahead of `sequence_rcvd`
the loop goes on all the way round.

So the list is right exactly if nothing that is not cached lies between
the place where the loop stops and `q` (`rms_nack_exact_iff`).
-/
import Rms.ManagerTheorems

namespace Rms.Manager

open Rms.Util Rms.Serial

/-- The numbers between `s` and `q` that are not cached, each once. -/
structure NackExact (unseq : Htbl RmsMetaMsg) (s q : UInt32) (listed : List UInt32) : Prop where
  once : listed.Nodup
  exact : ∀ k, k ∈ listed ↔ s < k ∧ k < q ∧ htblGet unseq k = none

/-- The loop of `send_nack` for a peer, with the rounds it is given. -/
def nackRounds (peer : RmsMetaPeer RmsMetaMsg) (fuel : Nat) : Option (List UInt32) :=
  collect (fun k => (htblGet peer.htUnseqMsgs k).isNone) (peer.sequenceSent - 1) fuel
    (peer.sequenceRcvd + 1)

/-! ## The loop -/

theorem nackScan_eq (unseq : Htbl RmsMetaMsg) (n : Nat) :
    ∀ itr, nackScan unseq n itr
      = (span itr n).filter fun k => (htblGet unseq k).isNone := by
  induction n with
  | zero => intro itr; rfl
  | succ n ih =>
    intro itr
    rw [span_succ, List.filter_cons, nackScan]
    cases htblGet unseq itr with
    | none => simp [ih]
    | some m => simp [ih]

/-- What `send_nack` lists for a peer. -/
def nackListed (peer : RmsMetaPeer RmsMetaMsg) : List UInt32 :=
  nackScan peer.htUnseqMsgs (dist (peer.sequenceRcvd + 1) (peer.sequenceSent - 1))
    (peer.sequenceRcvd + 1)

theorem sendNack_nacks (pp : Nat) (cb : Rmscb RmsMetaMsg) :
    (sendNack pp cb).nacks = cb.nacks
      ++ [⟨(cb.peers pp).sequenceRcvd, (cb.peers pp).id, nackListed (cb.peers pp)⟩] := rfl

/-- The loop ends, and this is its list. -/
theorem nackRounds_listed (peer : RmsMetaPeer RmsMetaMsg) :
    nackRounds peer 4294967295 = some (nackListed peer) := by
  have hlt := dist_lt (peer.sequenceRcvd + 1) (peer.sequenceSent - 1)
  rw [nackRounds, collect_eq, if_pos (by omega), nackListed, nackScan_eq]

/-- The numbers between `s` and `q`, as distances from the one after `s`. -/
theorem between_iff {s q : UInt32} (hq : s.toNat + 1 < q.toNat) (k : UInt32) :
    s < k ∧ k < q ↔ dist (s + 1) k < dist (s + 1) q := by
  have hs := s.toNat_lt
  have hk := k.toNat_lt
  have hlt := q.toNat_lt
  have hone : (1 : UInt32).toNat = 1 := rfl
  simp only [UInt32.lt_iff_toNat_lt, Serial.dist, UInt32.toNat_sub, UInt32.toNat_add, hone]
  omega

theorem mem_nackListed (peer : RmsMetaPeer RmsMetaMsg) (k : UInt32) :
    k ∈ nackListed peer
      ↔ dist (peer.sequenceRcvd + 1) k < dist (peer.sequenceRcvd + 1) (peer.sequenceSent - 1)
        ∧ htblGet peer.htUnseqMsgs k = none := by
  have hlt := dist_lt (peer.sequenceRcvd + 1) (peer.sequenceSent - 1)
  rw [nackListed, nackScan_eq, List.mem_filter, mem_span (by omega), Option.isNone_iff_eq_none]

/-- Everything between where the loop stops and `q` is cached, on the way
up from one to the other. -/
def Bridged (peer : RmsMetaPeer RmsMetaMsg) (q : UInt32) : Prop :=
  let stop := peer.sequenceSent - 1
  if dist (peer.sequenceRcvd + 1) stop ≤ dist (peer.sequenceRcvd + 1) q then
    ∀ k, dist stop k < dist stop q → htblGet peer.htUnseqMsgs k ≠ none
  else ∀ k, dist q k < dist q stop → htblGet peer.htUnseqMsgs k ≠ none

theorem nackExact_iff {peer : RmsMetaPeer RmsMetaMsg} {q : UInt32}
    (hq : peer.sequenceRcvd.toNat + 1 < q.toNat) :
    NackExact peer.htUnseqMsgs peer.sequenceRcvd q (nackListed peer) ↔ Bridged peer q := by
  -- the loop reaches just the numbers that it should, of those that are not cached
  have hreach : NackExact peer.htUnseqMsgs peer.sequenceRcvd q (nackListed peer)
      ↔ ∀ k, htblGet peer.htUnseqMsgs k = none →
        (dist (peer.sequenceRcvd + 1) k < dist (peer.sequenceRcvd + 1) (peer.sequenceSent - 1)
          ↔ dist (peer.sequenceRcvd + 1) k < dist (peer.sequenceRcvd + 1) q) := by
    constructor
    · intro hex k hk
      have hiff := hex.exact k
      rw [mem_nackListed, ← and_assoc, between_iff hq] at hiff
      simpa [hk] using hiff
    · intro hall
      refine ⟨?_, fun k => ?_⟩
      · have hlt := dist_lt (peer.sequenceRcvd + 1) (peer.sequenceSent - 1)
        rw [nackListed, nackScan_eq]
        exact (span_nodup (by omega)).filter _
      · rw [mem_nackListed, ← and_assoc, between_iff hq]
        exact and_congr_left fun hk => hall k hk
  rw [hreach, Bridged]
  split
  · rename_i hle
    refine forall_congr' fun k => ?_
    rw [← dist_between hle k]
    by_cases hk : htblGet peer.htUnseqMsgs k = none
    · simp only [hk, forall_const, ne_eq, not_true_eq_false, imp_false]
      omega
    · simp [hk]
  · rename_i hlt
    have hle : dist (peer.sequenceRcvd + 1) q
        ≤ dist (peer.sequenceRcvd + 1) (peer.sequenceSent - 1) := by omega
    refine forall_congr' fun k => ?_
    rw [← dist_between hle k]
    by_cases hk : htblGet peer.htUnseqMsgs k = none
    · simp only [hk, forall_const, ne_eq, not_true_eq_false, imp_false]
      omega
    · simp [hk]

/-! ## The calls -/

/-- The peer for which the DATA case calls `send_nack`: the number at hand
noted and the message cached. -/
def dataPeer (peer : RmsMetaPeer RmsMetaMsg) (msg : RmsMetaMsg) : RmsMetaPeer RmsMetaMsg :=
  { peer with sequenceSent := msg.sequence
              htUnseqMsgs := htblPut peer.htUnseqMsgs msg.sequence msg }

theorem dataMsg_gap {cb : Rmscb RmsMetaMsg} {msg : RmsMetaMsg} {pp : Nat}
    (hk : htblGet cb.htPeers msg.id = some pp)
    (hq : (cb.peers pp).sequenceRcvd.toNat + 1 < msg.sequence.toNat) :
    dataMsg cb msg = sendNack pp (cb.setPeer pp (dataPeer (cb.peers pp) msg)) := by
  have hlt : (cb.peers pp).sequenceRcvd < msg.sequence := by
    rw [UInt32.lt_iff_toNat_lt]
    omega
  have hne : (cb.peers pp).sequenceRcvd + 1 ≠ msg.sequence := by
    intro heq
    have hnat := congrArg UInt32.toNat heq
    have hone : (1 : UInt32).toNat = 1 := rfl
    rw [UInt32.toNat_add, hone] at hnat
    have hmax := msg.sequence.toNat_lt
    omega
  simp only [dataMsg, hk, hne, ne_eq, not_false_eq_true, if_true, hlt]
  rfl

/-- After a DATA datagram, only the number before it is left out. -/
theorem bridged_dataPeer {peer : RmsMetaPeer RmsMetaMsg} {msg : RmsMetaMsg}
    (hq : peer.sequenceRcvd.toNat + 1 < msg.sequence.toNat) :
    Bridged (dataPeer peer msg) msg.sequence
      ↔ htblGet peer.htUnseqMsgs (msg.sequence - 1) ≠ none := by
  have hmax := msg.sequence.toNat_lt
  have hs := peer.sequenceRcvd.toNat_lt
  have hone : (1 : UInt32).toNat = 1 := rfl
  have hle : dist (peer.sequenceRcvd + 1) (msg.sequence - 1)
      ≤ dist (peer.sequenceRcvd + 1) msg.sequence := by
    simp only [Serial.dist, UInt32.toNat_sub, UInt32.toNat_add, hone]
    omega
  have hstep : dist (msg.sequence - 1) msg.sequence = 1 := by
    simp only [Serial.dist, UInt32.toNat_sub, hone]
    omega
  have hother : msg.sequence - 1 ≠ msg.sequence := by
    intro heq
    rw [heq, Serial.dist_self] at hstep
    cases hstep
  have hcache : htblGet (htblPut peer.htUnseqMsgs msg.sequence msg) (msg.sequence - 1)
      = htblGet peer.htUnseqMsgs (msg.sequence - 1) := by
    cases hput : htblGet peer.htUnseqMsgs msg.sequence with
    | some m => rw [htblPut_of_some msg hput]
    | none => rw [htblPut_of_none msg hput, htblGet_insert, if_neg hother]
  simp only [Bridged, dataPeer, hle, if_true, hstep]
  constructor
  · intro hall
    rw [← hcache]
    exact hall (msg.sequence - 1) (by simp)
  · intro hprev k hk
    have heq : k = msg.sequence - 1 := by
      refine dist_inj (e := msg.sequence - 1) ?_
      rw [Serial.dist_self]
      omega
    rw [heq, hcache]
    exact hprev

/-- The peer for which the HEARTBEAT case calls `send_nack`. -/
def hbeatPeerOf (cb : Rmscb RmsMetaMsg) (hbeat : RmsMsgHbeat) : RmsMetaPeer RmsMetaMsg :=
  let (cb, pp) := hbeatPeer cb hbeat
  { cb.peers pp with
    lost := hbeat.lost
    sequenceSync := (ackFor cb.selfId hbeat.acks).getD (cb.peers pp).sequenceSync }

theorem heartbeatMsg_gap {cb : Rmscb RmsMetaMsg} {hbeat : RmsMsgHbeat}
    (hne : (hbeatPeerOf cb hbeat).sequenceSent + 1 ≠ hbeat.sequence)
    (hlt : (hbeatPeerOf cb hbeat).sequenceSent < hbeat.sequence) :
    heartbeatMsg cb hbeat = sendNack (hbeatPeer cb hbeat).2
      ((hbeatPeer cb hbeat).1.setPeer (hbeatPeer cb hbeat).2 (hbeatPeerOf cb hbeat)) := by
  unfold heartbeatMsg
  simp only
  exact (if_pos hne).trans (if_pos hlt)

/-- Node 2 announced number 1, and its number 3 came. -/
def threeCame : Rmscb RmsMetaMsg := dataMsg (heartbeatMsg noPeers (hbeatTwo 1)) ⟨3, 2, []⟩

end Rms.Manager
