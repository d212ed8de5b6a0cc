/-
Rms.V01.RejoinTheorems — what a receiver makes of a sender that is back.

The receiver takes a heartbeat for the start of something new only if the
sender is unknown to it or the session differs. `rmcast_leave` sets the
sender's number back to 0 and keeps the session, so if the LEAVE is lost
a heartbeat of the new incarnation changes nothing and the receiver goes
on expecting the number the old one had reached. `rejoin_safe` says that
this is the only way for a heartbeat to leave the receiver expecting a
number above the announced one (`Separated`), and what else the messages
behind it need for none of them to be thrown away as a retransmission
(`InTurn`).
-/
import Rms.V01.Rejoin
import Rms.V01.SessionTheorems
import Rms.V01.WindowTheorems

namespace Rms.V01

open Rms.ByteMem Rms.Util Rms.Runs Rms.Serial

variable {cb cb' : RmcCtrlBlock} {hand : List Nat} {h hs hr : Host}

/-! ## Branches below the switch -/

theorem hbeatBranch_peers (hb : hbeatBranch h cb = some cb') :
    cb'.members = cb.members ∧ cb'.mems = cb.mems := by
  obtain ⟨n, q, cs, buf, nmsgs, f, sent, -, -, rfl⟩ := hbeatBranch_spec hb
  obtain ⟨o, b, s, hframe⟩ := purge_frame cb.hbSeqP2
    { cb with membersq := q, bufmsgq := buf, nmsgs := nmsgs, msgs := f, sent := sent
              hbSeqP1 := cb.self.sequence, hbSeqP2 := cb.hbSeqP1, hbSeqP3 := cb.hbSeqP2 }
  rw [hframe]
  exact ⟨rfl, rfl⟩

theorem ackBranch_peers (hb : ackBranch cb = some cb') :
    cb'.members = cb.members ∧ cb'.mems = cb.mems := by
  obtain ⟨q, sync, o, b, s, rfl⟩ := ackBranch_eq hb
  exact ⟨rfl, rfl⟩

/-- Only a datagram that reaches the switch with the id of a peer moves
that peer. -/
theorem peerAt_branch {b : Branch} {x : UInt32} (hown : Owned cb hand)
    (hb : branch h cb b = some cb')
    (hnot : ∀ sender r m, b = .mcast sender r → accepted h r cb = some m → m.hdrId h.endian ≠ x) :
    peerAt cb' x = peerAt cb x := by
  cases b with
  | mcast sender r =>
    obtain ⟨⟨cb₁, flag⟩, hm, rfl⟩ := Option.map_eq_some_iff.mp hb
    rw [peerAt_mcastBranch hown hm x]
    split
    · rfl
    · rename_i m hacc
      exact if_neg fun hx => hnot sender r m rfl hacc hx.symm
  | ipc i =>
    obtain rfl := Option.some.inj hb
    obtain ⟨hmembers, hmems, -⟩ := ipcBranch_receiver h i cb
    exact peerAt_congr hmembers hmems x
  | hbeat => exact peerAt_congr (hbeatBranch_peers hb).1 (hbeatBranch_peers hb).2 x
  | ack => exact peerAt_congr (ackBranch_peers hb).1 (ackBranch_peers hb).2 x

/-! ## One step -/

namespace Rejoin

variable {s s' : Rejoin} {source : SockaddrIn} {i : Nat}

/-- The datagram in a step of the receiver. -/
theorem step_arrive (hstep : s.step hs hr (.arrive source i) = some s') :
    ∃ x cb flag, s.sender.sent[i]? = some x ∧ s.past ≤ i
      ∧ mcastBranch hr source (.ok x.bytes) s.receiver = some (cb, flag)
      ∧ s' = s.note hr i cb := by
  simp only [step] at hstep
  split at hstep
  · cases hstep
  · rename_i x hx
    split at hstep
    · rename_i hok
      obtain ⟨cb₁, hb, rfl⟩ := Option.map_eq_some_iff.mp hstep
      obtain ⟨⟨cb₂, flag⟩, hm, rfl⟩ := Option.map_eq_some_iff.mp hb
      exact ⟨x, cb₂, flag, hx, hok.1, hm, rfl⟩
    · cases hstep

theorem note_frame (h : Host) (s : Rejoin) (i : Nat) (cb : RmcCtrlBlock) :
    (s.note h i cb).receiver = cb ∧ (s.note h i cb).id = s.id
      ∧ (s.note h i cb).mark = s.mark ∧ (s.note h i cb).past = i + 1 := by
  unfold note
  split
  · exact ⟨rfl, rfl, rfl, rfl⟩
  · split <;> exact ⟨rfl, rfl, rfl, rfl⟩

/-- A message of the new incarnation is the one that reached the switch, and
it names the sender. -/
theorem news_eq_some {m : RmcMsg} (hm : s.news h i = some m) :
    ∃ k x, s.mark = some k ∧ k ≤ i ∧ s.sender.sent[i]? = some x
      ∧ accepted h (.ok x.bytes) s.receiver = some m ∧ m.hdrId h.endian = s.id := by
  unfold news at hm
  split at hm
  · rename_i k x hk hx
    split at hm
    · rename_i hle
      obtain ⟨hacc, hid⟩ := Option.filter_eq_some_iff.mp hm
      exact ⟨k, x, hk, hle, hx, hacc, of_decide_eq_true hid⟩
    · cases hm
  · cases hm

/-- Behind a message of the new incarnation, the receiver's view of the
sender has made one step. -/
theorem peerAt_news {x : Sendto} {flag : Bool} {m : RmcMsg} (hown : Owned s.receiver hand)
    (hx : s.sender.sent[i]? = some x)
    (hb : mcastBranch h source (.ok x.bytes) s.receiver = some (cb, flag))
    (hm : s.news h i = some m) :
    peerAt cb s.id = Peer.next (number h.endian (received h (.ok x.bytes) s.receiver))
      (peerAt s.receiver s.id)
      ((eventOf h.endian m ()).map fun _ => (allocMsg s.receiver).2) := by
  obtain ⟨k, x', -, -, hx', hacc, hid⟩ := news_eq_some hm
  obtain rfl := Option.some.inj (hx'.symm.trans hx)
  rw [peerAt_mcastBranch hown hb s.id, hacc, eventOf_map]
  exact if_pos hid.symm

theorem owned_step {op : RejoinOp} (hown : ∃ hand, Owned s.receiver hand)
    (hstep : s.step hs hr op = some s') : ∃ hand, Owned s'.receiver hand := by
  obtain ⟨hand, hown⟩ := hown
  cases op with
  | send b =>
    obtain ⟨cb, -, rfl⟩ := Option.map_eq_some_iff.mp hstep
    exact ⟨hand, hown⟩
  | leave keys =>
    obtain rfl := Option.some.inj hstep
    exact ⟨hand, hown⟩
  | exit =>
    obtain rfl := Option.some.inj hstep
    exact ⟨hand, hown⟩
  | arrive source i =>
    obtain ⟨x, cb, flag, -, -, hb, rfl⟩ := step_arrive hstep
    rw [(note_frame hr s i cb).1]
    obtain ⟨leak, hleak, -⟩ := owned_mcastBranch hr source _ hown hb
    exact ⟨_, hleak⟩
  | other b =>
    simp only [step] at hstep
    split at hstep
    · cases hstep
    · obtain ⟨cb, hb, rfl⟩ := Option.map_eq_some_iff.mp hstep
      exact owned_branch hown hb

/-! ### What a heartbeat does -/

/-- A heartbeat leaves the receiver expecting no number above its own
exactly if the sender was unknown, had another session, or was expected
at no number above it before. -/
theorem next_hbeat_iff {num : Nat → UInt32} {v : Option (Peer Nat)} {session q : UInt32} :
    (∃ w, Peer.next num v (.hbeat session q) = some w ∧ w.sequence + 1 ≤ q)
      ↔ ∀ u, v = some u → session = u.session → u.sequence + 1 ≤ q := by
  have hreset : q - 1 + 1 ≤ q := by
    rw [UInt32.sub_add_cancel]
    exact UInt32.le_refl q
  cases v with
  | none =>
    refine ⟨fun _ u hu => ?_, fun _ => ⟨_, rfl, hreset⟩⟩
    cases hu
  | some u =>
    by_cases hsess : session = u.session
    · have hnext : Peer.next num (some u) (.hbeat session q) = some u :=
        if_neg fun hne => hne hsess
      rw [hnext]
      constructor
      · rintro ⟨w, hw, hle⟩ u' hu' -
        obtain rfl := Option.some.inj hw
        obtain rfl := Option.some.inj hu'
        exact hle
      · intro hle
        exact ⟨u, rfl, hle u rfl hsess⟩
    · have hnext : Peer.next num (some u) (.hbeat session q)
          = some { u with session := session, sequence := q - 1 } := if_pos hsess
      rw [hnext]
      refine ⟨fun _ u' hu' heq => ?_, fun _ => ⟨_, rfl, hreset⟩⟩
      obtain rfl := Option.some.inj hu'
      exact absurd heq hsess

/-- **One step** ends with a good expectation exactly if it is separated. -/
theorem expects_step_iff {op : RejoinOp} (hown : ∃ hand, Owned s.receiver hand)
    (hstep : s.step hs hr op = some s') : s'.Expects ↔ Separated hr s op := by
  obtain ⟨hand, hown⟩ := hown
  have hquiet : s'.announced = none → s'.Expects := by
    intro hnone q hq
    rw [hnone] at hq
    cases hq
  cases op with
  | send b =>
    obtain ⟨cb, -, rfl⟩ := Option.map_eq_some_iff.mp hstep
    exact ⟨fun _ => trivial, fun _ => hquiet rfl⟩
  | leave keys =>
    obtain rfl := Option.some.inj hstep
    exact ⟨fun _ => trivial, fun _ => hquiet rfl⟩
  | exit =>
    obtain rfl := Option.some.inj hstep
    exact ⟨fun _ => trivial, fun _ => hquiet rfl⟩
  | other b =>
    simp only [step] at hstep
    split at hstep
    · cases hstep
    · obtain ⟨cb, -, rfl⟩ := Option.map_eq_some_iff.mp hstep
      exact ⟨fun _ => trivial, fun _ => hquiet rfl⟩
  | arrive source i =>
    obtain ⟨x, cb, flag, hx, -, hb, rfl⟩ := step_arrive hstep
    unfold Separated
    cases hm : s.news hr i with
    | none =>
      refine ⟨fun _ m session q v hm' => ?_, fun _ => hquiet ?_⟩
      · cases hm.symm.trans hm'
      · simp only [note, hm]
    | some m =>
      cases hev : eventOf hr.endian m () with
      | hbeat session q =>
        have hpeer := peerAt_news hown hx hb hm
        rw [hev, PeerEvent.map] at hpeer
        have hann : (s.note hr i cb).announced = some q := by simp only [note, hm, hev]
        unfold Expects
        rw [(note_frame hr s i cb).1, (note_frame hr s i cb).2.1, hann, hpeer]
        constructor
        · intro hexp m' session' q' v hm' hev' hv hsess
          obtain rfl := Option.some.inj (hm.symm.trans hm')
          obtain ⟨rfl, rfl⟩ := PeerEvent.hbeat.inj (hev.symm.trans hev')
          exact next_hbeat_iff.mp (hexp q rfl) v hv hsess
        · intro hsep q' hq'
          obtain rfl := Option.some.inj hq'
          exact next_hbeat_iff.mpr fun u hu hsess => hsep m session q u hm hev hu hsess
      | data a =>
        refine ⟨fun _ m' session q v hm' hev' => ?_, fun _ => hquiet ?_⟩
        · obtain rfl := Option.some.inj (hm.symm.trans hm')
          cases hev.symm.trans hev'
        · simp only [note, hm, hev]
      | leave =>
        refine ⟨fun _ m' session q v hm' hev' => ?_, fun _ => hquiet ?_⟩
        · obtain rfl := Option.some.inj (hm.symm.trans hm')
          cases hev.symm.trans hev'
        · simp only [note, hm, hev]
      | other =>
        refine ⟨fun _ m' session q v hm' hev' => ?_, fun _ => hquiet ?_⟩
        · obtain rfl := Option.some.inj (hm.symm.trans hm')
          cases hev.symm.trans hev'
        · simp only [note, hm, hev]

/-! ### What the messages behind it need -/

/-- Every number from an announced one on that is not expected any more was
delivered. -/
structure Caught (s : Rejoin) : Prop where
  owned : ∃ hand, Owned s.receiver hand
  expects : s.Expects
  none_discarded : s.discarded = []
  /-- Heartbeats are heard of an incarnation that has begun to arrive. -/
  begun : s.heard ≠ [] → ∃ k, s.mark = some k ∧ k < s.past
  delivered : ∀ v, peerAt s.receiver s.id = some v → v.sequence + 1 ≠ 0 →
    ∀ q ∈ s.heard, ∀ k, q ≤ k → k ≤ v.sequence → k ∈ s.delivered

/-- A step that leaves the history alone and, once a heartbeat was heard,
the peer as well, if it does not drop it. -/
theorem Caught.keep (hc : Caught s) (hown : ∃ hand, Owned s'.receiver hand) (hexp : s'.Expects)
    (hpeer : s.heard ≠ [] → ∀ v, peerAt s'.receiver s'.id = some v →
      peerAt s.receiver s.id = some v)
    (hheard : s'.heard = s.heard) (hdelivered : s'.delivered = s.delivered)
    (hdiscarded : s'.discarded = s.discarded) (hmark : s'.mark = s.mark)
    (hpast : s.past ≤ s'.past) : Caught s' where
  owned := hown
  expects := hexp
  none_discarded := hdiscarded.trans hc.none_discarded
  begun := by
    intro hne
    rw [hheard] at hne
    obtain ⟨k, hk, hlt⟩ := hc.begun hne
    exact ⟨k, hmark.trans hk, Nat.lt_of_lt_of_le hlt hpast⟩
  delivered := by
    intro v hv hwrap q hq k
    rw [hheard] at hq
    rw [hdelivered]
    exact hc.delivered v (hpeer (List.ne_nil_of_mem hq) v hv) hwrap q hq k

/-- The number is behind what the receiver expects. -/
theorem passed_iff {v : Option (Peer Nat)} {n : UInt32} :
    v.any (fun v => v.sequence + 1 ≠ n ∧ ¬ v.sequence < n) = true
      ↔ ∃ u, v = some u ∧ u.sequence + 1 ≠ n ∧ ¬ u.sequence < n := by
  cases v with
  | none => simp
  | some u => simp

section Arrive

variable {x : Sendto} {flag : Bool} {m : RmcMsg}

/-- A datagram that brings nothing of the new incarnation leaves the peer
alone once that has begun to arrive. -/
theorem peerAt_no_news (hown : Owned s.receiver hand) (hx : s.sender.sent[i]? = some x)
    (hb : mcastBranch h source (.ok x.bytes) s.receiver = some (cb, flag))
    (hnone : s.news h i = none) {k : Nat} (hk : s.mark = some k) (hle : k ≤ i) :
    peerAt cb s.id = peerAt s.receiver s.id := by
  rw [peerAt_mcastBranch hown hb s.id]
  split
  · rfl
  · rename_i m hacc
    refine if_neg fun hid => ?_
    simp only [news, hk, hx, hle, if_true, hacc] at hnone
    exact absurd hid.symm (by simpa using Option.filter_eq_none_iff.mp hnone m rfl)

theorem Caught.hbeat {session q : UInt32} (hc : Caught s) (hown : Owned s.receiver hand)
    (hx : s.sender.sent[i]? = some x)
    (hb : mcastBranch h source (.ok x.bytes) s.receiver = some (cb, flag))
    (hm : s.news h i = some m) (hev : eventOf h.endian m () = .hbeat session q)
    (hsep : ∀ v, peerAt s.receiver s.id = some v → session = v.session → v.sequence + 1 ≤ q)
    (hown' : ∃ hand, Owned (s.note h i cb).receiver hand) (hexp : (s.note h i cb).Expects) :
    Caught (s.note h i cb) := by
  have hpeer := peerAt_news hown hx hb hm
  rw [hev, PeerEvent.map] at hpeer
  obtain ⟨k, -, hk, hle, -⟩ := news_eq_some hm
  have hnote : s.note h i cb = { s with
      receiver := cb, past := i + 1, announced := some q
      heard := if s.resumes session then q :: s.heard else [q]
      delivered := if s.resumes session then s.delivered else [] } := by
    simp only [note, hm, hev]
  rw [hnote] at hown' hexp ⊢
  refine ⟨hown', hexp, hc.none_discarded, fun _ => ⟨k, hk, Nat.lt_succ_of_le hle⟩, ?_⟩
  intro w hw hwrap q' hq' n hqn hn
  dsimp only at hw hq' ⊢
  rw [hpeer] at hw
  by_cases hres : ∃ v, peerAt s.receiver s.id = some v ∧ session = v.session
  · -- the session goes on: the peer is as it was
    obtain ⟨v, hv, hsess⟩ := hres
    have htrue : s.resumes session = true := by
      rw [resumes, hv]
      exact decide_eq_true hsess
    have hsame : w = v := by
      rw [hv] at hw
      exact Option.some.inj (hw.symm.trans (if_neg fun hne => hne hsess))
    subst hsame
    rw [if_pos htrue] at hq' ⊢
    rcases List.mem_cons.mp hq' with rfl | hold
    · -- what this heartbeat announces is not behind yet
      exact absurd (UInt32.le_trans (hsep w hv hsess) hqn) (not_succ_le hwrap hn)
    · exact hc.delivered w hv hwrap q' hold n hqn hn
  · -- the peer starts anew, one number below the announced one
    have hfalse : s.resumes session = false := by
      unfold resumes
      cases hv : peerAt s.receiver s.id with
      | none => rfl
      | some v => exact decide_eq_false fun hsess => hres ⟨v, hv, hsess⟩
    have hseq : w.sequence = q - 1 := by
      cases hv : peerAt s.receiver s.id with
      | none =>
        rw [hv] at hw
        rw [← Option.some.inj hw]
      | some v =>
        have hsess : session ≠ v.session := fun hsess => hres ⟨v, hv, hsess⟩
        rw [hv, Peer.next, if_pos hsess] at hw
        rw [← Option.some.inj hw]
    rw [hfalse, if_neg Bool.false_ne_true] at hq'
    obtain rfl := List.mem_singleton.mp hq'
    refine absurd ?_ (not_succ_le hwrap hn)
    rw [hseq, UInt32.sub_add_cancel]
    exact hqn

theorem Caught.data (hc : Caught s) (hown : Owned s.receiver hand)
    (hx : s.sender.sent[i]? = some x)
    (hb : mcastBranch h source (.ok x.bytes) s.receiver = some (cb, flag))
    (hm : s.news h i = some m) (hev : eventOf h.endian m () = .data ())
    (hturn : ∀ v, s.heard ≠ [] → peerAt s.receiver s.id = some v →
      (v.sequence + 1 = 0 → m.hdrSequence h.endian = 0)
        ∧ (v.sequence + 1 = m.hdrSequence h.endian →
            htblGet v.unseqMsgs (m.hdrSequence h.endian) = none))
    (hown' : ∃ hand, Owned (s.note h i cb).receiver hand) (hexp : (s.note h i cb).Expects) :
    Caught (s.note h i cb) := by
  have hpeer := peerAt_news hown hx hb hm
  rw [hev, PeerEvent.map] at hpeer
  obtain ⟨k, x', hk, hle, hx', hacc, hid⟩ := news_eq_some hm
  obtain rfl := Option.some.inj (hx'.symm.trans hx)
  have hnote : s.note h i cb = { s with
      receiver := cb, past := i + 1, announced := none
      delivered := s.delivered ++ ((cb.ipcOut.drop s.receiver.ipcOut.length).filter
        fun r => r.id = s.id).map IpcRecord.sequence
      discarded := if s.discards (m.hdrSequence h.endian)
        then m.hdrSequence h.endian :: s.discarded else s.discarded } := by
    simp only [note, hm, hev]
  have hbuf : (received h (.ok x'.bytes) s.receiver).msgs (allocMsg s.receiver).2 = m := by
    rcases mcastBranch_accepted hb with ⟨hnone, -⟩ | ⟨m', hm', rfl, -⟩
    · rw [hnone] at hacc
      cases hacc
    · exact Option.some.inj (hm'.symm.trans hacc)
  have hnum : number h.endian (received h (.ok x'.bytes) s.receiver) (allocMsg s.receiver).2
      = m.hdrSequence h.endian := by
    rw [number, hbuf]
  have hrecord : ∀ v, peerAt s.receiver s.id = some v →
      v.sequence + 1 = m.hdrSequence h.endian →
      record h.endian source (.direct (msgView h.endian m))
        ∈ cb.ipcOut.drop s.receiver.ipcOut.length := by
    intro v hv hdue
    have hout := ipcOut_mcastBranch hown hb
    simp only [hacc, hid, hv, ← eventOf_map h.endian m (fun _ => (allocMsg s.receiver).2) (),
      hev, PeerEvent.map, Peer.handed, arrive_in_sequence (hdue.trans hnum.symm)] at hout
    rw [hout, List.drop_left, ← hbuf]
    exact List.mem_cons_self ..
  have hkeep : s.discards (m.hdrSequence h.endian) = false := by
    rw [Bool.eq_false_iff]
    intro hdisc
    simp only [discards, Bool.and_eq_true, List.any_eq_true, decide_eq_true_eq] at hdisc
    obtain ⟨⟨hpassed, q, hq, hqn⟩, hmissing⟩ := hdisc
    obtain ⟨v, hv, hnext, hbehind⟩ := passed_iff.mp hpassed
    obtain ⟨hzero, -⟩ := hturn v (List.ne_nil_of_mem hq) hv
    have hwrap : v.sequence + 1 ≠ 0 := fun h0 => hnext (h0.trans (hzero h0).symm)
    exact hmissing (hc.delivered v hv hwrap q hq _ hqn (UInt32.not_lt.mp hbehind))
  rw [hnote] at hown' hexp ⊢
  refine ⟨hown', hexp, ?_, fun _ => ⟨k, hk, Nat.lt_succ_of_le hle⟩, ?_⟩
  · simp only [hkeep, hc.none_discarded]
    rfl
  · intro w hw hwrap q hq n hqn hn
    dsimp only at hw hq ⊢
    rw [hpeer] at hw
    rw [List.mem_append]
    cases hv : peerAt s.receiver s.id with
    | none =>
      rw [hv] at hw
      cases hw
    | some v =>
      obtain ⟨hzero, hfree⟩ := hturn v (List.ne_nil_of_mem hq) hv
      rw [hv] at hw
      obtain rfl := Option.some.inj hw
      by_cases hdue : v.sequence + 1 = m.hdrSequence h.endian
      · -- the message itself is delivered, and the release loop stops at once
        have harrive := arrive_in_sequence (hdue.trans hnum.symm)
        have hstop := release_none (s := ⟨v.sequence + 1, v.unseqMsgs⟩) (htblCount v.unseqMsgs)
          (by rw [hdue]; exact hfree hdue)
        rw [harrive, hstop] at hn
        rcases le_succ_iff.mp hn with rfl | ⟨hwrap', hle'⟩
        · refine .inr (List.mem_map.mpr ⟨_, List.mem_filter.mpr ⟨hrecord v hv hdue, ?_⟩, hdue.symm⟩)
          exact decide_eq_true hid
        · exact .inl (hc.delivered v hv hwrap' q hq n hqn hle')
      · have hseq : (arrive (number h.endian (received h (.ok x'.bytes) s.receiver))
            v.toReassembly (allocMsg s.receiver).2).1.sequence = v.sequence := by
          rw [arrive, hnum, if_pos hdue]
          split <;> rfl
        dsimp only at hn hwrap
        rw [hseq] at hn hwrap
        exact .inl (hc.delivered v hv hwrap q hq n hqn hn)

end Arrive

/-- **One step** of a guarded run. -/
theorem caught_step {op : RejoinOp} (hc : Caught s) (hsep : Separated hr s op)
    (hturn : InTurn hr s op) (hstep : s.step hs hr op = some s') : Caught s' := by
  have hown' := owned_step hc.owned hstep
  have hexp := (expects_step_iff hc.owned hstep).mpr hsep
  obtain ⟨hand, hown⟩ := hc.owned
  cases op with
  | send b =>
    obtain ⟨cb, -, rfl⟩ := Option.map_eq_some_iff.mp hstep
    exact hc.keep hown' hexp (fun _ _ hv => hv) rfl rfl rfl rfl (Nat.le_refl _)
  | leave keys =>
    obtain rfl := Option.some.inj hstep
    refine ⟨hown', hexp, hc.none_discarded, fun hne => absurd rfl hne, ?_⟩
    intro v _ _ q hq
    cases hq
  | exit =>
    obtain rfl := Option.some.inj hstep
    exact hc.keep hown' hexp (fun _ _ hv => hv) rfl rfl rfl rfl (Nat.le_refl _)
  | other b =>
    simp only [step] at hstep
    split at hstep
    · cases hstep
    · rename_i hfrom
      obtain ⟨cb, hb, rfl⟩ := Option.map_eq_some_iff.mp hstep
      refine hc.keep hown' hexp (fun _ v hv => ?_) rfl rfl rfl rfl (Nat.le_refl _)
      refine (peerAt_branch hown hb ?_).symm.trans hv
      rintro sender r m rfl hacc hid
      refine hfrom ?_
      rw [fromSender, hacc]
      exact decide_eq_true hid
  | arrive source i =>
    obtain ⟨x, cb, flag, hx, hpast, hb, rfl⟩ := step_arrive hstep
    obtain ⟨hrecv, hid, hmark, hpast'⟩ := note_frame hr s i cb
    have hlater : s.past ≤ (s.note hr i cb).past := by omega
    cases hm : s.news hr i with
    | none =>
      have hnote : s.note hr i cb
          = { s with receiver := cb, past := i + 1, announced := none } := by
        simp only [note, hm]
      rw [hnote] at hown' hexp hlater ⊢
      refine hc.keep hown' hexp (fun hne v hv => ?_) rfl rfl rfl rfl hlater
      obtain ⟨k, hk, hlt⟩ := hc.begun hne
      exact (peerAt_no_news hown hx hb hm hk (by omega)).symm.trans hv
    | some m =>
      cases hev : eventOf hr.endian m () with
      | hbeat session q =>
        exact hc.hbeat hown hx hb hm hev (fun v hv hsess => hsep m session q v hm hev hv hsess)
          hown' hexp
      | data a => exact hc.data hown hx hb hm hev (hturn m · hm hev) hown' hexp
      | leave =>
        have hnote : s.note hr i cb
            = { s with receiver := cb, past := i + 1, announced := none } := by
          simp only [note, hm, hev]
        have hpeer := peerAt_news hown hx hb hm
        rw [hev, PeerEvent.map, Peer.next_leave] at hpeer
        rw [hnote] at hown' hexp hlater ⊢
        refine hc.keep hown' hexp (fun _ v hv => ?_) rfl rfl rfl rfl hlater
        cases hpeer.symm.trans hv
      | other =>
        have hnote : s.note hr i cb
            = { s with receiver := cb, past := i + 1, announced := none } := by
          simp only [note, hm, hev]
        have hpeer := peerAt_news hown hx hb hm
        rw [hev, PeerEvent.map, Peer.next_other] at hpeer
        rw [hnote] at hown' hexp hlater ⊢
        exact hc.keep hown' hexp (fun _ v hv => hpeer.symm.trans hv) rfl rfl rfl rfl hlater

end Rejoin

/-! ## Runs -/

/-- **Rejoining.** A receiver never expects a number above the one in the
last heartbeat of the new incarnation exactly if every such heartbeat is
separated from what the receiver knows; and if the messages between are
in turn as well, none from an announced number on is discarded as a
retransmission before it was delivered. -/
theorem rejoin_safe (hs hr : Host) (gs : Garbage) (s : InitArgs) (gr : Garbage) (r : InitArgs)
    (ops : List RejoinOp) :
    (Throughout (Rejoin.step hs hr) Rejoin.Expects (Rejoin.start gs s gr r) ops
        ↔ Guarded (Rejoin.step hs hr) (Rejoin.Separated hr) (Rejoin.start gs s gr r) ops)
      ∧ (Guarded (Rejoin.step hs hr) (fun x op => x.Separated hr op ∧ x.InTurn hr op)
          (Rejoin.start gs s gr r) ops →
        Throughout (Rejoin.step hs hr) (fun x => x.Expects ∧ x.discarded = [])
          (Rejoin.start gs s gr r) ops) := by
  have hexp : (Rejoin.start gs s gr r).Expects := fun q hq => by cases hq
  have hown : ∃ hand, Owned (Rejoin.start gs s gr r).receiver hand :=
    ⟨[], owned_rmcastInit gr r⟩
  constructor
  · refine throughout_iff_guarded (I := fun x => ∃ hand, Owned x.receiver hand) ?_ ?_ hown hexp
    · exact fun x op x' hx hstep => Rejoin.owned_step hx hstep
    · exact fun x op x' hx _ hstep => Rejoin.expects_step_iff hx hstep
  · refine throughout_of_guarded (I := Rejoin.Caught) ?_ ?_ ?_
    · exact fun x op x' hx hok hstep => Rejoin.caught_step hx hok.1 hok.2 hstep
    · exact fun x hx => ⟨hx.expects, hx.none_discarded⟩
    · refine ⟨hown, hexp, rfl, fun hne => absurd rfl hne, fun v _ _ q hq => ?_⟩
      cases hq

/-- A one-byte message of the sender's client. -/
def sendOne (b : UInt8) : RejoinOp := .send (.ipc (.whole .little [b]))

/-- Node 2 sends two messages, leaves and comes back. Its LEAVE, datagram 3,
is lost; its heartbeat, datagram 4, announces number 0 to a receiver that
goes on expecting number 2, and its message, datagram 5, is discarded. -/
theorem rejoin_fails :
    (∃ x, run (Rejoin.step littleHost littleHost)
        (Rejoin.start zeroGarbage { plainArgs with id := 2 } zeroGarbage plainArgs)
        [.send .hbeat, .arrive anyAddr 0, sendOne 10, .arrive anyAddr 1, sendOne 11,
          .arrive anyAddr 2, .leave [], .exit, .send .hbeat, .arrive anyAddr 4] = some x
      ∧ ¬ x.Expects)
    ∧ ∃ x, run (Rejoin.step littleHost littleHost)
        (Rejoin.start zeroGarbage { plainArgs with id := 2 } zeroGarbage plainArgs)
        [.send .hbeat, .arrive anyAddr 0, sendOne 10, .arrive anyAddr 1, sendOne 11,
          .arrive anyAddr 2, .leave [], .exit, .send .hbeat, .arrive anyAddr 4, sendOne 20,
          .arrive anyAddr 5] = some x
      ∧ x.discarded = [0] ∧ x.receiver.ipcOut.map IpcRecord.payload = [[10], [11]] := by
  have hbeat : (run (Rejoin.step littleHost littleHost)
        (Rejoin.start zeroGarbage { plainArgs with id := 2 } zeroGarbage plainArgs)
        [.send .hbeat, .arrive anyAddr 0, sendOne 10, .arrive anyAddr 1, sendOne 11,
          .arrive anyAddr 2, .leave [], .exit, .send .hbeat, .arrive anyAddr 4]).map
          (fun x => (x.announced, (peerAt x.receiver x.id).map fun v => v.sequence + 1))
      = some (some 0, some 2) := by decide +kernel
  have hdata : (run (Rejoin.step littleHost littleHost)
        (Rejoin.start zeroGarbage { plainArgs with id := 2 } zeroGarbage plainArgs)
        [.send .hbeat, .arrive anyAddr 0, sendOne 10, .arrive anyAddr 1, sendOne 11,
          .arrive anyAddr 2, .leave [], .exit, .send .hbeat, .arrive anyAddr 4, sendOne 20,
          .arrive anyAddr 5]).map
          (fun x => (x.discarded, x.receiver.ipcOut.map IpcRecord.payload))
      = some ([0], [[10], [11]]) := by decide +kernel
  constructor
  · obtain ⟨x, hx, heq⟩ := Option.map_eq_some_iff.mp hbeat
    obtain ⟨hann, hnext⟩ := Prod.mk.inj heq
    refine ⟨x, hx, fun hexp => ?_⟩
    obtain ⟨v, hv, hle⟩ := hexp 0 hann
    rw [hv] at hnext
    have hseq : v.sequence + 1 = 2 := Option.some.inj hnext
    rw [hseq] at hle
    exact absurd hle (by decide)
  · obtain ⟨x, hx, heq⟩ := Option.map_eq_some_iff.mp hdata
    obtain ⟨hdisc, hout⟩ := Prod.mk.inj heq
    exact ⟨x, hx, hdisc, hout⟩

end Rms.V01
