/-
Rms.ManagerRefinement — the loop of `rms_manager` against the datagram
switch on values.

`Refines` relates a state of the loop to one of `Rms.Manager`: they agree
on the peers that are registered, on what their caches hold and on what
was forwarded and asked for again. Every branch of the loop keeps it
(`refines_branch`): a DATA or HEARTBEAT datagram does what `dataMsg` or
`heartbeatMsg` does, a LEAVE forgets the peer, and nothing else has an
effect on that side. The switch never reads `mq_peers`, so nothing is said
about the two queues. The one thing to see is that a buffer is written
only while it is in no place, so no cached message changes under a peer.

Along a run that gives no buffer two owners, the loop therefore does what
the switch on values does (`refines_run`).
-/
import Rms.ManagerLoopTheorems

namespace Rms.Manager

open Rms.Util Rms.Runs

/-- A peer with the messages in place of the pointers. -/
def RmsMetaPeer.value (msgs : Nat → RmsMetaMsg) (peer : RmsMetaPeer Nat) :
    RmsMetaPeer RmsMetaMsg :=
  { peer with htUnseqMsgs := htblMap msgs peer.htUnseqMsgs }

namespace Loop

structure Refines (cb : Rmscb) (s : Manager.Rmscb RmsMetaMsg) : Prop where
  selfId : s.selfId = cb.selfId
  selfLost : s.selfLost = cb.selfLost
  htPeers : s.htPeers = cb.htPeers
  npeers : s.npeers = cb.npeers
  ipcOut : s.ipcOut = cb.ipcOut
  nacks : s.nacks = cb.nacks
  peers : ∀ id pp, htblGet cb.htPeers id = some pp → s.peers pp = (cb.peers pp).value cb.msgs

/-- A peer that left. -/
def forget (s : Manager.Rmscb RmsMetaMsg) (id : UInt32) : Manager.Rmscb RmsMetaMsg :=
  match htblRemove s.htPeers id with
  | none => s
  | some (_, t) => { s with htPeers := t }

/-- What a branch does on values. -/
def effect (s : Manager.Rmscb RmsMetaMsg) : Branch → Manager.Rmscb RmsMetaMsg
  | .mcast (some (.data msg)) => Manager.dataMsg s msg
  | .mcast (some (.heartbeat hbeat)) => Manager.heartbeatMsg s hbeat
  | .mcast (some (.leave id)) => forget s id
  | _ => s

section Steps

variable {cb : Rmscb} {s : Manager.Rmscb RmsMetaMsg} {p pp : Nat} {id : UInt32}

theorem Refines.peer (h : Refines cb s) (hk : htblGet cb.htPeers id = some pp) :
    s.peers pp = (cb.peers pp).value cb.msgs :=
  h.peers id pp hk

theorem refines_setPeer (h : Refines cb s) {peer : RmsMetaPeer Nat}
    {peer' : RmsMetaPeer RmsMetaMsg} (heq : peer' = peer.value cb.msgs) :
    Refines (cb.setPeer pp peer) (s.setPeer pp peer') := by
  refine { h with peers := ?_ }
  intro id qq hk
  simp only [setPeer_peers, Manager.Rmscb.setPeer]
  by_cases hqq : qq = pp
  · subst hqq
    simp only [Function.update_self]
    exact heq
  · simp only [Function.update_of_ne hqq]
    exact h.peers id qq hk

theorem refines_forward (h : Refines cb s) (msg : RmsMetaMsg) :
    Refines (cb.forward msg) (s.forward msg) :=
  { h with ipcOut := by simp [Rmscb.forward, Rmscb.lift, Manager.Rmscb.forward, h.ipcOut] }

theorem refines_alloc (h : Refines cb s) : Refines (allocMetaMsg cb).1 s := by
  unfold allocMetaMsg
  split
  · exact { h with }
  · exact { h with }

theorem refines_release (h : Refines cb s) : Refines (releaseMetaMsg cb p) s := { h with }

theorem nackScan_map (msgs : Nat → RmsMetaMsg) (t : Htbl Nat) (n : Nat) :
    ∀ itr, nackScan (htblMap msgs t) n itr = nackScan t n itr := by
  induction n with
  | zero =>
    intro itr
    rfl
  | succ n ih =>
    intro itr
    simp only [nackScan, htblGet_map]
    cases htblGet t itr with
    | none => simp [ih]
    | some q => simp [ih]

theorem refines_sendNack (h : Refines cb s) (hk : htblGet cb.htPeers id = some pp) :
    Refines (sendNack pp cb) (Manager.sendNack pp s) := by
  have hpeer := h.peer hk
  refine { h with selfLost := ?_, nacks := ?_, peers := ?_ }
  · simp [Manager.sendNack, sendNack, Rmscb.lift, hpeer, RmsMetaPeer.value, nackScan_map,
      h.selfLost]
  · simp [Manager.sendNack, sendNack, Rmscb.lift, hpeer, RmsMetaPeer.value, nackScan_map, h.nacks]
  · refine (refines_setPeer h ?_).peers
    simp only [hpeer, RmsMetaPeer.value, nackScan_map]

/-- Writing a buffer that is in no place changes no cached message. -/
theorem refines_write (h : Refines cb s) (hfree : Free cb p) (msg : RmsMetaMsg) :
    Refines { cb with msgs := Function.update cb.msgs p msg } s := by
  refine { h with peers := ?_ }
  intro id pp hk
  have hmap : htblMap (Function.update cb.msgs p msg) (cb.peers pp).htUnseqMsgs
      = htblMap cb.msgs (cb.peers pp).htUnseqMsgs := by
    apply htblMap_congr
    intro q hq
    obtain ⟨seq, hget⟩ := mem_htblValues.mp hq
    have hne : q ≠ p := by
      intro heq
      exact hfree (.cached id seq) ⟨pp, hk, heq ▸ hget⟩
    exact Function.update_of_ne hne msg cb.msgs
  rw [h.peer hk]
  simp only [RmsMetaPeer.value, hmap]

/-! ## DATA -/

theorem refines_releaseUnseq (n : Nat) :
    ∀ {cb : Rmscb} {s : Manager.Rmscb RmsMetaMsg}, Refines cb s → htblGet cb.htPeers id = some pp →
      Refines (releaseUnseq pp n cb) (Manager.releaseUnseq pp n s) := by
  induction n with
  | zero =>
    intro cb s h _
    exact h
  | succ n ih =>
    intro cb s h hk
    simp only [releaseUnseq, Manager.releaseUnseq, h.peer hk, RmsMetaPeer.value, htblRemove_map]
    cases htblRemove (cb.peers pp).htUnseqMsgs (cb.peers pp).sequenceSent with
    | none => exact h
    | some r =>
      have hb : Refines { cb with msg := some r.1 } s := { h with }
      exact ih (refines_setPeer (refines_forward hb _) rfl) hk

theorem allocMetaMsg_htPeers (cb : Rmscb) : (allocMetaMsg cb).1.htPeers = cb.htPeers := by
  unfold allocMetaMsg
  split <;> rfl

theorem refines_dataMsg (h : Refines cb s) :
    Refines (dataMsg cb p) (Manager.dataMsg s (cb.msgs p)) := by
  simp only [dataMsg, Manager.dataMsg, h.htPeers]
  cases hk : htblGet cb.htPeers (cb.msgs p).id with
  | none => exact { h with }
  | some pp =>
    simp only [h.peer hk, RmsMetaPeer.value]
    split
    · split
      · refine refines_release (refines_sendNack (refines_alloc (refines_setPeer h ?_))
          ((congrArg (htblGet · _) (allocMetaMsg_htPeers _)).trans hk))
        simp only [RmsMetaPeer.value, htblMap_put]
      · exact refines_release (refines_setPeer h rfl)
    · rw [htblCount_map]
      exact refines_releaseUnseq _ (refines_setPeer (refines_forward h _) rfl) hk

/-! ## HEARTBEAT and LEAVE -/

theorem refines_hbeatPeer (h : Refines cb s) (hreg : Registered cb) (hbeat : RmsMsgHbeat) :
    Refines (hbeatPeer cb hbeat).1 (Manager.hbeatPeer s hbeat).1
      ∧ (Manager.hbeatPeer s hbeat).2 = (hbeatPeer cb hbeat).2
      ∧ htblGet (hbeatPeer cb hbeat).1.htPeers hbeat.id = some (hbeatPeer cb hbeat).2 := by
  simp only [hbeatPeer, Rmscb.lift, Manager.hbeatPeer, h.htPeers]
  cases hk : htblGet cb.htPeers hbeat.id with
  | some pp => exact ⟨h, rfl, hk⟩
  | none =>
    have hput : ∀ id, htblGet (htblPut cb.htPeers hbeat.id cb.npeers) id
        = if id = hbeat.id then some cb.npeers else htblGet cb.htPeers id := by
      intro id
      rw [htblPut_of_none _ hk, htblGet_insert]
    refine ⟨?_, h.npeers, by simp [hput]⟩
    refine { h with htPeers := ?_, npeers := ?_, peers := ?_ }
    · simp [h.npeers]
    · simp [h.npeers]
    · intro id pp hid
      simp only [hput] at hid
      split at hid
      · cases hid
        simp [h.npeers, rmsMetaPeerInit, RmsMetaPeer.value]
      · have hne : pp ≠ cb.npeers := Nat.ne_of_lt (hreg id pp hid).1
        simpa [h.npeers, Function.update_of_ne hne] using h.peer hid

theorem refines_heartbeatMsg (h : Refines cb s) (hreg : Registered cb) (hbeat : RmsMsgHbeat) :
    Refines (heartbeatMsg cb p hbeat) (Manager.heartbeatMsg s hbeat) := by
  obtain ⟨hs, hpp, hk⟩ := refines_hbeatPeer h hreg hbeat
  simp only [heartbeatMsg, Manager.heartbeatMsg, hpp]
  generalize (hbeatPeer cb hbeat).1 = cb₁ at hs hk ⊢
  generalize (hbeatPeer cb hbeat).2 = pp at hk ⊢
  generalize (Manager.hbeatPeer s hbeat).1 = s₁ at hs ⊢
  simp only [hs.peer hk, hs.selfId, RmsMetaPeer.value]
  split
  · split
    · exact refines_release (refines_sendNack (refines_setPeer hs rfl) hk)
    · exact refines_release (refines_setPeer hs rfl)
  · exact refines_release (refines_setPeer hs rfl)

/-- Draining a cache moves its buffers to the pool, and does nothing else. -/
theorem foldl_drain_eq (pp : Nat) (keys : List UInt32) : ∀ cb : Rmscb, ∃ peers pool msg,
    keys.foldl (drain pp) cb = { cb with peers := peers, sqMetaMsgPool := pool, msg := msg }
      ∧ ∀ qq, qq ≠ pp → peers qq = cb.peers qq := by
  induction keys with
  | nil =>
    intro cb
    exact ⟨_, _, _, rfl, fun _ _ => rfl⟩
  | cons key keys ih =>
    intro cb
    rw [List.foldl_cons, drain]
    split
    · exact ih cb
    · rename_i q t hrem
      obtain ⟨peers, pool, msg, heq, hkeep⟩ := ih (releaseMetaMsg
        ({ cb with msg := some q }.setPeer pp { cb.peers pp with htUnseqMsgs := t }) q)
      refine ⟨peers, pool, msg, heq, ?_⟩
      intro qq hqq
      rw [hkeep qq hqq]
      exact Function.update_of_ne hqq _ _

theorem refines_leaveMsg {cb' : Rmscb} (h : Refines cb s) (hreg : Registered cb)
    (hb : leaveMsg cb id = some cb') : Refines cb' (forget s id) := by
  simp only [leaveMsg] at hb
  simp only [forget, h.htPeers]
  cases hrem : htblRemove cb.htPeers id with
  | none =>
    rw [hrem] at hb
    obtain rfl := Option.some.inj hb
    exact h
  | some r =>
    obtain ⟨pp, t⟩ := r
    obtain ⟨hk, ht⟩ := htblRemove_eq_some.mp hrem
    obtain ⟨peers, pool, msg, heq, hkeep⟩ := foldl_drain_eq pp
      (htblEnumIntKeys (cb.peers pp).htUnseqMsgs (htblCount (cb.peers pp).htUnseqMsgs))
      { cb with htPeers := t }
    rw [hrem] at hb
    dsimp only at hb
    rw [heq] at hb
    obtain ⟨q, -, rfl⟩ := Option.map_eq_some_iff.mp hb
    refine { h with htPeers := rfl, peers := ?_ }
    intro id' qq hget
    rw [ht, htblGet_erase] at hget
    split at hget
    · cases hget
    · rename_i hne
      -- another id is another peer
      have hqq : qq ≠ pp := by
        intro heq
        exact hne ((hreg id' qq hget).2.symm.trans (heq ▸ (hreg id pp hk).2))
      simp only [hkeep qq hqq]
      exact h.peer hget

/-! ## The branches -/

theorem refines_foldl_resend (h : Refines cb s) (seqs : List UInt32) :
    Refines (seqs.foldl resend cb) s := by
  induction seqs generalizing cb with
  | nil => exact h
  | cons seq seqs ih =>
    apply ih
    unfold resend
    split
    · exact h
    · exact { h with }

theorem refines_purge (h : Refines cb s) (n : Nat) : Refines (purge n cb) s := by
  obtain ⟨_, _, _, _, heq⟩ := purge_eq n cb
  rw [heq]
  exact { h with }

theorem refines_dispatch {packet : Packet} {cb' : Rmscb} (h : Refines cb s)
    (hreg : Registered cb) (hp : InHand cb p) (hb : dispatch cb p packet = some cb') :
    Refines cb' (effect s (.mcast (some packet))) := by
  cases packet with
  | data msg =>
    have hd := refines_dataMsg (p := p) (refines_write h hp.free msg)
    simp only [Function.update_self] at hd
    obtain rfl := Option.some.inj hb
    exact hd
  | heartbeat hbeat =>
    obtain rfl := Option.some.inj hb
    exact refines_heartbeatMsg h hreg hbeat
  | nack count seqs =>
    obtain ⟨seqs', rfl⟩ := nackMsg_eq hb
    exact refines_foldl_resend h seqs'
  | leave id => exact refines_leaveMsg h hreg hb
  | other =>
    obtain rfl := Option.some.inj hb
    exact refines_release h

theorem refines_ipcBranch (h : Refines cb s) (hs : Sound cb) {i : IpcInput} {cb' : Rmscb}
    (hb : ipcBranch cb i = some cb') : Refines cb' s := by
  have ha := refines_alloc h
  unfold ipcBranch at hb
  split at hb
  · dsimp only at hb
    split at hb
    · cases hb
      exact refines_release ha
    · split at hb
      · cases hb
        exact { refines_write ha (sound_alloc hs).2.free _ with }
      · cases hb
        exact refines_release ha
  · obtain ⟨p, -, heq⟩ := Option.map_eq_some_iff.mp hb
    rw [← heq]
    exact refines_release h

theorem refines_ackBranch {cb' : Rmscb} (h : Refines cb s) (hb : ackBranch cb = some cb') :
    Refines cb' s := by
  unfold ackBranch at hb
  split at hb
  · obtain ⟨⟨cb₁, pps⟩, hpeek, rfl⟩ := Option.map_eq_some_iff.mp hb
    obtain ⟨q, rfl⟩ := peekPeers_eq hpeek
    refine refines_purge ?_ _
    exact { h with }
  · obtain rfl := Option.some.inj hb
    exact h

/-- **One step.** -/
theorem refines_branch {b : Branch} {cb' : Rmscb} (h : Refines cb s) (hs : Sound cb)
    (hb : branch cb b = some cb') : Refines cb' (effect s b) := by
  cases b with
  | mcast packet =>
    obtain ⟨ha, hp⟩ := sound_alloc hs
    cases packet with
    | none =>
      obtain rfl := Option.some.inj hb
      exact refines_alloc h
    | some packet => exact refines_dispatch (refines_alloc h) ha.registered hp hb
  | ipc i => exact refines_ipcBranch h hs hb
  | hbeat =>
    obtain ⟨⟨cb₁, pps⟩, hpeek, rfl⟩ := Option.map_eq_some_iff.mp hb
    obtain ⟨q, rfl⟩ := peekPeers_eq hpeek
    have hr : Refines { releaseMetaMsg { (allocMetaMsg cb).1 with mqPeers := q }
        (allocMetaMsg cb).2 with
        hbSeqP3 := cb.hbSeqP2, hbSeqP2 := cb.hbSeqP1, hbSeqP1 := cb.selfSent } s :=
      { refines_alloc h with }
    exact { refines_purge hr _ with }
  | ack => exact refines_ackBranch h hb
  | leave =>
    cases hb
    exact refines_release (refines_alloc h)

end Steps

/-- **Every run** that gives no buffer two owners does on values what the
datagrams do. -/
theorem refines_run {bs : List Branch} :
    ∀ {cb cb' : Rmscb} {s : Manager.Rmscb RmsMetaMsg}, Refines cb s → Sound cb →
      Guarded branch MsgFree cb bs → run branch cb bs = some cb' →
      Refines cb' (bs.foldl effect s) := by
  induction bs with
  | nil =>
    intro cb cb' s h _ _ hrun
    cases hrun
    exact h
  | cons b bs ih =>
    intro cb cb' s h hs hg hrun
    obtain ⟨cb₁, hb, hrun⟩ := run_cons_some hrun
    obtain ⟨hok, hg⟩ := hg cb₁ hb
    exact ih (refines_branch h hs hb) (sound_branch hs hok hb) hg hrun

/-- The thread from its start to its end. -/
theorem rmsManager_refines {selfId selfSent : UInt32} {hbAck : Bool} {n : Nat}
    {peers : Nat → RmsMetaPeer Nat} {msgs : Nat → RmsMetaMsg} {items : Nat → MqueueItem Nat}
    {nitems : Int} {passes : List Pass} {cb : Rmscb} (values : Nat → RmsMetaPeer RmsMetaMsg)
    (q : Mqueue Nat)
    (hg : Guarded branch MsgFree (start selfId selfSent hbAck n peers msgs items nitems)
      (rmsManager passes))
    (hrun : run branch (start selfId selfSent hbAck n peers msgs items nitems)
      (rmsManager passes) = some cb) :
    Refines cb ((rmsManager passes).foldl effect ⟨selfId, 0, ∅, q, values, 0, [], []⟩) := by
  apply refines_run _ (sound_start selfId selfSent hbAck n peers msgs items nitems) hg hrun
  refine ⟨rfl, rfl, rfl, rfl, rfl, rfl, ?_⟩
  intro id pp hk
  simp [start] at hk

end Loop

end Rms.Manager
