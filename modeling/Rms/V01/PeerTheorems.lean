/-
Rms.V01.PeerTheorems — a datagram is a step of its sender's machine.

`peerAt cb x` is what the control block keeps about peer `x`, with the
buffers in its cache as the messages. Whatever a datagram is, handling it
is one `Peer.next` for the peer its header names and leaves every other
peer alone, and the records written for the client are what `Peer.handed`
says (`peerAt_mcastBranch`). Ownership is what keeps peers apart: no two
are registered with one member record, and no buffer is in two caches.

`peerView` replaces the buffers by what they say to the client. Buffers
in use keep their bytes, so the same holds for it
(`peerView_mcastBranch`).
-/
import Rms.V01.Peer
import Rms.V01.FramingTheorems
import Rms.V01.RegistryTheorems

namespace Rms.V01

open Rms.ByteMem Rms.Util

variable {cb cb' : RmcCtrlBlock} {hand : List Nat} {mp p : Nat}

/-! ## Peers in the control block -/

def RmcMember.peer (mem : RmcMember) : Peer Nat :=
  { sequence := mem.sequence, unseqMsgs := mem.unseqMsgs, session := mem.session }

/-- What is kept about peer `x`. -/
def peerAt (cb : RmcCtrlBlock) (x : UInt32) : Option (Peer Nat) :=
  (htblGet cb.members x).map fun mp => (cb.mems mp).peer

/-- The number of the message in a buffer. -/
def number (e : Endian) (cb : RmcCtrlBlock) (q : Nat) : UInt32 := (cb.msgs q).hdrSequence e

/-- What the message `m` means, with `a` to stand for it if it is cached or
handed over. -/
def eventOf {α : Type*} (e : Endian) (m : RmcMsg) (a : α) : PeerEvent α :=
  match MsgType.ofByte m.hdrType with
  | some .data => .data a
  | some .hbeat => .hbeat ((hbeatDecode e m).hbeatSession e) (m.hdrSequence e)
  | some .leave => .leave
  | _ => .other

theorem eventOf_map {α β : Type*} (e : Endian) (m : RmcMsg) (f : α → β) (a : α) :
    (eventOf e m a).map f = eventOf e m (f a) := by
  unfold eventOf
  split <;> rfl

/-- The event of a DATA message carries the message at hand. -/
theorem eventOf_eq_data {α : Type*} {e : Endian} {m : RmcMsg} {a b : α}
    (hev : eventOf e m a = .data b) : MsgType.ofByte m.hdrType = some .data ∧ b = a := by
  unfold eventOf at hev
  split at hev
  · rename_i ht
    exact ⟨ht, (PeerEvent.data.inj hev).symm⟩
  · cases hev
  · cases hev
  · cases hev

/-- A step that works on one member leaves the other peers alone. -/
theorem peerAt_others (h : Owned cb hand) {k y : UInt32} (hk : htblGet cb.members k = some mp)
    (hmembers : htblGet cb'.members y = htblGet cb.members y)
    (hmems : ∀ m, m ≠ mp → cb'.mems m = cb.mems m) (hy : y ≠ k) :
    peerAt cb' y = peerAt cb y := by
  unfold peerAt
  rw [hmembers]
  cases hm : htblGet cb.members y with
  | none => rfl
  | some m =>
    have hne : m ≠ mp := by
      rintro rfl
      exact hy ((h.registered y m hm).2.symm.trans (h.registered k m hk).2)
    simp only [Option.map_some, hmems m hne]

theorem peerAt_congr (hmembers : cb'.members = cb.members) (hmems : cb'.mems = cb.mems)
    (y : UInt32) : peerAt cb' y = peerAt cb y := by
  unfold peerAt
  rw [hmembers, hmems]

/-! ## DATA -/

theorem releaseCached_peer (h : Host) (mp n : Nat) :
    ∀ cb : RmcCtrlBlock,
      ((releaseCached h mp n cb).mems mp).peer
          = { (cb.mems mp).peer with
              toReassembly := (release n (cb.mems mp).peer.toReassembly).1 }
        ∧ ∀ m, m ≠ mp → (releaseCached h mp n cb).mems m = cb.mems m := by
  induction n with
  | zero =>
    intro cb
    exact ⟨rfl, fun m _ => rfl⟩
  | succ n ih =>
    intro cb
    have hstart : (cb.mems mp).peer.toReassembly
        = ⟨(cb.mems mp).sequence, (cb.mems mp).unseqMsgs⟩ := rfl
    cases hrem : htblRemove (cb.mems mp).unseqMsgs (cb.mems mp).sequence with
    | none =>
      simp only [releaseCached, release, hstart, hrem]
      exact ⟨rfl, fun m _ => trivial⟩
    | some r =>
      obtain ⟨q, t⟩ := r
      simp only [releaseCached, release, hstart, hrem]
      obtain ⟨hself, hother⟩ := ih ((deliver h
        (enc32 h.endian ((cb.msgs q).hdrLength h.endian).toUInt32) q cb).setMem mp
          { cb.mems mp with unseqMsgs := t, sequence := (cb.mems mp).sequence + 1 })
      rw [RmcCtrlBlock.setMem_self] at hself
      refine ⟨hself, fun m hm => (hother m hm).trans ?_⟩
      exact Function.update_of_ne hm _ _

theorem sendNack_peer (h : Host) (mp p : Nat) (cb : RmcCtrlBlock) :
    ((sendNack h mp p cb).mems mp).peer = (cb.mems mp).peer
      ∧ ∀ m, m ≠ mp → (sendNack h mp p cb).mems m = cb.mems m := by
  obtain ⟨hseq, hunseq, -, -, hsess⟩ := sendNack_receiver h mp p cb
  refine ⟨?_, fun m hm => Function.update_of_ne hm _ _⟩
  simp only [RmcMember.peer, hseq, hunseq, hsess]

theorem dataAhead_peer (h : Host) (mp p : Nat) (cb : RmcCtrlBlock) :
    ((dataAhead h mp p cb).mems mp).peer
        = { (cb.mems mp).peer with
            unseqMsgs := htblPut (cb.mems mp).unseqMsgs (number h.endian cb p) p }
      ∧ ∀ m, m ≠ mp → (dataAhead h mp p cb).mems m = cb.mems m := by
  have hmems := (allocMsg_receiver (cacheMsg h mp p cb)).1
  obtain ⟨hself, hother⟩ := sendNack_peer h mp (allocMsg (cacheMsg h mp p cb)).2
    (allocMsg (cacheMsg h mp p cb)).1
  rw [hmems, cacheMsg, RmcCtrlBlock.setMem_self] at hself
  refine ⟨hself, fun m hm => (hother m hm).trans ?_⟩
  rw [hmems]
  exact Function.update_of_ne hm _ _

theorem dataMsg_peer (h : Host) (sender : SockaddrIn)
    (hk : htblGet cb.members ((cb.msgs p).hdrId h.endian) = some mp) :
    ((dataMsg h sender p cb).mems mp).peer
        = { (cb.mems mp).peer with
            toReassembly := (arrive (number h.endian cb) (cb.mems mp).peer.toReassembly p).1 }
      ∧ ∀ m, m ≠ mp → (dataMsg h sender p cb).mems m = cb.mems m := by
  have hseq : (cb.mems mp).peer.toReassembly.sequence = (cb.mems mp).sequence := rfl
  have hnum : number h.endian cb p = (cb.msgs p).hdrSequence h.endian := rfl
  unfold dataMsg arrive
  rw [hk, hseq, hnum]
  dsimp only
  split
  · split
    · exact dataAhead_peer h mp p cb
    · exact ⟨rfl, fun m _ => rfl⟩
  · obtain ⟨hself, hother⟩ := releaseCached_peer h mp (htblCount (cb.mems mp).unseqMsgs)
      ((deliver h (ipcMetadata h.endian ((cb.msgs p).hdrLength h.endian).toUInt32 sender) p
        cb).setMem mp { cb.mems mp with sequence := (cb.mems mp).sequence + 1 })
    rw [RmcCtrlBlock.setMem_self] at hself
    refine ⟨hself, fun m hm => (hother m hm).trans ?_⟩
    exact Function.update_of_ne hm _ _

/-! ## HBEAT -/

theorem hbeatGap_peer (h : Host) (mp p : Nat) (cb : RmcCtrlBlock) :
    ((hbeatGap h mp p cb).mems mp).peer = (cb.mems mp).peer
      ∧ ∀ m, m ≠ mp → (hbeatGap h mp p cb).mems m = cb.mems m := by
  unfold hbeatGap
  split
  · split
    · exact sendNack_peer h mp p cb
    · exact ⟨rfl, fun m _ => rfl⟩
  · exact ⟨rfl, fun m _ => rfl⟩

/-- Behind the lookup, a heartbeat leaves the peers as they are. -/
theorem hbeatMsg_peer (h : Host) (p : Nat) (cb : RmcCtrlBlock) :
    let r := hbeatMember h p (cb.setMsg p (hbeatDecode h.endian (cb.msgs p)))
    (hbeatMsg h p cb).members = r.1.members
      ∧ ((hbeatMsg h p cb).mems r.2).peer = (r.1.mems r.2).peer
      ∧ ∀ m, m ≠ r.2 → (hbeatMsg h p cb).mems m = r.1.mems m := by
  intro r
  have hmsg : hbeatMsg h p cb = releaseMsg (hbeatGap h r.2 p (hbeatApply h p r)) p :=
    hbeatMsg_eq h p cb
  rw [hmsg]
  clear_value r
  have happly : ((hbeatApply h p r).mems r.2).peer = (r.1.mems r.2).peer
      ∧ ∀ m, m ≠ r.2 → (hbeatApply h p r).mems m = r.1.mems m := by
    obtain ⟨hseq, hsess, -, hunseq⟩ := hbeatUpdate_sequence h.endian (r.1.msgs p) r.1.self.id
      (r.1.mems r.2)
    have hself : (hbeatApply h p r).mems r.2
        = hbeatUpdate h.endian (r.1.msgs p) r.1.self.id (r.1.mems r.2) := Function.update_self ..
    refine ⟨?_, fun m hm => Function.update_of_ne hm _ _⟩
    simp only [RmcMember.peer, hself, hseq, hsess, hunseq]
  obtain ⟨hself, hother⟩ := hbeatGap_peer h r.2 p (hbeatApply h p r)
  refine ⟨?_, hself.trans happly.1, fun m hm => (hother m hm).trans (happly.2 m hm)⟩
  exact (sameRegistry_hbeatGap h r.2 p (hbeatApply h p r)).members

/-- The heartbeat of an unknown peer. -/
theorem peerAt_hbeatMsg_new (host : Host) (h : Owned cb hand)
    (hnew : htblGet cb.members ((cb.msgs p).hdrId host.endian) = none) (y : UInt32) :
    peerAt (hbeatMsg host p cb) y
      = if y = (cb.msgs p).hdrId host.endian then
          some { sequence := (cb.msgs p).hdrSequence host.endian - 1, unseqMsgs := ∅
                 session := (hbeatDecode host.endian (cb.msgs p)).hbeatSession host.endian }
        else peerAt cb y := by
  obtain ⟨-, hseq, hid⟩ := hbeatDecode_header host.endian (cb.msgs p)
  have hmsg := hbeatMsg_peer host p cb
  rw [hbeatMember_new hnew] at hmsg
  obtain ⟨hmembers, hself, hother⟩ := hmsg
  have hput : (hbeatMsg host p cb).members
      = cb.members.insert ((cb.msgs p).hdrId host.endian) cb.nmems := by
    rw [← hid] at hnew ⊢
    exact hmembers.trans (htblPut_of_none _ hnew)
  unfold peerAt
  rw [hput, htblGet_insert]
  split
  · refine congrArg some (hself.trans ?_)
    simp only [registerMember, Function.update_self, RmcMember.peer, hbeatNewMember,
      rmcastMemberInit, hseq]
  · cases hy : htblGet cb.members y with
    | none => rfl
    | some m =>
      have hne : m ≠ cb.nmems := Nat.ne_of_lt (h.registered y m hy).1
      have hm : (hbeatMsg host p cb).mems m = cb.mems m :=
        (hother m hne).trans (Function.update_of_ne hne _ _)
      simp only [Option.map_some, hm]

/-- The heartbeat of a registered peer. -/
theorem peerAt_hbeatMsg_known (host : Host) (h : Owned cb hand)
    (hk : htblGet cb.members ((cb.msgs p).hdrId host.endian) = some mp) (y : UInt32) :
    peerAt (hbeatMsg host p cb) y
      = if y = (cb.msgs p).hdrId host.endian then
          Peer.next (number host.endian cb) (some (cb.mems mp).peer)
            (.hbeat ((hbeatDecode host.endian (cb.msgs p)).hbeatSession host.endian)
              ((cb.msgs p).hdrSequence host.endian))
        else peerAt cb y := by
  have hseq := (hbeatDecode_header host.endian (cb.msgs p)).2.1
  have hmsg := hbeatMsg_peer host p cb
  have hpeer : ∀ mem : RmcMember,
      (hbeatMsg host p cb).members = cb.members → ((hbeatMsg host p cb).mems mp).peer = mem.peer →
      (∀ m, m ≠ mp → (hbeatMsg host p cb).mems m = cb.mems m) →
      peerAt (hbeatMsg host p cb) y
        = if y = (cb.msgs p).hdrId host.endian then some mem.peer else peerAt cb y := by
    intro mem hmembers hself hother
    split
    · rename_i hy
      simp only [peerAt, hmembers, hy, hk, Option.map_some, hself]
    · rename_i hy
      exact peerAt_others h hk (by rw [hmembers]) hother hy
  by_cases hsess : (hbeatDecode host.endian (cb.msgs p)).hbeatSession host.endian
      = (cb.mems mp).session
  · have hnext : Peer.next (number host.endian cb) (some (cb.mems mp).peer)
        (.hbeat ((hbeatDecode host.endian (cb.msgs p)).hbeatSession host.endian)
          ((cb.msgs p).hdrSequence host.endian)) = some (cb.mems mp).peer :=
      if_neg fun hne => hne hsess
    rw [hbeatMember_same hk hsess] at hmsg
    rw [hnext]
    exact hpeer (cb.mems mp) hmsg.1 hmsg.2.1 hmsg.2.2
  · rw [hbeatMember_restart hk hsess] at hmsg
    obtain ⟨hmembers, hself, hother⟩ := hmsg
    rw [RmcCtrlBlock.setMem_self] at hself
    have hnext : Peer.next (number host.endian cb) (some (cb.mems mp).peer)
        (.hbeat ((hbeatDecode host.endian (cb.msgs p)).hbeatSession host.endian)
          ((cb.msgs p).hdrSequence host.endian))
        = some (hbeatNewSession host.endian (hbeatDecode host.endian (cb.msgs p))
            (cb.mems mp)).peer := by
      simp only [RmcMember.peer, hbeatNewSession, hseq]
      exact if_pos hsess
    rw [hnext]
    exact hpeer _ hmembers hself fun m hm => (hother m hm).trans (Function.update_of_ne hm _ _)

/-! ## NACK and LEAVE -/

theorem nackLoop_mems (h : Host) (p n : Nat) :
    ∀ (itr : Nat) (cb : RmcCtrlBlock), (nackLoop h p n itr cb).mems = cb.mems := by
  induction n with
  | zero => intro _ _; rfl
  | succ n ih =>
    intro itr cb
    simp only [nackLoop]
    rw [ih]
    split <;> rfl

theorem drainUnseq_mems (mp : Nat) (keys : List UInt32) {m : Nat} (hm : m ≠ mp)
    (cb : RmcCtrlBlock) : (drainUnseq mp keys cb).mems m = cb.mems m := by
  obtain ⟨buf, t, hdrain, -⟩ := drainUnseq_frame mp keys cb
  rw [hdrain]
  exact Function.update_of_ne hm _ _

theorem peerAt_leaveMsg (host : Host) (h : Owned cb hand) (hl : leaveMsg host p cb = some cb')
    (y : UInt32) :
    peerAt cb' y = if y = (cb.msgs p).hdrId host.endian then none else peerAt cb y := by
  unfold leaveMsg at hl
  split at hl
  · rename_i hnone
    obtain rfl := Option.some.inj hl
    split
    · rename_i hy
      simp only [peerAt, hy, htblRemove_eq_none.mp hnone, Option.map_none]
    · rfl
  · rename_i m t hsome
    obtain ⟨hk, rfl⟩ := htblRemove_eq_some.mp hsome
    have hmembers := (sameRegistry_drainUnseq m (htblEnumIntKeys (cb.mems m).unseqMsgs
      (htblCount (cb.mems m).unseqMsgs))
      { cb with members := cb.members.erase ((cb.msgs p).hdrId host.endian) }).members
    simp only at hl
    split at hl
    · cases hl
    obtain rfl := Option.some.inj hl
    split
    · rename_i hy
      simp only [peerAt, hmembers, htblGet_erase, hy, if_true, Option.map_none]
    · rename_i hy
      refine peerAt_others h hk ?_ (fun m' hm' => drainUnseq_mems m _ hm' _) hy
      simp only [hmembers, htblGet_erase, hy, if_false]

/-! ## Every datagram -/

/-- The records written for the messages in these buffers. -/
def recordsOf (e : Endian) (sender : SockaddrIn) (cb : RmcCtrlBlock) (out : List (Handed Nat)) :
    List IpcRecord :=
  out.map fun a => record e sender (a.map fun q => msgView e (cb.msgs q))

/-- The peer a message is from makes one step; the others make none. -/
theorem peerAt_dispatch {host : Host} {sender : SockaddrIn} (h : Owned cb (p :: hand))
    (hd : dispatch host sender p cb = some cb') (y : UInt32) :
    peerAt cb' y
      = if y = (cb.msgs p).hdrId host.endian then
          Peer.next (number host.endian cb) (peerAt cb y) (eventOf host.endian (cb.msgs p) p)
        else peerAt cb y := by
  have hsame : ∀ {ev : PeerEvent Nat}, ev = .other → (∀ z, peerAt cb' z = peerAt cb z) →
      peerAt cb' y = if y = (cb.msgs p).hdrId host.endian then
        Peer.next (number host.endian cb) (peerAt cb y) ev else peerAt cb y := by
    rintro _ rfl hpeer
    rw [hpeer y]
    split
    · cases peerAt cb y <;> rfl
    · rfl
  unfold dispatch at hd
  unfold eventOf
  split at hd
  · rename_i ht
    obtain rfl := Option.some.inj hd
    rw [ht]
    have hmembers := (sameRegistry_dataMsg host sender p cb).members
    cases hk : htblGet cb.members ((cb.msgs p).hdrId host.endian) with
    | none =>
      have hdrop : dataMsg host sender p cb = releaseMsg cb p := by
        simp only [dataMsg, hk]
      rw [hdrop]
      split
      · rename_i hy
        simp only [peerAt, releaseMsg, hy, hk, Option.map_none]
        rfl
      · rfl
    | some mp =>
      obtain ⟨hself, hother⟩ := dataMsg_peer host sender hk
      split
      · rename_i hy
        simp only [peerAt, hmembers, hy, hk, Option.map_some, hself]
        rfl
      · rename_i hy
        exact peerAt_others h hk (by rw [hmembers]) hother hy
  · rename_i ht
    obtain rfl := Option.some.inj hd
    rw [ht]
    cases hk : htblGet cb.members ((cb.msgs p).hdrId host.endian) with
    | none =>
      rw [peerAt_hbeatMsg_new host h hk]
      split
      · rename_i hy
        simp only [peerAt, hy, hk, Option.map_none]
        rfl
      · rfl
    | some mp =>
      rw [peerAt_hbeatMsg_known host h hk]
      split
      · rename_i hy
        simp only [peerAt, hy, hk, Option.map_some]
      · rfl
  · rename_i ht
    obtain rfl := Option.some.inj hd
    rw [ht]
    refine hsame rfl fun z => peerAt_congr ?_ ?_ z
    · exact (sameRegistry_nackMsg host p cb).members
    · exact nackLoop_mems host p _ _ _
  · rename_i ht
    rw [ht, peerAt_leaveMsg host h hd]
    split
    · cases peerAt cb y <;> rfl
    · rfl
  · rename_i hdata hhbeat hnack hleave
    obtain rfl := Option.some.inj hd
    refine hsame ?_ fun z => rfl
    split
    · exact absurd ‹_› hdata
    · exact absurd ‹_› hhbeat
    · exact absurd ‹_› hleave
    · rfl

/-- What a message hands to the client is what its sender's machine says. -/
theorem ipcOut_dispatch {host : Host} {sender : SockaddrIn} (h : Owned cb (p :: hand))
    (hd : dispatch host sender p cb = some cb') :
    cb'.ipcOut = cb.ipcOut ++ recordsOf host.endian sender cb
      (Peer.handed (number host.endian cb) (peerAt cb ((cb.msgs p).hdrId host.endian))
        (eventOf host.endian (cb.msgs p) p)) := by
  have hnothing : ∀ {ev : PeerEvent Nat}, (∀ a, ev ≠ .data a) → cb'.ipcOut = cb.ipcOut →
      cb'.ipcOut = cb.ipcOut ++ recordsOf host.endian sender cb
        (Peer.handed (number host.endian cb) (peerAt cb ((cb.msgs p).hdrId host.endian)) ev) := by
    intro ev hev hout
    rw [Peer.handed_eq_nil _ hev, hout]
    exact (List.append_nil _).symm
  unfold dispatch at hd
  unfold eventOf
  split at hd
  · rename_i ht
    obtain rfl := Option.some.inj hd
    rw [ht]
    cases hk : htblGet cb.members ((cb.msgs p).hdrId host.endian) with
    | none =>
      simp only [dataMsg, peerAt, hk, Option.map_none]
      exact (List.append_nil _).symm
    | some mp =>
      have hview : memberView host.endian cb mp
          = (cb.mems mp).peer.toReassembly.map fun q => msgView host.endian (cb.msgs q) := rfl
      obtain ⟨-, hout, -⟩ := dataMsg_refines host sender h hk
      rw [hout, hview, arrive_map (fun q => msgView host.endian (cb.msgs q))
        (cb.mems mp).peer.toReassembly p]
      simp only [peerAt, hk, Option.map_some, Peer.handed, recordsOf, List.map_map]
      rfl
  · rename_i ht
    obtain rfl := Option.some.inj hd
    rw [ht]
    exact hnothing (fun a ha => by cases ha) (hbeatMsg_ipcOut host p cb)
  · rename_i ht
    obtain rfl := Option.some.inj hd
    rw [ht]
    exact hnothing (fun a ha => by cases ha) (nackLoop_ipcOut host p _ _ _)
  · rename_i ht
    rw [ht]
    exact hnothing (fun a ha => by cases ha) (leaveMsg_ipcOut host hd)
  · rename_i hdata hhbeat hnack hleave
    obtain rfl := Option.some.inj hd
    refine hnothing ?_ rfl
    intro a
    split
    · exact absurd ‹_› hdata
    · exact absurd ‹_› hhbeat
    · exact absurd ‹_› hleave
    · exact fun ha => by cases ha

/-! ## The path of a datagram -/

/-- The message in which a datagram gets to the switch; `none` if it is too
short to get there. -/
def accepted (h : Host) (r : RecvResult) (cb : RmcCtrlBlock) : Option RmcMsg :=
  let m := (received h r cb).msgs (allocMsg cb).2
  if (recvMsg r cb).2.2 < sizeofHdr
      ∨ (recvMsg r cb).2.2 < (m.hdrLength h.endian).toNat + sizeofHdr then none
  else some m

theorem arrived_eq (h : Host) (r : RecvResult) (cb : RmcCtrlBlock) :
    arrived h r cb
      = (accepted h r cb).map fun m => (MsgType.ofByte m.hdrType, m.hdrId h.endian) := by
  have hbuf : (recvMsg r cb).2.1 = (allocMsg cb).2 := rfl
  unfold arrived accepted
  simp only [hbuf]
  split <;> rfl

/-- A datagram is dropped for its length, or it is a message for the
switch. -/
theorem mcastBranch_accepted {h : Host} {sender : SockaddrIn} {r : RecvResult} {flag : Bool}
    (hb : mcastBranch h sender r cb = some (cb', flag)) :
    (accepted h r cb = none ∧ cb'.members = cb.members ∧ cb'.mems = cb.mems
        ∧ cb'.ipcOut = cb.ipcOut)
      ∨ ∃ m, accepted h r cb = some m ∧ m = (received h r cb).msgs (allocMsg cb).2
        ∧ dispatch h sender (allocMsg cb).2 (received h r cb) = some cb' := by
  obtain ⟨hmems, hmembers, hout, -⟩ := received_receiver h r cb
  rcases mcastBranch_cases h sender r hb with
    ⟨hshort, -, rfl⟩ | ⟨hlong, cb₁, q, rfl, rfl, ⟨hcut, -, rfl⟩ | ⟨hwhole, -, hd⟩⟩
  · exact .inl ⟨if_pos (.inl hshort), hmembers, hmems, hout⟩
  · exact .inl ⟨if_pos (.inr hcut), hmembers, hmems, hout⟩
  · exact .inr ⟨_, if_neg (not_or.mpr ⟨hlong, hwhole⟩), rfl, hd⟩

/-- **One datagram, one step.** -/
theorem peerAt_mcastBranch {h : Host} {sender : SockaddrIn} {r : RecvResult} {flag : Bool}
    (hown : Owned cb hand) (hb : mcastBranch h sender r cb = some (cb', flag)) (y : UInt32) :
    peerAt cb' y = match accepted h r cb with
      | none => peerAt cb y
      | some m =>
          if y = m.hdrId h.endian then
            Peer.next (number h.endian (received h r cb)) (peerAt cb y)
              (eventOf h.endian m (allocMsg cb).2)
          else peerAt cb y := by
  have hrecv : peerAt (received h r cb) y = peerAt cb y :=
    peerAt_congr (received_receiver h r cb).2.1 (received_receiver h r cb).1 y
  rcases mcastBranch_accepted hb with ⟨hnone, hmembers, hmems, -⟩ | ⟨m, hsome, rfl, hd⟩
  · rw [hnone]
    exact peerAt_congr hmembers hmems y
  · rw [hsome, peerAt_dispatch (owned_received h r hown) hd, hrecv]

theorem ipcOut_mcastBranch {h : Host} {sender : SockaddrIn} {r : RecvResult} {flag : Bool}
    (hown : Owned cb hand) (hb : mcastBranch h sender r cb = some (cb', flag)) :
    cb'.ipcOut = cb.ipcOut ++ match accepted h r cb with
      | none => []
      | some m => recordsOf h.endian sender (received h r cb)
          (Peer.handed (number h.endian (received h r cb)) (peerAt cb (m.hdrId h.endian))
            (eventOf h.endian m (allocMsg cb).2)) := by
  obtain ⟨hmems, hmembers, hout, -⟩ := received_receiver h r cb
  rcases mcastBranch_accepted hb with ⟨hnone, -, -, hsame⟩ | ⟨m, hsome, rfl, hd⟩
  · rw [hnone, hsame, List.append_nil]
  · rw [hsome, ipcOut_dispatch (owned_received h r hown) hd, hout,
      peerAt_congr hmembers hmems]

/-! ## Contents -/

/-- What is kept about peer `x`, with the messages as they will be seen by
the client. -/
def peerView (e : Endian) (cb : RmcCtrlBlock) (x : UInt32) : Option (Peer MsgView) :=
  (peerAt cb x).map (Peer.map fun q => msgView e (cb.msgs q))

/-- The buffers cached for a peer are in use. -/
theorem inUse_peerAt (h : Owned cb hand) {y : UInt32} {v : Peer Nat} (hv : peerAt cb y = some v)
    {q : Nat} (hq : q ∈ htblValues v.unseqMsgs) : InUse cb q := by
  obtain ⟨mp, hk, rfl⟩ := Option.map_eq_some_iff.mp hv
  exact h.inUse (.inr (.inr (mem_cachedMsgs hk hq)))

/-- Buffers in use keep their contents, so the view of a peer is the same
in any state that kept them. -/
theorem peerView_of_kept (e : Endian) (h : Owned cb hand) {msgs : Nat → RmcMsg}
    (hkept : ∀ q, InUse cb q → msgs q = cb.msgs q) (y : UInt32) :
    (peerAt cb y).map (Peer.map fun q => msgView e (msgs q)) = peerView e cb y := by
  unfold peerView
  apply Option.map_congr
  intro v hv
  apply Peer.map_congr
  intro q hq
  rw [hkept q (inUse_peerAt h hv hq)]

/-- A DATA message keeps its own buffer. -/
theorem dispatch_msgs_data {h : Host} {sender : SockaddrIn} (hin : InUse cb p) {a : Nat}
    (hdata : eventOf h.endian (cb.msgs p) p = .data a) (hd : dispatch h sender p cb = some cb') :
    cb'.msgs p = cb.msgs p := by
  unfold dispatch at hd
  rw [(eventOf_eq_data hdata).1] at hd
  obtain rfl := Option.some.inj hd
  exact dataMsg_msgs h sender hin

/-- **One datagram, one step of the view.** -/
theorem peerView_mcastBranch {h : Host} {sender : SockaddrIn} {r : RecvResult} {flag : Bool}
    (hown : Owned cb hand) (hb : mcastBranch h sender r cb = some (cb', flag)) (y : UInt32) :
    peerView h.endian cb' y = match accepted h r cb with
      | none => peerView h.endian cb y
      | some m =>
          if y = m.hdrId h.endian then
            Peer.next MsgView.sequence (peerView h.endian cb y)
              (eventOf h.endian m (msgView h.endian m))
          else peerView h.endian cb y := by
  have hkept : ∀ q, InUse cb q → cb'.msgs q = cb.msgs q :=
    fun q hq => mcastBranch_msgs h sender r hq hb
  have hstep := peerAt_mcastBranch hown hb y
  rcases mcastBranch_accepted hb with ⟨hnone, -, -, -⟩ | ⟨m, hsome, rfl, hd⟩
  · rw [hnone] at hstep ⊢
    rw [peerView, hstep]
    exact peerView_of_kept h.endian hown hkept y
  · rw [hsome] at hstep ⊢
    dsimp only at hstep ⊢
    split
    · rename_i hy
      rw [if_pos hy] at hstep
      have hcontent : ∀ w, peerAt cb' y = some w →
          w.map (fun q => msgView h.endian (cb'.msgs q))
            = w.map fun q => msgView h.endian ((received h r cb).msgs q) := by
        intro w hw
        refine Peer.map_congr fun q hq => ?_
        rcases Peer.mem_next (hstep.symm.trans hw) hq with ⟨v, hv, hqv⟩ | hdata
        · have hin := inUse_peerAt hown hv hqv
          rw [hkept q hin, received_msgs h r hin]
        · -- the message itself was cached
          obtain rfl : q = (allocMsg cb).2 := (eventOf_eq_data hdata).2
          have hin := (owned_received h r hown).inUse (.inl (List.mem_cons_self ..))
          rw [dispatch_msgs_data hin hdata hd]
      have hview : peerView h.endian cb' y
          = (peerAt cb' y).map (Peer.map fun q => msgView h.endian ((received h r cb).msgs q)) := by
        unfold peerView
        exact Option.map_congr hcontent
      rw [hview, hstep, ← eventOf_map h.endian _ (fun q => msgView h.endian
        ((received h r cb).msgs q)), ← peerView_of_kept h.endian hown (fun q hq =>
          received_msgs h r hq) y, Peer.next_map]
      rfl
    · rename_i hy
      rw [if_neg hy] at hstep
      rw [peerView, hstep]
      exact peerView_of_kept h.endian hown hkept y

theorem ipcOut_view_mcastBranch {h : Host} {sender : SockaddrIn} {r : RecvResult} {flag : Bool}
    (hown : Owned cb hand) (hb : mcastBranch h sender r cb = some (cb', flag)) :
    cb'.ipcOut = cb.ipcOut ++ match accepted h r cb with
      | none => []
      | some m => (Peer.handed MsgView.sequence (peerView h.endian cb (m.hdrId h.endian))
          (eventOf h.endian m (msgView h.endian m))).map (record h.endian sender) := by
  rw [ipcOut_mcastBranch hown hb]
  rcases mcastBranch_accepted hb with ⟨hnone, -, -, -⟩ | ⟨m, hsome, rfl, -⟩
  · rw [hnone]
  · rw [hsome]
    dsimp only
    rw [← peerView_of_kept h.endian hown (fun q hq => received_msgs h r hq),
      ← eventOf_map h.endian _ (fun q => msgView h.endian ((received h r cb).msgs q)),
      Peer.handed_map, List.map_map]
    rfl

end Rms.V01
