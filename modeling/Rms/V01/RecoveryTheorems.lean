/-
Rms.V01.RecoveryTheorems — what a gap does to the daemon.

`send_nack` means to list the numbers between the last one delivered and
the one that came. Its loop runs through all numbers but two, and it
writes a word for every number that is not cached. With 32-bit addresses
there is no memory for that.

So the runs in which every NACK fits into memory are those in which none
is sent (`recovery_iff`). There, no datagram ever comes ahead of its turn,
and nothing is ever cached: what the daemon does about lost datagrams is
never reached.
-/
import Rms.V01.GapTheorems
import Rms.V01.NetworkTheorems

namespace Rms.V01

open Rms.ByteMem Rms.Util Rms.Serial Rms.Runs

variable {h : Host} {sender : SockaddrIn} {r : RecvResult} {flag : Bool} {cb cb' : RmcCtrlBlock}
  {p mp : Nat} {sequence : UInt32} {t : Htbl Nat}

/-- The datagram makes the switch call `send_nack`, for a member whose last
number is `sequence` and whose cache is `t` by then. -/
inductive Asks (h : Host) (r : RecvResult) (cb : RmcCtrlBlock) : UInt32 → Htbl Nat → Prop
  | data {m : RmcMsg} {v : Peer Nat} (hacc : accepted h r cb = some m)
      (hev : eventOf h.endian m () = .data ()) (hv : peerAt cb (m.hdrId h.endian) = some v)
      (hahead : Ahead v (m.hdrSequence h.endian)) :
      Asks h r cb v.sequence (htblPut v.unseqMsgs (m.hdrSequence h.endian) (allocMsg cb).2)
  | hbeat {m : RmcMsg} {v : Peer Nat} (hacc : accepted h r cb = some m)
      (hev : eventOf h.endian m () = .hbeat v.session (m.hdrSequence h.endian))
      (hv : peerAt cb (m.hdrId h.endian) = some v)
      (hahead : Ahead v (m.hdrSequence h.endian)) : Asks h r cb v.sequence v.unseqMsgs

/-- The offset in its buffer where `send_nack` stops writing. -/
def nackEnd (sequence : UInt32) (t : Htbl Nat) : Nat :=
  sizeofHdr + (1 + missing sequence t) * sizeofLong

/-- Every offset that `send_nack` writes to is an address. -/
def NackInMemory (h : Host) (cb : RmcCtrlBlock) : NodeOp → Prop
  | .branch (.mcast _ r) => ∀ sequence t, Asks h r cb sequence t →
      nackEnd sequence t ≤ 4294967296
  | _ => True

/-! ## What is sent -/

theorem silent_dataMsg
    (hno : ∀ mp, htblGet cb.members ((cb.msgs p).hdrId h.endian) = some mp →
      ¬ Ahead (cb.mems mp).peer ((cb.msgs p).hdrSequence h.endian)) :
    Silent cb (dataMsg h sender p cb) := by
  unfold dataMsg
  split
  · exact ⟨rfl, rfl⟩
  · rename_i mp hk
    split
    · rename_i hne
      split
      · rename_i hlt
        exact absurd ⟨hne, hlt⟩ (hno mp hk)
      · exact ⟨rfl, rfl⟩
    · exact (silent_releaseCached h mp _ _).of_eq rfl rfl

/-- What the gap check of a heartbeat compares. `cb₁` and `mp` are the state
and the member behind the lookup. -/
theorem hbeatApply_compared {cb₁ : RmcCtrlBlock}
    (hr : hbeatMember h p (cb.setMsg p (hbeatDecode h.endian (cb.msgs p))) = (cb₁, mp)) :
    ((hbeatApply h p (cb₁, mp)).msgs p).hdrSequence h.endian = (cb.msgs p).hdrSequence h.endian
      ∧ ((hbeatApply h p (cb₁, mp)).mems mp).sequence = (cb₁.mems mp).sequence := by
  have hmsgs := hbeatMember_msgs h p (cb.setMsg p (hbeatDecode h.endian (cb.msgs p)))
  rw [hr] at hmsgs
  have hbuf : cb₁.msgs p = hbeatDecode h.endian (cb.msgs p) :=
    (congrFun hmsgs p).trans (RmcCtrlBlock.setMsg_self ..)
  constructor
  · simp only [hbeatApply, RmcCtrlBlock.setMsg_self, hbuf]
    rw [hbeatDecodeTail_hdrSequence, (hbeatDecode_header h.endian (cb.msgs p)).2.1]
  · rw [show (hbeatApply h p (cb₁, mp)).mems mp
      = hbeatUpdate h.endian (cb₁.msgs p) cb₁.self.id (cb₁.mems mp) from RmcCtrlBlock.setMem_self ..]
    exact (hbeatUpdate_sequence _ _ _ _).1

/-- A heartbeat is ahead only of a member whose session goes on: a place in
the sequence taken from the heartbeat is not behind it. -/
theorem hbeatMember_not_ahead
    (hno : ∀ mp, htblGet cb.members ((cb.msgs p).hdrId h.endian) = some mp →
      (hbeatDecode h.endian (cb.msgs p)).hbeatSession h.endian = (cb.mems mp).session →
      ¬ Ahead (cb.mems mp).peer ((cb.msgs p).hdrSequence h.endian)) :
    ∃ cb₁ mp, hbeatMember h p (cb.setMsg p (hbeatDecode h.endian (cb.msgs p))) = (cb₁, mp)
      ∧ ¬ Ahead (cb₁.mems mp).peer ((cb.msgs p).hdrSequence h.endian) := by
  have hseq := (hbeatDecode_header h.endian (cb.msgs p)).2.1
  have hdue : ∀ v : Peer Nat,
      v.sequence = (hbeatDecode h.endian (cb.msgs p)).hdrSequence h.endian - 1 →
      ¬ Ahead v ((cb.msgs p).hdrSequence h.endian) := by
    intro v hv hahead
    refine hahead.1 ?_
    rw [hv, hseq, UInt32.sub_add_cancel]
  cases hk : htblGet cb.members ((cb.msgs p).hdrId h.endian) with
  | none =>
    refine ⟨_, _, hbeatMember_new hk, hdue _ ?_⟩
    simp only [Function.update_self]
    rfl
  | some mp =>
    by_cases hsess : (hbeatDecode h.endian (cb.msgs p)).hbeatSession h.endian
        = (cb.mems mp).session
    · exact ⟨_, _, hbeatMember_same hk hsess, hno mp hk hsess⟩
    · refine ⟨_, _, hbeatMember_restart hk hsess, hdue _ ?_⟩
      rw [RmcCtrlBlock.setMem_self]
      rfl

theorem silent_hbeatMsg
    (hno : ∀ mp, htblGet cb.members ((cb.msgs p).hdrId h.endian) = some mp →
      (hbeatDecode h.endian (cb.msgs p)).hbeatSession h.endian = (cb.mems mp).session →
      ¬ Ahead (cb.mems mp).peer ((cb.msgs p).hdrSequence h.endian)) :
    Silent cb (hbeatMsg h p cb) := by
  obtain ⟨cb₁, mp, hr, hno'⟩ := hbeatMember_not_ahead hno
  obtain ⟨hnumber, hseq⟩ := hbeatApply_compared hr
  have hmember := silent_hbeatMember h p (cb.setMsg p (hbeatDecode h.endian (cb.msgs p)))
  rw [hr] at hmember
  have hquiet : Silent cb (hbeatApply h p (cb₁, mp)) := ⟨hmember.version, hmember.sent⟩
  rw [hbeatMsg_eq, hr]
  refine Silent.trans ?_ (silent_releaseMsg _ _)
  unfold hbeatGap
  rw [hnumber, hseq]
  split
  · rename_i hne
    split
    · rename_i hlt
      exact absurd ⟨hne, hlt⟩ hno'
    · exact hquiet
  · exact hquiet

/-- The event of a heartbeat carries its session. -/
theorem eventOf_eq_hbeat {α : Type*} {e : Endian} {m : RmcMsg} {a : α} {session n : UInt32}
    (hev : eventOf e m a = .hbeat session n) :
    MsgType.ofByte m.hdrType = some .hbeat ∧ (hbeatDecode e m).hbeatSession e = session := by
  unfold eventOf at hev
  split at hev
  · cases hev
  · exact ⟨‹_›, (PeerEvent.hbeat.inj hev).1⟩
  · cases hev
  · cases hev

theorem kindOf_of_asks (ha : Asks h r cb sequence t) :
    kindOf h cb (.branch (.mcast sender r)) = .nack := by
  have hkind : ∀ m, accepted h r cb = some m → MsgType.ofByte m.hdrType ≠ some .nack →
      kindOf h cb (.branch (.mcast sender r)) = .nack := by
    intro m hacc hne
    simp only [kindOf, hacc, Option.bind_some]
  cases ha with
  | data hacc hev hv hahead =>
    refine hkind _ hacc fun ht => ?_
    simp [eventOf, ht] at hev
  | hbeat hacc hev hv hahead =>
    refine hkind _ hacc fun ht => ?_
    simp [eventOf, ht] at hev

/-- The NACK that is asked for is sent: the bytes of `nackEnd`, cut to a
`size_t`. -/
theorem sent_of_asks (hb : mcastBranch h sender r cb = some (cb', flag))
    (ha : Asks h r cb sequence t) :
    ∃ mem m dest, mem.sequence = sequence ∧ mem.unseqMsgs = t
      ∧ cb'.sent = cb.sent ++ [⟨dest, nackBytes h mem m (nackList mem), false⟩] := by
  obtain ⟨hmems, hmembers, -⟩ := received_receiver h r cb
  have hsent := (silent_received h r cb).sent
  have hfound : ∀ {y v}, peerAt cb y = some v →
      ∃ mp, htblGet (received h r cb).members y = some mp
        ∧ v = ((received h r cb).mems mp).peer := by
    intro y v hv
    obtain ⟨mp, hk, heq⟩ := Option.map_eq_some_iff.mp ((peerAt_congr hmembers hmems y).trans hv)
    exact ⟨mp, hk, heq.symm⟩
  rcases mcastBranch_accepted hb with ⟨hnone, -⟩ | ⟨m, hsome, rfl, hd⟩
  · cases ha with
    | data hacc => cases hnone.symm.trans hacc
    | hbeat hacc => cases hnone.symm.trans hacc
  cases ha with
  | data hacc hev hv hahead =>
    obtain rfl := Option.some.inj (hsome.symm.trans hacc)
    obtain ⟨mp, hk, rfl⟩ := hfound hv
    obtain ⟨ht, -⟩ := eventOf_eq_data hev
    simp only [dispatch, ht, Option.some.injEq] at hd
    have hlt : ((received h r cb).mems mp).sequence
        < ((received h r cb).msgs (allocMsg cb).2).hdrSequence h.endian := hahead.2
    rw [dataMsg_gap hk hahead.1, if_pos hlt] at hd
    have hmem := dataNack_mem h mp (allocMsg cb).2 (received h r cb)
    have hnack := sendNack_sent h mp (dataNack h mp (allocMsg cb).2 (received h r cb)).2
      (dataNack h mp (allocMsg cb).2 (received h r cb)).1
    rw [show (dataNack h mp (allocMsg cb).2 (received h r cb)).1.sent = cb.sent from
      (silent_allocMsg _).sent.trans hsent] at hnack
    generalize (dataNack h mp (allocMsg cb).2 (received h r cb)).1.mems mp = mem at hmem hnack
    rw [← hd, (silent_releaseMsg _ _).sent, hnack]
    refine ⟨mem, _, _, ?_, ?_, rfl⟩
    · rw [hmem]
      rfl
    · rw [hmem]
      rfl
  | hbeat hacc hev hv hahead =>
    obtain rfl := Option.some.inj (hsome.symm.trans hacc)
    obtain ⟨mp, hk, rfl⟩ := hfound hv
    obtain ⟨ht, hsess⟩ := eventOf_eq_hbeat hev
    simp only [dispatch, ht, Option.some.injEq] at hd
    have hlt : ((received h r cb).mems mp).sequence
        < ((received h r cb).msgs (allocMsg cb).2).hdrSequence h.endian := hahead.2
    rw [hbeatMsg_gap hk hsess hahead.1, if_pos hlt] at hd
    obtain ⟨hseq, -, -, hunseq⟩ := hbeatUpdate_sequence h.endian
      (hbeatDecode h.endian ((received h r cb).msgs (allocMsg cb).2)) (received h r cb).self.id
      ((received h r cb).mems mp)
    have hmem := hbeatNack_mem h mp (allocMsg cb).2 (received h r cb)
    have hnack := sendNack_sent h mp (allocMsg cb).2
      (hbeatNack h mp (allocMsg cb).2 (received h r cb))
    have hsame : (hbeatNack h mp (allocMsg cb).2 (received h r cb)).sent = cb.sent := by
      obtain ⟨msg, heq⟩ := hbeatNack_eq h mp (allocMsg cb).2 (received h r cb)
      rw [heq]
      exact hsent
    rw [hsame] at hnack
    generalize (hbeatNack h mp (allocMsg cb).2 (received h r cb)).mems mp = mem at hmem hnack
    rw [← hd, (silent_releaseMsg _ _).sent, hnack]
    refine ⟨mem, _, _, ?_, ?_, rfl⟩
    · rw [hmem]
      exact hseq
    · rw [hmem]
      exact hunseq

/-- Without one, nothing is sent but answers to NACKs. -/
theorem silent_of_not_asks (hb : mcastBranch h sender r cb = some (cb', flag))
    (hkind : kindOf h cb (.branch (.mcast sender r)) = .nack)
    (hno : ∀ sequence t, ¬ Asks h r cb sequence t) : Silent cb cb' := by
  rcases mcastBranch_accepted hb with ⟨hnone, -⟩ | ⟨m, hsome, hm, hd⟩
  · exact silent_dropped hb hnone
  have hrecv := silent_received h r cb
  obtain ⟨hmems, hmembers, -⟩ := received_receiver h r cb
  have hpeer : ∀ {y mp}, htblGet (received h r cb).members y = some mp →
      peerAt cb y = some ((received h r cb).mems mp).peer := by
    intro y mp hk
    rw [← peerAt_congr hmembers hmems y, peerAt, hk]
    rfl
  simp only [kindOf, hsome, Option.bind_some] at hkind
  unfold dispatch at hd
  rw [← hm] at hd
  have hdrop : some (releaseMsg (received h r cb) (allocMsg cb).2) = some cb' → Silent cb cb' := by
    intro heq
    obtain rfl := Option.some.inj heq
    exact hrecv.trans (silent_releaseMsg _ _)
  cases ht : MsgType.ofByte m.hdrType with
  | none =>
    rw [ht] at hd
    exact hdrop hd
  | some type =>
    rw [ht] at hd hkind
    cases type with
    | data =>
      obtain rfl := Option.some.inj hd
      refine hrecv.trans (silent_dataMsg fun mp hk hahead => ?_)
      rw [← hm] at hk hahead
      exact hno _ _ (.data hsome (by simp only [eventOf, ht]) (hpeer hk) hahead)
    | hbeat =>
      obtain rfl := Option.some.inj hd
      refine hrecv.trans (silent_hbeatMsg fun mp hk hsess hahead => ?_)
      rw [← hm] at hk hsess hahead
      refine hno _ _ (.hbeat hsome ?_ (hpeer hk) hahead)
      simp only [eventOf, ht, hsess]
      rfl
    | nack => cases hkind
    | leave => exact hrecv.trans (silent_leaveMsg h hd)
    | ack => exact hdrop hd
    | join => exact hdrop hd
    | cert => exact hdrop hd

/-! ## Empty caches -/

theorem eq_empty_of_values {ν : Type*} {t : Htbl ν} (hno : ∀ a, a ∉ htblValues t) : t = ∅ := by
  refine eq_empty_of_htblGet fun k => ?_
  cases hk : htblGet t k with
  | none => rfl
  | some a => exact absurd (mem_htblValues.mpr ⟨k, hk⟩) (hno a)

theorem htblCount_htblPut_le (t : Htbl Nat) (k : UInt32) (q : Nat) :
    htblCount (htblPut t k q) ≤ htblCount t + 1 := by
  cases hk : htblGet t k with
  | none =>
    rw [htblPut_of_none q hk, htblCount, AList.entries_insert_of_notMem (AList.lookup_eq_none.mp hk)]
    exact le_rfl
  | some a =>
    rw [htblPut_of_some q hk]
    exact Nat.le_succ _

/-- Unless three quarters of the numbers are cached, a NACK does not fit
into memory. -/
theorem lt_nackEnd (sequence : UInt32) (hcount : htblCount t ≤ 3221225473) :
    4294967296 < nackEnd sequence t := by
  obtain ⟨c, hcached, hsplit⟩ := missing_add_cached sequence t
  simp only [nackEnd, sizeofHdr, sizeofLong]
  omega

/-- Without a message ahead, an empty cache stays empty. -/
theorem next_empty {num : Nat → UInt32} {v : Option (Peer Nat)} {ev : PeerEvent Nat} {w : Peer Nat}
    (hv : ∀ u, v = some u → u.unseqMsgs = ∅)
    (hno : ∀ u a, v = some u → ev = .data a → ¬ Ahead u (num a))
    (hw : Peer.next num v ev = some w) : w.unseqMsgs = ∅ := by
  cases v with
  | none =>
    cases ev with
    | hbeat session sequence =>
      obtain rfl := Option.some.inj hw
      rfl
    | data a => cases hw
    | leave => cases hw
    | other => cases hw
  | some u =>
    have hu := hv u rfl
    cases ev with
    | data a =>
      obtain rfl := Option.some.inj hw
      have hnot := hno u a rfl rfl
      simp only [arrive]
      split
      · rename_i hne
        split
        · rename_i hlt
          exact absurd ⟨hne, hlt⟩ hnot
        · exact hu
      · simp [hu, htblCount, release]
    | hbeat session sequence =>
      simp only [Peer.next] at hw
      split at hw
      · obtain rfl := Option.some.inj hw
        exact hu
      · obtain rfl := Option.some.inj hw
        exact hu
    | leave => cases hw
    | other =>
      obtain rfl := Option.some.inj hw
      exact hu

/-! ## Runs without a loss -/

/-- Nothing is cached and no NACK was sent. -/
structure NoLoss (s : Emitter) : Prop where
  owned : ∃ hand, Owned s.cb hand
  empty : ∀ x v, peerAt s.cb x = some v → v.unseqMsgs = ∅
  quiet : ∀ y ∈ s.emitted, y.1 ≠ .nack

variable {s s' : Emitter}

/-- Where nothing is cached, a NACK is asked for with one number cached at
most. -/
theorem count_of_asks (hempty : ∀ x v, peerAt cb x = some v → v.unseqMsgs = ∅)
    (ha : Asks h r cb sequence t) : htblCount t ≤ 3221225473 := by
  cases ha with
  | data hacc hev hv hahead =>
    rw [hempty _ _ hv]
    exact (htblCount_htblPut_le _ _ _).trans (by decide)
  | hbeat hacc hev hv hahead =>
    rw [hempty _ _ hv]
    exact Nat.zero_le _

theorem NoLoss.not_asks (hs : NoLoss s)
    (hok : NackInMemory h s.cb (.branch (.mcast sender r))) (sequence : UInt32) (t : Htbl Nat) :
    ¬ Asks h r s.cb sequence t := by
  intro ha
  have hle := hok sequence t ha
  have hlt := lt_nackEnd sequence (count_of_asks hs.empty ha)
  omega

theorem empty_mcastBranch {hand : List Nat} (hown : Owned cb hand)
    (hempty : ∀ x v, peerAt cb x = some v → v.unseqMsgs = ∅)
    (hno : ∀ sequence t, ¬ Asks h r cb sequence t)
    (hb : mcastBranch h sender r cb = some (cb', flag)) :
    ∀ x v, peerAt cb' x = some v → v.unseqMsgs = ∅ := by
  intro x v hv
  rw [peerAt_mcastBranch hown hb x] at hv
  cases hacc : accepted h r cb with
  | none =>
    rw [hacc] at hv
    exact hempty x v hv
  | some m =>
    rw [hacc] at hv
    dsimp only at hv
    split at hv
    · rename_i hx
      refine next_empty (fun u hu => hempty x u hu) (fun u a hu hev hahead => ?_) hv
      obtain ⟨ht, rfl⟩ := eventOf_eq_data hev
      have hm : number h.endian (received h r cb) (allocMsg cb).2 = m.hdrSequence h.endian := by
        rcases mcastBranch_accepted hb with ⟨hnone, -⟩ | ⟨m', hsome, rfl, -⟩
        · cases hnone.symm.trans hacc
        · rw [← Option.some.inj (hsome.symm.trans hacc)]
          rfl
      rw [hm] at hahead
      exact hno _ _ (.data hacc (by simp only [eventOf, ht]) (hx ▸ hu) hahead)
    · exact hempty x v hv

theorem Shrinks.empty {e : Endian} (hsh : Shrinks e cb cb')
    (hempty : ∀ x v, peerAt cb x = some v → v.unseqMsgs = ∅) :
    ∀ x v, peerAt cb' x = some v → v.unseqMsgs = ∅ := by
  intro x v hv
  refine eq_empty_of_values fun q hq => ?_
  obtain ⟨u, hu, hsub⟩ := hsh.cached x _ (by rw [peerView, hv]; rfl)
  obtain ⟨w, hw, rfl⟩ := Option.map_eq_some_iff.mp hu
  have hin := hsub _ (mem_htblValues_map.mpr ⟨q, hq, rfl⟩)
  obtain ⟨q', hq', -⟩ := mem_htblValues_map.mp hin
  rw [hempty x w hw] at hq'
  simp at hq'

/-- **One step.** -/
theorem noLoss_step {op : NodeOp} (hs : NoLoss s) (hok : NackInMemory h s.cb op)
    (hstep : s.step h op = some s') : NoLoss s' := by
  obtain ⟨cb', hcb, rfl⟩ := Option.map_eq_some_iff.mp hstep
  obtain ⟨hand, hown⟩ := hs.owned
  have hown' := owned_nodeStep hown hcb
  have hquiet : (kindOf h s.cb op ≠ .nack ∨ Silent s.cb cb') → ∀ y ∈ s.emitted
      ++ (cb'.sent.drop s.cb.sent.length).map (fun x => (kindOf h s.cb op, x.bytes)),
        y.1 ≠ .nack := by
    intro hor y hy
    rcases List.mem_append.mp hy with hy | hy
    · exact hs.quiet y hy
    · obtain ⟨x, hx, rfl⟩ := List.mem_map.mp hy
      rcases hor with hkind | hsilent
      · exact hkind
      · rw [hsilent.sent, List.drop_length] at hx
        cases hx
  by_cases harr : op.isArrival = false
  · refine ⟨hown', (shrinks_nodeStep h.endian hown harr hcb).empty hs.empty, hquiet (.inl ?_)⟩
    rcases op with (b | keys | _)
    · cases b with
      | mcast sender r => cases harr
      | ipc i => exact fun hk => by cases hk
      | hbeat => exact fun hk => by cases hk
      | ack => exact fun hk => by cases hk
    · exact fun hk => by cases hk
    · exact fun hk => by cases hk
  · obtain ⟨sender, r, rfl⟩ : ∃ sender r, op = .branch (.mcast sender r) := by
      rcases op with (b | keys | _)
      · cases b with
        | mcast sender r => exact ⟨sender, r, rfl⟩
        | _ => exact absurd rfl harr
      · exact absurd rfl harr
      · exact absurd rfl harr
    have hno := hs.not_asks hok
    obtain ⟨⟨cb₁, flag⟩, hb, rfl⟩ := Option.map_eq_some_iff.mp hcb
    refine ⟨hown', empty_mcastBranch hown hs.empty hno hb, hquiet ?_⟩
    by_cases hkind : kindOf h s.cb (.branch (.mcast sender r)) = .nack
    · exact .inr (silent_of_not_asks hb hkind hno)
    · exact .inl hkind

/-- A step in which a NACK does not fit sends it. -/
theorem sends_nack {op : NodeOp} (hbad : ¬ NackInMemory h s.cb op)
    (hstep : s.step h op = some s') : ∃ y ∈ s'.emitted, y.1 = .nack := by
  obtain ⟨cb', hcb, rfl⟩ := Option.map_eq_some_iff.mp hstep
  rcases op with (b | keys | _)
  · cases b with
    | mcast sender r =>
      simp only [NackInMemory, not_forall] at hbad
      obtain ⟨sequence, t, ha, -⟩ := hbad
      obtain ⟨⟨cb₁, flag⟩, hb, rfl⟩ := Option.map_eq_some_iff.mp hcb
      obtain ⟨mem, m, dest, -, -, hsent⟩ := sent_of_asks hb ha
      refine ⟨(.nack, nackBytes h mem m (nackList mem)), List.mem_append_right _ ?_, rfl⟩
      rw [hsent, List.drop_left, kindOf_of_asks ha]
      exact List.mem_singleton_self _
    | _ => exact absurd trivial hbad
  · exact absurd trivial hbad
  · exact absurd trivial hbad

/-- **The end of recovery.** In every run, all NACKs fit into memory exactly
if none is ever sent and no message is ever cached. -/
theorem recovery_iff (h : Host) (g : Garbage) (a : InitArgs) (ops : List NodeOp) :
    Throughout (Emitter.step h) (fun s => (∀ y ∈ s.emitted, y.1 ≠ .nack)
        ∧ ∀ x v, peerAt s.cb x = some v → v.unseqMsgs = ∅) (Emitter.start g a) ops
      ↔ Guarded (Emitter.step h) (fun s op => NackInMemory h s.cb op) (Emitter.start g a) ops := by
  refine throughout_iff_of_invariant (I := NoLoss) ?_ ?_ ?_ ⟨⟨[], owned_rmcastInit g a⟩, ?_, ?_⟩
  · exact fun s hs => ⟨hs.quiet, hs.empty⟩
  · exact fun s op s' hs hok hstep => noLoss_step hs hok hstep
  · intro s op s' _ hbad hstep hgood
    obtain ⟨y, hy, hnack⟩ := sends_nack hbad hstep
    exact hgood.1 y hy hnack
  · intro x v hv
    rw [show (Emitter.start g a).cb = rmcastInit g a from rfl, peerAt,
      (rmcastInit_node g a).2.1] at hv
    cases hv
  · intro y hy
    cases hy

end Rms.V01
