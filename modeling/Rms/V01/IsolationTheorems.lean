/-
Rms.V01.IsolationTheorems — peers do not interfere, as long as the daemon
lives.

Every datagram is an event of the machine of the peer that its header
names (`Datagram.event`), whichever buffer it was received into. So what
a node keeps about a peer, and what it delivered from it, is the same
fold over that peer's datagrams in every run they are part of
(`followed_run`).

The peers share one thing that can break, the queue of members. After a
LEAVE from the middle of the queue, a later LEAVE of another peer can
follow a NULL link, and then no peer is served any more. `LeaveReaches`
is the condition on a LEAVE under which the daemon survives it
(`receive_isSome_iff`). What else ends it is in `BoundedRuns`.
-/
import Rms.V01.PeerTheorems
import Rms.Lib.Refinement

namespace Rms.V01

open Rms.ByteMem Rms.Util Rms.Runs

variable {cb cb' : RmcCtrlBlock} {hand : List Nat} {n : Nat} {d : Datagram}

/-! ## Datagrams as events -/

/-- The session that a heartbeat announces. -/
def Datagram.session (d : Datagram) : UInt32 := be32At (writeBytes (fun _ => 0) 0 d.bytes) 20

/-- What a datagram means to the machine of its sender. -/
def Datagram.event (d : Datagram) : PeerEvent MsgView :=
  match MsgType.ofByte d.type with
  | some .data => .data d.view
  | some .hbeat => .hbeat d.session d.sequence
  | some .leave => .leave
  | _ => .other

/-- A datagram long enough for the structure that its type claims. -/
def Datagram.LongEnough (d : Datagram) : Prop :=
  d.type = MsgType.hbeat.toByte → sizeofHbeat ≤ d.body.length

instance (d : Datagram) : Decidable d.LongEnough := by
  unfold Datagram.LongEnough
  infer_instance

/-- What a buffer of `n` bytes takes of a datagram passes the checks of
length. -/
def Datagram.Accepted (n : Nat) (d : Datagram) : Prop :=
  ¬ (sizeT (d.bytes.take n).length < sizeofHdr
    ∨ sizeT (d.bytes.take n).length < d.length.toNat + sizeofHdr)

instance (n : Nat) (d : Datagram) : Decidable (d.Accepted n) := by
  unfold Datagram.Accepted
  infer_instance

theorem sizeT_natCast_le (n : Nat) : sizeT (n : Int) ≤ n := by
  simp only [sizeT]
  omega

theorem Datagram.Accepted.length_le (h : d.Accepted n) (hn : sizeofHdr ≤ n) :
    d.length.toNat ≤ (d.cut n).body.length := by
  have hlen := d.bytes_length
  have hle := sizeT_natCast_le (d.bytes.take n).length
  have hshort := (not_or.mp h).2
  simp only [List.length_take, Datagram.cut] at hle hshort ⊢
  omega

theorem Datagram.Accepted.view_cut (h : d.Accepted n) (hn : sizeofHdr ≤ n) :
    (d.cut n).view = d.view := by
  have hle := h.length_le hn
  simp only [Datagram.cut, List.length_take] at hle
  simp only [Datagram.view, Datagram.payload, Datagram.cut, List.take_take]
  rw [Nat.min_eq_left (by omega)]

/-- The session stands in every buffer that holds enough of the heartbeat. -/
theorem Holds.session {e : Endian} {m : RmcMsg} (h : Holds e m (d.cut n))
    (hn : sizeofHdr + sizeofHbeat ≤ n) (hlong : sizeofHbeat ≤ d.body.length) :
    be32At m.buf 20 = d.session := by
  have hbytes : ∀ i, sizeofHdr ≤ i → i < sizeofHdr + sizeofHbeat → some (m.buf i) = d.bytes[i]? := by
    intro i hlo hhi
    have hbody := congrArg (·[i - sizeofHdr]?) h.body
    simp only [Datagram.cut, List.length_take, List.getElem?_take] at hbody
    rw [readBytes_getElem? _ _ _ _ (by omega), if_pos (by omega),
      show sizeofHdr + (i - sizeofHdr) = i by omega] at hbody
    rw [hbody]
    obtain ⟨k, rfl⟩ : ∃ k, i = k + 12 := ⟨i - 12, by simp only [sizeofHdr] at hlo; omega⟩
    simp [Datagram.bytes, be16, be32, sizeofHdr]
  refine be32At_congr fun i hlo hhi => ?_
  have hi := hbytes i (by simp only [sizeofHdr]; omega) (by simp only [sizeofHdr, sizeofHbeat]; omega)
  simp only [writeBytes, Nat.zero_le, if_true, Nat.sub_zero, ← hi, Option.getD_some]

theorem Holds.event {e : Endian} {m : RmcMsg} (h : Holds e m (d.cut n)) (ha : d.Accepted n)
    (hn : sizeofHdr + sizeofHbeat ≤ n) (hlong : d.LongEnough) :
    eventOf e m (msgView e m) = d.event := by
  have hview : msgView e m = d.view :=
    (h.view (ha.length_le (by omega))).trans (ha.view_cut (by omega))
  have htype : m.hdrType = d.type := h.type
  have hseq : m.hdrSequence e = d.sequence := h.sequence
  have hsess : MsgType.ofByte d.type = some .hbeat →
      (hbeatDecode e m).hbeatSession e = d.session := fun ht => by
    rw [hbeatDecode_session, h.session hn (hlong (MsgType.eq_toByte ht))]
  unfold eventOf Datagram.event
  rw [hview, htype, hseq]
  cases ht : MsgType.ofByte d.type with
  | none => rfl
  | some t =>
    cases t with
    | hbeat => simp only [hsess ht]
    | data => rfl
    | ack => rfl
    | nack => rfl
    | join => rfl
    | leave => rfl
    | cert => rfl

/-- What the daemon makes of a datagram does not depend on the buffer. -/
theorem accepted_datagram (h : Host)
    (hsize : ((allocMsg cb).1.msgs (allocMsg cb).2).size = n) (hn : sizeofHdr ≤ n) :
    accepted h (.ok d.bytes) cb
      = if d.Accepted n then some ((received h (.ok d.bytes) cb).msgs (allocMsg cb).2)
        else none := by
  have hlen : ((received h (.ok d.bytes) cb).msgs (allocMsg cb).2).hdrLength h.endian = d.length :=
    (holds_received_cut h hsize hn d).length
  have hret : (recvMsg (.ok d.bytes) cb).2.2 = sizeT (d.bytes.take n).length := by
    simp only [recvMsg, RecvResult.limit, RecvResult.ret, hsize]
  unfold accepted Datagram.Accepted
  rw [ite_not, ← hret]
  simp only [hlen]

/-! ## Sizes -/

theorem SizesIn.nackLoop {P : Nat → Prop} (host : Host) (p rounds : Nat) :
    ∀ {itr : Nat} {cb : RmcCtrlBlock}, SizesIn P cb → SizesIn P (nackLoop host p rounds itr cb) := by
  induction rounds with
  | zero => intro itr cb h; exact h
  | succ r ih =>
    intro itr cb h
    have hset : ∀ buf, SizesIn P (cb.setMsg p ((cb.msgs p).setBuf buf)) := fun buf => h.setMsg rfl
    have hsend : ∀ {cb : RmcCtrlBlock} (dest : Dest) (q len : Nat), SizesIn P cb →
        SizesIn P (cb.sendto dest q len false) := fun _ _ _ h => ⟨h.bufsize, h.size⟩
    simp only [V01.nackLoop]
    apply ih
    split
    · exact hsend _ _ _ (hset _)
    · exact hset _

theorem SizesIn.leaveMsg {P : Nat → Prop} {host : Host} {p : Nat} (h : SizesIn P cb)
    (hl : leaveMsg host p cb = some cb') : SizesIn P cb' := by
  obtain ⟨buf, mems, t, q, freed, rfl⟩ := leaveMsg_frame host p hl
  exact ⟨h.bufsize, h.size⟩

theorem SizesIn.dispatch {P : Nat → Prop} {host : Host} {sender : SockaddrIn} {p : Nat}
    (h : SizesIn P cb) (hd : dispatch host sender p cb = some cb') : SizesIn P cb' := by
  unfold V01.dispatch at hd
  split at hd
  · exact Option.some.inj hd ▸ h.dataMsg host sender p
  · exact Option.some.inj hd ▸ h.hbeatMsg host p
  · obtain rfl := Option.some.inj hd
    exact SizesIn.nackLoop host p _ ⟨h.bufsize, h.size⟩
  · exact h.leaveMsg hd
  · exact Option.some.inj hd ▸ ⟨h.bufsize, h.size⟩

theorem SizesIn.mcastBranch {P : Nat → Prop} {host : Host} {sender : SockaddrIn} {r : RecvResult}
    {flag : Bool} (h : SizesIn P cb) (hb : mcastBranch host sender r cb = some (cb', flag)) :
    SizesIn P cb' := by
  have hrecv := h.received host r
  have hraw : SizesIn P (recvMsg r cb).1 := h.allocMsg.setMsg rfl
  rcases mcastBranch_cases host sender r hb with
    ⟨-, -, rfl⟩ | ⟨-, cb₁, p, rfl, rfl, ⟨-, -, rfl⟩ | ⟨-, -, hd⟩⟩
  · exact ⟨hraw.bufsize, hraw.size⟩
  · exact hrecv
  · exact hrecv.dispatch hd

/-! ## One peer -/

/-- The payloads delivered from a peer. -/
def delivered (x : UInt32) (cb : RmcCtrlBlock) : List (List UInt8) :=
  (cb.ipcOut.filter fun r => r.id = x).map IpcRecord.payload

/-- What a peer's machine and its deliveries become with one datagram. -/
def Peer.follow (n : Nat) (x : UInt32) (s : Option (Peer MsgView) × List (List UInt8))
    (d : Datagram) : Option (Peer MsgView) × List (List UInt8) :=
  if d.Accepted n ∧ d.id = x then
    (Peer.next MsgView.sequence s.1 d.event,
      s.2 ++ (Peer.handed MsgView.sequence s.1 d.event).map fun a => a.msg.payload)
  else s

/-- The datagrams of one peer. -/
def project (x : UInt32) (xs : List (SockaddrIn × Datagram)) : List (SockaddrIn × Datagram) :=
  xs.filter fun y => y.2.id = x

theorem follow_project (n : Nat) (x : UInt32) (xs : List (SockaddrIn × Datagram))
    (s : Option (Peer MsgView) × List (List UInt8)) :
    ((project x xs).map Prod.snd).foldl (Peer.follow n x) s
      = (xs.map Prod.snd).foldl (Peer.follow n x) s := by
  induction xs generalizing s with
  | nil => rfl
  | cons y xs ih =>
    by_cases hy : y.2.id = x
    · have hcons : project x (y :: xs) = y :: project x xs := List.filter_cons_of_pos (by simpa)
      rw [hcons]
      exact ih _
    · have hcons : project x (y :: xs) = project x xs := List.filter_cons_of_neg (by simpa)
      have hskip : Peer.follow n x s y.2 = s := if_neg fun h => hy h.2
      rw [hcons, List.map_cons, List.foldl_cons, hskip]
      exact ih s

/-- What runs of datagrams keep: the ledger of buffers, one size for all of
them, and every cached message under the id of its sender. -/
structure Serving (e : Endian) (n : Nat) (cb : RmcCtrlBlock) : Prop where
  owned : ∃ hand, Owned cb hand
  sizes : SizesIn (· = n) cb
  tagged : ∀ y v, peerView e cb y = some v → ∀ a ∈ htblValues v.unseqMsgs, a.id = y

theorem mem_handed_arrive {α : Type*} {num : α → UInt32} {s : Reassembly α} {a : α}
    {b : Handed α} (hb : b ∈ (arrive num s a).2) :
    b.msg = a ∨ b.msg ∈ htblValues s.unseqMsgs := by
  unfold arrive at hb
  split at hb
  · split at hb <;> cases hb
  · rcases List.mem_cons.mp hb with rfl | hb
    · exact .inl rfl
    · obtain ⟨c, hc, rfl⟩ := List.mem_map.mp hb
      right
      rw [(htblValues_release (htblCount s.unseqMsgs)
        ⟨s.sequence + 1, s.unseqMsgs⟩).mem_iff, List.mem_append]
      exact .inl hc

/-- What a peer's machine hands over is the peer's. -/
theorem handed_tagged {x : UInt32} {v : Option (Peer MsgView)} {ev : PeerEvent MsgView}
    (htag : ∀ w, v = some w → ∀ a ∈ htblValues w.unseqMsgs, a.id = x)
    (hev : ∀ a, ev = .data a → a.id = x)
    {a : Handed MsgView} (ha : a ∈ Peer.handed MsgView.sequence v ev) : a.msg.id = x := by
  cases v with
  | none => cases ha
  | some w =>
    cases ev with
    | data b =>
      rcases mem_handed_arrive ha with h | h
      · rw [h]
        exact hev b rfl
      · exact htag w rfl _ h
    | hbeat session sequence => cases ha
    | leave => cases ha
    | other => cases ha

theorem record_payload (e : Endian) (sender : SockaddrIn) (a : Handed MsgView) :
    (record e sender a).payload = a.msg.payload ∧ (record e sender a).id = a.msg.id := by
  cases a <;> exact ⟨rfl, rfl⟩

section Mcast

variable {h : Host} {sender : SockaddrIn} {r : RecvResult} {flag : Bool} {hand : List Nat}

/-- A datagram keeps every cached message under the id of its sender. -/
theorem tagged_mcastBranch (hown : Owned cb hand)
    (htag : ∀ y v, peerView h.endian cb y = some v → ∀ a ∈ htblValues v.unseqMsgs, a.id = y)
    (hb : mcastBranch h sender r cb = some (cb', flag)) :
    ∀ y v, peerView h.endian cb' y = some v → ∀ a ∈ htblValues v.unseqMsgs, a.id = y := by
  intro y v hv a ha
  rw [peerView_mcastBranch hown hb y] at hv
  cases hacc : accepted h r cb with
  | none =>
    rw [hacc] at hv
    exact htag y v hv a ha
  | some m =>
    simp only [hacc] at hv
    split at hv
    · rename_i hy
      rcases Peer.mem_next hv ha with ⟨u, hu, hau⟩ | hdata
      · exact htag y u hu a hau
      · rw [(eventOf_eq_data hdata).2, hy]
        rfl
    · exact htag y v hv a ha

/-- What a datagram delivers from a peer. -/
theorem delivered_mcastBranch (hown : Owned cb hand)
    (htag : ∀ y v, peerView h.endian cb y = some v → ∀ a ∈ htblValues v.unseqMsgs, a.id = y)
    (hb : mcastBranch h sender r cb = some (cb', flag)) (x : UInt32) :
    delivered x cb' = delivered x cb ++ match accepted h r cb with
      | none => []
      | some m =>
          if x = m.hdrId h.endian then
            (Peer.handed MsgView.sequence (peerView h.endian cb x)
              (eventOf h.endian m (msgView h.endian m))).map fun a => a.msg.payload
          else [] := by
  have hout := ipcOut_view_mcastBranch hown hb
  cases hacc : accepted h r cb with
  | none =>
    simp only [hacc, List.append_nil] at hout
    simp only [delivered, hout, List.append_nil]
  | some m =>
    simp only [hacc] at hout
    have hid : ∀ a ∈ Peer.handed MsgView.sequence (peerView h.endian cb (m.hdrId h.endian))
        (eventOf h.endian m (msgView h.endian m)), a.msg.id = m.hdrId h.endian := by
      intro a ha
      refine handed_tagged (fun w hw => htag _ w hw) (fun b hb => ?_) ha
      rw [(eventOf_eq_data hb).2]
      rfl
    by_cases hx : x = m.hdrId h.endian
    · subst hx
      -- all the new records are the peer's
      have hall : ∀ r ∈ (Peer.handed MsgView.sequence (peerView h.endian cb (m.hdrId h.endian))
          (eventOf h.endian m (msgView h.endian m))).map (record h.endian sender),
            decide (r.id = m.hdrId h.endian) = true := by
        intro r hr
        obtain ⟨a, ha, rfl⟩ := List.mem_map.mp hr
        rw [(record_payload h.endian sender a).2, decide_eq_true_iff]
        exact hid a ha
      simp only [delivered, hout, List.filter_append, List.map_append,
        List.filter_eq_self.mpr hall, List.map_map, if_true]
      exact congrArg _ (List.map_congr_left fun a _ => (record_payload h.endian sender a).1)
    · -- none of them is
      have hnone : ∀ r ∈ (Peer.handed MsgView.sequence (peerView h.endian cb (m.hdrId h.endian))
          (eventOf h.endian m (msgView h.endian m))).map (record h.endian sender),
            ¬ decide (r.id = x) = true := by
        intro r hr
        obtain ⟨a, ha, rfl⟩ := List.mem_map.mp hr
        rw [(record_payload h.endian sender a).2, decide_eq_true_iff, hid a ha]
        exact fun heq => hx heq.symm
      simp only [delivered, hout, List.filter_append, List.filter_eq_nil_iff.mpr hnone,
        List.append_nil, if_neg hx]

end Mcast

/-- **One step.** Handling a datagram is `Peer.follow` for every peer. -/
theorem followed_receive {h : Host} {sender : SockaddrIn} (hs : Serving h.endian n cb)
    (hn : sizeofHdr + sizeofHbeat ≤ n) (hlong : d.LongEnough)
    (hr : receive h cb (sender, d) = some cb') :
    Serving h.endian n cb' ∧ ∀ x, (peerView h.endian cb' x, delivered x cb')
      = Peer.follow n x (peerView h.endian cb x, delivered x cb) d := by
  obtain ⟨⟨hand, hown⟩, hsizes, htag⟩ := hs
  obtain ⟨⟨cb₁, flag⟩, hb, rfl⟩ := Option.map_eq_some_iff.mp hr
  have hsize : ((allocMsg cb).1.msgs (allocMsg cb).2).size = n :=
    hsizes.allocMsg.size _ hown.allocMsg_lt
  obtain ⟨leak, hown', -⟩ := owned_mcastBranch h sender _ hown hb
  refine ⟨⟨⟨_, hown'⟩, hsizes.mcastBranch hb, tagged_mcastBranch hown htag hb⟩, fun x => ?_⟩
  have hview := peerView_mcastBranch hown hb x
  have hdel := delivered_mcastBranch hown htag hb x
  rw [accepted_datagram h hsize (by omega)] at hview hdel
  by_cases hacc : d.Accepted n
  · have hheld := holds_received_cut h hsize (by omega) d
    have hid : ((received h (.ok d.bytes) cb).msgs (allocMsg cb).2).hdrId h.endian = d.id := hheld.id
    simp only [if_pos hacc, hheld.event hacc hn hlong, hid] at hview hdel
    by_cases hx : x = d.id
    · rw [if_pos hx] at hview hdel
      rw [hview, hdel, Peer.follow, if_pos ⟨hacc, hx.symm⟩]
    · rw [if_neg hx] at hview hdel
      rw [hview, hdel, List.append_nil, Peer.follow, if_neg fun hy => hx hy.2.symm]
  · simp only [if_neg hacc, List.append_nil] at hview hdel
    simp only [hview, hdel, Peer.follow, if_neg fun hy : d.Accepted n ∧ _ => hacc hy.1]

/-- **All along a run**, every peer's view and deliveries are the fold of
its datagrams. -/
theorem followed_run {h : Host} (hn : sizeofHdr + sizeofHbeat ≤ n) :
    ∀ {xs : List (SockaddrIn × Datagram)} {cb cb' : RmcCtrlBlock}, Serving h.endian n cb →
      (∀ x ∈ xs, x.2.LongEnough) → run (receive h) cb xs = some cb' → ∀ x,
      (peerView h.endian cb' x, delivered x cb')
        = (xs.map Prod.snd).foldl (Peer.follow n x) (peerView h.endian cb x, delivered x cb)
  | [], cb, cb', _, _, hr, x => by
      obtain rfl := Option.some.inj hr
      rfl
  | (sender, d) :: xs, cb, cb', hs, hlong, hr, x => by
      obtain ⟨cb₁, h₁, hrest⟩ := run_cons_some hr
      obtain ⟨hs₁, hfollow⟩ := followed_receive hs hn (hlong _ (List.mem_cons_self ..)) h₁
      rw [followed_run hn hs₁ (fun y hy => hlong y (List.mem_cons_of_mem _ hy)) hrest x,
        hfollow x]
      rfl

/-! ## When the daemon survives -/

/-- A registered member that leaves can be looked for in the queue without
following a NULL link. -/
def LeaveReaches (h : Host) (cb : RmcCtrlBlock) (x : SockaddrIn × Datagram) : Prop :=
  ∀ id mp, arrived h (.ok x.2.bytes) cb = some (some .leave, id) →
    htblGet cb.members id = some mp → MqueueReaches cb.membersq mp

theorem leaveMsg_isSome_iff (h : Host) (p : Nat) (cb : RmcCtrlBlock) :
    (leaveMsg h p cb).isSome ↔ ∀ mp, htblGet cb.members ((cb.msgs p).hdrId h.endian) = some mp →
      MqueueReaches cb.membersq mp := by
  unfold leaveMsg
  cases hk : htblGet cb.members ((cb.msgs p).hdrId h.endian) with
  | none =>
    rw [htblRemove_eq_none.mpr hk]
    simp
  | some mp =>
    have hqueue := (sameRegistry_drainUnseq mp (htblEnumIntKeys (cb.mems mp).unseqMsgs
      (htblCount (cb.mems mp).unseqMsgs))
      { cb with members := cb.members.erase ((cb.msgs p).hdrId h.endian) }).membersq
    rw [htblRemove_eq_some.mpr ⟨hk, rfl⟩]
    simp only [hqueue, Option.some.injEq, forall_eq']
    rw [← mqueueRemoveItem_isSome_iff]
    cases mqueueRemoveItem cb.membersq mp <;> simp

theorem dispatch_isSome_iff (h : Host) (sender : SockaddrIn) (p : Nat) (cb : RmcCtrlBlock) :
    (dispatch h sender p cb).isSome ↔ (MsgType.ofByte (cb.msgs p).hdrType = some .leave →
      ∀ mp, htblGet cb.members ((cb.msgs p).hdrId h.endian) = some mp →
        MqueueReaches cb.membersq mp) := by
  unfold dispatch
  split
  · rename_i ht; simp [ht]
  · rename_i ht; simp [ht]
  · rename_i ht; simp [ht]
  · rename_i ht
    rw [leaveMsg_isSome_iff]
    simp [ht]
  · rename_i hleave
    exact ⟨fun _ ht => absurd ht hleave, fun _ => rfl⟩

/-- The daemon survives a datagram exactly under `LeaveReaches`. -/
theorem receive_isSome_iff (h : Host) (cb : RmcCtrlBlock) (x : SockaddrIn × Datagram) :
    (receive h cb x).isSome ↔ LeaveReaches h cb x := by
  have hsame := sameRegistry_received h (.ok x.2.bytes) cb
  have hbuf : (recvMsg (.ok x.2.bytes) cb).2.1 = (allocMsg cb).2 := rfl
  unfold LeaveReaches receive
  rw [Option.isSome_map]
  by_cases hshort : (recvMsg (.ok x.2.bytes) cb).2.2 < sizeofHdr
  · have harr : arrived h (.ok x.2.bytes) cb = none := if_pos (.inl hshort)
    simp [mcastBranch, hshort, harr]
  · by_cases hcut : (recvMsg (.ok x.2.bytes) cb).2.2
        < (((received h (.ok x.2.bytes) cb).msgs (allocMsg cb).2).hdrLength h.endian).toNat
          + sizeofHdr
    · have harr : arrived h (.ok x.2.bytes) cb = none := if_pos (.inr hcut)
      have hcode : mcastBranch h x.1 (.ok x.2.bytes) cb
          = some (received h (.ok x.2.bytes) cb, true) := by
        unfold mcastBranch
        dsimp only
        rw [if_neg hshort]
        exact if_pos hcut
      rw [hcode, harr]
      exact ⟨fun _ id mp h => (by cases h), fun _ => rfl⟩
    · have harr : arrived h (.ok x.2.bytes) cb = some (MsgType.ofByte
          ((received h (.ok x.2.bytes) cb).msgs (allocMsg cb).2).hdrType,
          ((received h (.ok x.2.bytes) cb).msgs (allocMsg cb).2).hdrId h.endian) :=
        if_neg (not_or.mpr ⟨hshort, hcut⟩)
      have hcode : mcastBranch h x.1 (.ok x.2.bytes) cb
          = (dispatch h x.1 (allocMsg cb).2 (received h (.ok x.2.bytes) cb)).map
              fun cb => (cb, false) := by
        unfold mcastBranch
        dsimp only
        rw [if_neg hshort]
        exact if_neg hcut
      rw [hcode, Option.isSome_map, dispatch_isSome_iff, harr, hsame.members, hsame.membersq]
      simp only [Option.some.injEq, Prod.mk.injEq]
      constructor
      · rintro hd id mp ⟨ht, rfl⟩ hk
        exact hd ht mp hk
      · intro hd ht mp hk
        exact hd _ mp ⟨ht, rfl⟩ hk

/-- With the datagrams of one peer alone, that peer is always in front. -/
def InFront (x : UInt32) (cb : RmcCtrlBlock) : Prop :=
  ∀ mp, htblGet cb.members x = some mp → mqueueContent cb.membersq 0 = some mp

theorem arrived_id {h : Host} (hsize : ((allocMsg cb).1.msgs (allocMsg cb).2).size = n)
    (hn : sizeofHdr ≤ n) {t : Option MsgType} {id : UInt32}
    (harr : arrived h (.ok d.bytes) cb = some (t, id)) : id = d.id := by
  rw [arrived_eq, accepted_datagram h hsize hn] at harr
  split at harr
  · obtain ⟨-, rfl⟩ := Prod.mk.inj (Option.some.inj harr)
    exact (holds_received_cut h hsize hn d).id
  · cases harr

theorem inFront_receive {h : Host} {sender : SockaddrIn} {x : UInt32} (hf : InFront x cb)
    (hsize : ((allocMsg cb).1.msgs (allocMsg cb).2).size = n) (hn : sizeofHdr ≤ n)
    (hx : d.id = x) (hr : receive h cb (sender, d) = some cb') : InFront x cb' := by
  obtain ⟨⟨cb₁, flag⟩, hb, rfl⟩ := Option.map_eq_some_iff.mp hr
  have hkeep : SameRegistry cb cb₁ → InFront x cb₁ := by
    intro hs mp hk
    rw [hs.members] at hk
    rw [hs.membersq]
    exact hf mp hk
  rcases registryStep_mcastBranch hb with ⟨-, hs⟩ | ⟨t, id, harr, hstep⟩
  · exact hkeep hs
  · obtain rfl : id = x := (arrived_id hsize hn harr).trans hx
    cases hstep with
    | same hs _ _ => exact hkeep hs
    | join _ hnew hmembers hqueue _ _ =>
      intro mp hk
      rw [hmembers, htblPut_of_none _ hnew, htblGet_insert, if_pos rfl] at hk
      rw [hqueue, mqueueContent_mqueueAdd]
      exact hk
    | leave mp' _ _ _ hmembers _ _ _ =>
      intro mp hk
      rw [hmembers, htblGet_erase, if_pos rfl] at hk
      cases hk

/-! ## Isolation -/

/-- Two nodes see a peer alike and delivered the same from it. -/
def SameView (e : Endian) (x : UInt32) (cb cb' : RmcCtrlBlock) : Prop :=
  peerView e cb x = peerView e cb' x ∧ delivered x cb = delivered x cb'

theorem serving_rmcastInit (e : Endian) (g : Garbage) (a : InitArgs) :
    Serving e ((max 128 a.maxMsgSize).toNat + sizeofHdr) (rmcastInit g a)
      ∧ (rmcastInit g a).members = ∅ := by
  have hmembers : (rmcastInit g a).members = ∅ := by
    unfold rmcastInit
    dsimp only
    obtain ⟨b, n, f, hpool⟩ := fillPool_eq (max 20 a.nbufs).toNat _
    rw [hpool]
  refine ⟨⟨⟨[], owned_rmcastInit g a⟩, sizesIn_rmcastInit g a, ?_⟩, hmembers⟩
  intro y v hv
  rw [peerView, peerAt, hmembers] at hv
  cases hv

/-- A heartbeat of node `id` that announces number 1. -/
def hbeatBy (id : UInt32) : SockaddrIn × Datagram := (anyAddr, { hbeatOne with id := id })

/-- A LEAVE of node `id`. -/
def leaveBy (id : UInt32) : SockaddrIn × Datagram :=
  (anyAddr, { version := 0, type := 65, length := 0, sequence := 0, id := id, body := [] })

end Rms.V01
