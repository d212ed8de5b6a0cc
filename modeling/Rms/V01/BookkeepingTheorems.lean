/-
Rms.V01.BookkeepingTheorems — the books kept about a member.

From the heartbeat that registers a member until it leaves or starts a
new session, three things hold of its record (`Booked`): its place in the
sequence has moved on by the number of messages delivered from it, the
cache holds only numbers beyond that place, and every message lies under
its own number (`receiver_bookkeeping`).

The release loop looks for the number just delivered, not for the next
one, so on the way into the loop the cache may hold the place itself. The
loop invariant is that it holds nothing below. The comparison is between
unsigned words, and it survives the wrap because a cache beyond the
largest word is empty.
-/
import Rms.V01.IsolationTheorems
import Rms.V01.RejoinTheorems

namespace Rms.V01

open Rms.ByteMem Rms.Util Rms.Runs

/-! ## The release loop -/

section Machine

variable {α β : Type*} {num : α → UInt32} {start : UInt32} {n : Nat}

theorem htblCount_pos {t : Htbl α} {k : UInt32} {a : α} (hk : htblGet t k = some a) :
    0 < htblCount t := by
  have herase := htblCount_erase hk
  omega

/-- The loop takes as many rounds as there are messages in the cache at
most: after that its test fails. -/
theorem release_ends (n : Nat) :
    ∀ s : Reassembly α, htblCount s.unseqMsgs ≤ n →
      htblGet (release n s).1.unseqMsgs (release n s).1.sequence = none := by
  induction n with
  | zero =>
    intro s hcount
    by_contra hsome
    obtain ⟨a, ha⟩ := Option.ne_none_iff_exists'.mp hsome
    have hpos := htblCount_pos ha
    simp only [release] at hpos
    omega
  | succ n ih =>
    intro s hcount
    cases hk : htblGet s.unseqMsgs s.sequence with
    | none =>
      rw [release_none (n + 1) hk]
      exact hk
    | some a =>
      have herase := htblCount_erase hk
      simp only [release, htblRemove_eq_some.mpr ⟨hk, rfl⟩]
      exact ih ⟨s.sequence + 1, s.unseqMsgs.erase s.sequence⟩ (by dsimp only; omega)

/-- Every message the loop hands over moves the place by one. -/
theorem release_sequence (n : Nat) :
    ∀ s : Reassembly α,
      (release n s).1.sequence = s.sequence + UInt32.ofNat (release n s).2.length := by
  induction n with
  | zero => intro s; simp [release]
  | succ n ih =>
    intro s
    cases hk : htblGet s.unseqMsgs s.sequence with
    | none => simp [release_none (n + 1) hk]
    | some a =>
      simp only [release, htblRemove_eq_some.mpr ⟨hk, rfl⟩, List.length_cons]
      rw [ih, Nat.add_comm _ 1, ← Serial.ofNat_add_ofNat, ← UInt32.add_assoc]
      rfl

/-- The loop leaves messages where they are. -/
theorem htblGet_release (n : Nat) :
    ∀ (s : Reassembly α) {k : UInt32} {a : α},
      htblGet (release n s).1.unseqMsgs k = some a → htblGet s.unseqMsgs k = some a := by
  induction n with
  | zero => intro s k a hk; exact hk
  | succ n ih =>
    intro s k a hk
    cases hs : htblGet s.unseqMsgs s.sequence with
    | none =>
      rw [release_none (n + 1) hs] at hk
      exact hk
    | some b =>
      simp only [release, htblRemove_eq_some.mpr ⟨hs, rfl⟩] at hk
      exact htblGet_of_erase (ih _ hk)

/-- The loop invariant: nothing is cached below the place. In the end
nothing is cached at it either. -/
theorem release_ahead (n : Nat) :
    ∀ s : Reassembly α, htblCount s.unseqMsgs ≤ n →
      (∀ k a, htblGet s.unseqMsgs k = some a → s.sequence ≤ k) →
      ∀ k a, htblGet (release n s).1.unseqMsgs k = some a → (release n s).1.sequence < k := by
  induction n with
  | zero =>
    intro s hcount _ k a hk
    have hpos := htblCount_pos hk
    simp only [release] at hpos
    omega
  | succ n ih =>
    intro s hcount hbelow k a hk
    cases hs : htblGet s.unseqMsgs s.sequence with
    | none =>
      rw [release_none (n + 1) hs] at hk ⊢
      refine UInt32.lt_of_le_of_ne (hbelow k a hk) fun heq => ?_
      rw [heq, hk] at hs
      cases hs
    | some b =>
      have herase := htblCount_erase hs
      simp only [release, htblRemove_eq_some.mpr ⟨hs, rfl⟩] at hk ⊢
      refine ih ⟨s.sequence + 1, s.unseqMsgs.erase s.sequence⟩ (by dsimp only; omega) ?_ k a hk
      intro j c hj
      dsimp only at hj ⊢
      rw [htblGet_erase] at hj
      split at hj
      · cases hj
      · rename_i hne
        -- a key beyond the place is at least the next one, which does not wrap
        have hle := UInt32.le_iff_toNat_le.mp (hbelow j c hj)
        have hne' : j.toNat ≠ s.sequence.toNat := fun heq => hne (UInt32.toNat_inj.mp heq)
        have hlt := j.toNat_lt
        have hone : (1 : UInt32).toNat = 1 := rfl
        rw [UInt32.le_iff_toNat_le, UInt32.toNat_add, hone]
        omega

/-! ## One message -/

/-- The place is as far from `start` as messages were handed over, and the
cache lies beyond it, every message under its own number. -/
structure Booked (num : α → UInt32) (start : UInt32) (n : Nat) (s : Reassembly α) : Prop where
  place : s.sequence = start + UInt32.ofNat n
  ahead : ∀ k a, htblGet s.unseqMsgs k = some a → s.sequence < k
  numbered : ∀ k a, htblGet s.unseqMsgs k = some a → num a = k

theorem Booked.arrive {s : Reassembly α} (hb : Booked num start n s) (a : α) :
    Booked num start (n + (arrive num s a).2.length) (arrive num s a).1 := by
  unfold V01.arrive
  split
  · split
    · rename_i hlt
      refine ⟨hb.place, fun k b hk => ?_, fun k b hk => ?_⟩
      · rcases htblGet_put_cases hk with hold | ⟨rfl, -⟩
        · exact hb.ahead k b hold
        · exact hlt
      · rcases htblGet_put_cases hk with hold | ⟨rfl, rfl⟩
        · exact hb.numbered k b hold
        · rfl
    · exact hb
  · have hbelow : ∀ k b, htblGet s.unseqMsgs k = some b → s.sequence + 1 ≤ k := by
      intro k b hk
      have hlt := UInt32.lt_iff_toNat_lt.mp (hb.ahead k b hk)
      have hmax := k.toNat_lt
      have hone : (1 : UInt32).toNat = 1 := rfl
      rw [UInt32.le_iff_toNat_le, UInt32.toNat_add, hone]
      omega
    refine ⟨?_, ?_, ?_⟩
    · simp only [release_sequence, hb.place, List.length_cons, List.length_map]
      rw [UInt32.add_assoc, UInt32.add_assoc, Nat.add_comm _ 1, ← Serial.ofNat_add_ofNat,
        ← Serial.ofNat_add_ofNat]
      rfl
    · exact release_ahead (htblCount s.unseqMsgs) _ (Nat.le_refl _) hbelow
    · intro k b hk
      exact hb.numbered k b (htblGet_release _ ⟨s.sequence + 1, s.unseqMsgs⟩ hk)

/-- A message of a peer that neither leaves nor changes the session. -/
def PeerEvent.Steady (session : UInt32) : PeerEvent α → Prop
  | .hbeat s _ => s = session
  | .leave => False
  | _ => True

instance (session : UInt32) : ∀ ev : PeerEvent α, Decidable (ev.Steady session)
  | .hbeat s _ => inferInstanceAs (Decidable (s = session))
  | .leave => isFalse id
  | .data _ => isTrue trivial
  | .other => isTrue trivial

theorem PeerEvent.steady_map {session : UInt32} (f : α → β) (ev : PeerEvent α) :
    (ev.map f).Steady session ↔ ev.Steady session := by
  cases ev <;> rfl

theorem Booked.next {v : Peer α} (hb : Booked num start n v.toReassembly) {ev : PeerEvent α}
    (hev : ev.Steady v.session) :
    ∃ w, Peer.next num (some v) ev = some w
      ∧ Booked num start (n + (Peer.handed num (some v) ev).length) w.toReassembly := by
  cases ev with
  | data a => exact ⟨_, rfl, hb.arrive a⟩
  | hbeat session sequence =>
    have hsame : session = v.session := hev
    exact ⟨v, by simp [Peer.next, hsame], hb⟩
  | leave => exact absurd hev id
  | other => exact ⟨v, rfl, hb⟩

end Machine

/-! ## The daemon -/

section Daemon

variable {h : Host} {cb cb' : RmcCtrlBlock} {hand : List Nat} {x : UInt32}

/-- The release loop of the code has ended when its rounds are used up. -/
theorem releaseCached_ends (h : Host) (mp : Nat) (cb : RmcCtrlBlock) :
    let mem := (releaseCached h mp (htblCount (cb.mems mp).unseqMsgs) cb).mems mp
    htblGet mem.unseqMsgs mem.sequence = none := by
  intro mem
  have hpeer := (releaseCached_peer h mp (htblCount (cb.mems mp).unseqMsgs) cb).1
  have hends := release_ends (htblCount (cb.mems mp).unseqMsgs) (cb.mems mp).peer.toReassembly
    (Nat.le_refl _)
  have hmem : mem.peer.toReassembly = (release (htblCount (cb.mems mp).unseqMsgs)
      (cb.mems mp).peer.toReassembly).1 := congrArg Peer.toReassembly hpeer
  rw [← hmem] at hends
  exact hends

/-- The branches below the switch leave the peers and the client alone. -/
theorem quiet_branch {b : Branch} (hown : Owned cb hand) (hb : branch h cb b = some cb')
    (hlow : ∀ sender r, b ≠ .mcast sender r) :
    (∀ y, peerView h.endian cb' y = peerView h.endian cb y) ∧ cb'.ipcOut = cb.ipcOut := by
  have hkept : (∀ q, InUse cb q → cb'.msgs q = cb.msgs q) ∧ cb'.ipcOut = cb.ipcOut := by
    cases b with
    | mcast sender r => exact absurd rfl (hlow sender r)
    | ipc i =>
      obtain rfl := Option.some.inj hb
      refine ⟨fun q hq => ?_, (ipcBranch_receiver h i cb).2.2.2⟩
      rcases ipcBranch_cases h i cb with ⟨-, hmsgs⟩ | ⟨-, -, hsend⟩
      · exact hmsgs q hq
      · obtain ⟨hne, hmsgs⟩ := ipcRecv_msgs h i hq
        rw [hsend, ipcSend_msgs h hne, hmsgs]
    | hbeat =>
      refine ⟨fun q hq => ?_, hbeatBranch_ipcOut h hb⟩
      obtain ⟨n, q', cs, buf, nmsgs, f, sent, -, hmsgs, rfl⟩ := hbeatBranch_spec hb
      obtain ⟨o, b, s, hframe⟩ := purge_frame cb.hbSeqP2
        { cb with membersq := q', bufmsgq := buf, nmsgs := nmsgs, msgs := f, sent := sent
                  hbSeqP1 := cb.self.sequence, hbSeqP2 := cb.hbSeqP1, hbSeqP3 := cb.hbSeqP2 }
      rw [hframe]
      exact hmsgs q hq
    | ack =>
      obtain ⟨q', sync, o, b, s, rfl⟩ := ackBranch_eq hb
      exact ⟨fun q _ => rfl, rfl⟩
  refine ⟨fun y => ?_, hkept.2⟩
  have hpeer : peerAt cb' y = peerAt cb y :=
    peerAt_branch hown hb fun sender r _ heq => absurd heq (hlow sender r)
  rw [peerView, hpeer]
  exact peerView_of_kept h.endian hown hkept.1 y

/-- What every branch keeps: the ledger of buffers, and every cached
message under the id of its sender. -/
structure Tagged (e : Endian) (cb : RmcCtrlBlock) : Prop where
  owned : ∃ hand, Owned cb hand
  tagged : ∀ y v, peerView e cb y = some v → ∀ a ∈ htblValues v.unseqMsgs, a.id = y

theorem tagged_branch {b : Branch} (ht : Tagged h.endian cb) (hb : branch h cb b = some cb') :
    Tagged h.endian cb' := by
  obtain ⟨⟨hand, hown⟩, htag⟩ := ht
  refine ⟨owned_branch hown hb, ?_⟩
  have hlow : (∀ sender r, b ≠ .mcast sender r) →
      ∀ y v, peerView h.endian cb' y = some v → ∀ a ∈ htblValues v.unseqMsgs, a.id = y := by
    intro hlow y v hv
    rw [(quiet_branch hown hb hlow).1 y] at hv
    exact htag y v hv
  cases b with
  | mcast sender r =>
    obtain ⟨⟨cb₁, flag⟩, hm, rfl⟩ := Option.map_eq_some_iff.mp hb
    exact tagged_mcastBranch hown htag hm
  | ipc i => exact hlow fun sender r heq => by cases heq
  | hbeat => exact hlow fun sender r heq => by cases heq
  | ack => exact hlow fun sender r heq => by cases heq

theorem tagged_rmcastInit (e : Endian) (g : Garbage) (a : InitArgs) :
    Tagged e (rmcastInit g a) :=
  ⟨⟨[], owned_rmcastInit g a⟩, (serving_rmcastInit e g a).1.tagged⟩

/-- No message of peer `x` ends its session: it does not leave, and its
heartbeats are of the session that is running. -/
def Steady (h : Host) (x : UInt32) (cb : RmcCtrlBlock) : Branch → Prop
  | .mcast _ r => ∀ m mp, accepted h r cb = some m → m.hdrId h.endian = x →
      htblGet cb.members x = some mp → (eventOf h.endian m ()).Steady (cb.mems mp).session
  | _ => True

instance (h : Host) (x : UInt32) (cb : RmcCtrlBlock) : ∀ b, Decidable (Steady h x cb b)
  | .mcast _ r => decidable_of_iff (∀ m ∈ accepted h r cb, m.hdrId h.endian = x →
      ∀ mp ∈ htblGet cb.members x, (eventOf h.endian m ()).Steady (cb.mems mp).session)
      ⟨fun hall m mp hm hid hmp => hall m hm hid mp hmp,
        fun hall m hm hid mp hmp => hall m mp hm hid hmp⟩
  | .ipc _ => isTrue trivial
  | .hbeat => isTrue trivial
  | .ack => isTrue trivial

/-- The books of peer `x`: `n` messages more than `base` were delivered from
it since it was registered at `start`. -/
structure Books (h : Host) (x start : UInt32) (base : Nat) (cb : RmcCtrlBlock) : Prop where
  tagged : Tagged h.endian cb
  booked : ∃ v n, peerView h.endian cb x = some v ∧ (delivered x cb).length = base + n
    ∧ Booked MsgView.sequence start n v.toReassembly

/-- **One step.** -/
theorem Books.branch {start : UInt32} {base : Nat} {b : Branch}
    (hbooks : Books h x start base cb) (hsteady : Steady h x cb b)
    (hb : branch h cb b = some cb') : Books h x start base cb' := by
  refine ⟨tagged_branch hbooks.tagged hb, ?_⟩
  obtain ⟨⟨⟨hand, hown⟩, htag⟩, v, n, hv, hcount, hbooked⟩ := hbooks
  have hlow : (∀ sender r, b ≠ .mcast sender r) →
      ∃ v n, peerView h.endian cb' x = some v ∧ (delivered x cb').length = base + n
        ∧ Booked MsgView.sequence start n v.toReassembly := by
    intro hlow
    obtain ⟨hview, hout⟩ := quiet_branch hown hb hlow
    refine ⟨v, n, (hview x).trans hv, ?_, hbooked⟩
    rw [← hcount, delivered, delivered, hout]
  cases b with
  | ipc i => exact hlow fun sender r heq => by cases heq
  | hbeat => exact hlow fun sender r heq => by cases heq
  | ack => exact hlow fun sender r heq => by cases heq
  | mcast sender r =>
    obtain ⟨⟨cb₁, flag⟩, hm, rfl⟩ := Option.map_eq_some_iff.mp hb
    have hview := peerView_mcastBranch hown hm x
    have hdel := delivered_mcastBranch hown htag hm x
    have hsame : peerView h.endian cb₁ x = peerView h.endian cb x →
        delivered x cb₁ = delivered x cb ++ [] →
        ∃ v n, peerView h.endian cb₁ x = some v ∧ (delivered x cb₁).length = base + n
          ∧ Booked MsgView.sequence start n v.toReassembly := by
      intro hview hdel
      rw [List.append_nil] at hdel
      exact ⟨v, n, hview.trans hv, hdel ▸ hcount, hbooked⟩
    cases hacc : accepted h r cb with
    | none =>
      rw [hacc] at hview hdel
      exact hsame hview hdel
    | some m =>
      simp only [hacc] at hview hdel
      by_cases hx : x = m.hdrId h.endian
      · rw [if_pos hx, hv] at hview hdel
        have hev : (eventOf h.endian m (msgView h.endian m)).Steady v.session := by
          obtain ⟨w, hw, rfl⟩ := Option.map_eq_some_iff.mp hv
          obtain ⟨mp, hk, rfl⟩ := Option.map_eq_some_iff.mp hw
          rw [← eventOf_map h.endian m (fun _ : Unit => msgView h.endian m) (),
            PeerEvent.steady_map]
          exact hsteady m mp hacc hx.symm hk
        obtain ⟨w, hw, hbooked'⟩ := hbooked.next hev
        refine ⟨w, _, hview.trans hw, ?_, hbooked'⟩
        rw [hdel, List.length_append, List.length_map, hcount, Nat.add_assoc]
      · rw [if_neg hx] at hview hdel
        exact hsame hview hdel

/-- The heartbeat that registers a peer opens its books. -/
theorem books_register {sender : SockaddrIn} {r : RecvResult} {m : RmcMsg}
    (ht : Tagged h.endian cb) (hacc : accepted h r cb = some m)
    (htype : MsgType.ofByte m.hdrType = some .hbeat)
    (hnew : htblGet cb.members (m.hdrId h.endian) = none)
    (hb : branch h cb (.mcast sender r) = some cb') :
    Books h (m.hdrId h.endian) (m.hdrSequence h.endian - 1)
      (delivered (m.hdrId h.endian) cb').length cb' := by
  refine ⟨tagged_branch ht hb, ?_⟩
  obtain ⟨⟨hand, hown⟩, htag⟩ := ht
  obtain ⟨⟨cb₁, flag⟩, hm, rfl⟩ := Option.map_eq_some_iff.mp hb
  have hview := peerView_mcastBranch hown hm (m.hdrId h.endian)
  have hnone : peerView h.endian cb (m.hdrId h.endian) = none := by
    simp only [peerView, peerAt, hnew, Option.map_none]
  simp only [hacc, if_true, hnone, eventOf, htype, Peer.next] at hview
  exact ⟨_, 0, hview, rfl, by simp, by simp, by simp⟩

/-- A DATA message or a heartbeat is always handled. -/
theorem branch_regular {sender : SockaddrIn} {r : RecvResult} {m : RmcMsg}
    (hacc : accepted h r cb = some m)
    (htype : MsgType.ofByte m.hdrType = some .data ∨ MsgType.ofByte m.hdrType = some .hbeat) :
    ∃ cb', branch h cb (.mcast sender r) = some cb' := by
  cases hm : mcastBranch h sender r cb with
  | some res => exact ⟨res.1, congrArg (Option.map Prod.fst) hm⟩
  | none =>
    -- only the switch can fail, and not for these types
    unfold accepted at hacc
    dsimp only at hacc
    split at hacc
    · cases hacc
    rename_i hlong
    obtain ⟨hhdr, hwhole⟩ := not_or.mp hlong
    obtain rfl := Option.some.inj hacc
    have hcode : mcastBranch h sender r cb
        = (dispatch h sender (allocMsg cb).2 (received h r cb)).map fun cb => (cb, false) := by
      unfold mcastBranch
      exact (if_neg hhdr).trans (if_neg hwhole)
    rw [hcode, Option.map_eq_none_iff] at hm
    unfold dispatch at hm
    rcases htype with ht | ht
    · rw [ht] at hm
      cases hm
    · rw [ht] at hm
      cases hm

/-- **Receiver bookkeeping.** A member is registered by a heartbeat; then
come any branches in which it does not leave or start a new session. The
place of the member has moved on from the heartbeat's number by the
number of messages delivered from it since; its cache holds only numbers
beyond that place, each message under its own number. DATA and heartbeats
are always handled, and the release loop has ended when it has used as
many rounds as messages were cached. -/
theorem receiver_bookkeeping (h : Host) (g : Garbage) (a : InitArgs) {bs bs' : List Branch}
    {cb₀ cb₁ cb₂ : RmcCtrlBlock} {sender : SockaddrIn} {r : RecvResult} {m : RmcMsg}
    (hbefore : run (branch h) (rmcastInit g a) bs = some cb₀)
    (hacc : accepted h r cb₀ = some m) (htype : MsgType.ofByte m.hdrType = some .hbeat)
    (hnew : htblGet cb₀.members (m.hdrId h.endian) = none)
    (hreg : branch h cb₀ (.mcast sender r) = some cb₁)
    (hsteady : Guarded (branch h) (Steady h (m.hdrId h.endian)) cb₁ bs')
    (hrun : run (branch h) cb₁ bs' = some cb₂) :
    (∃ mp n, htblGet cb₂.members (m.hdrId h.endian) = some mp
      ∧ (delivered (m.hdrId h.endian) cb₂).length = (delivered (m.hdrId h.endian) cb₁).length + n
      ∧ (cb₂.mems mp).sequence = m.hdrSequence h.endian - 1 + UInt32.ofNat n
      ∧ ∀ k p, htblGet (cb₂.mems mp).unseqMsgs k = some p →
          (cb₂.mems mp).sequence < k ∧ (cb₂.msgs p).hdrSequence h.endian = k)
    ∧ (∀ sender r m', accepted h r cb₂ = some m' →
        MsgType.ofByte m'.hdrType = some .data ∨ MsgType.ofByte m'.hdrType = some .hbeat →
        ∃ cb₃, branch h cb₂ (.mcast sender r) = some cb₃)
    ∧ ∀ cb mp, let mem := (releaseCached h mp (htblCount (cb.mems mp).unseqMsgs) cb).mems mp
        htblGet mem.unseqMsgs mem.sequence = none := by
  have htagged : Tagged h.endian cb₀ := by
    refine run_invariant_free (I := Tagged h.endian) ?_ (tagged_rmcastInit h.endian g a) hbefore
    intro cb b cb' ht hb
    exact tagged_branch ht hb
  have hbooks := run_invariant
    (fun cb b cb' hbooks hok hb => Books.branch hbooks hok hb)
    (books_register htagged hacc htype hnew hreg) hsteady hrun
  refine ⟨?_, fun sender r m' hm' ht => branch_regular hm' ht,
    fun cb mp => releaseCached_ends h mp cb⟩
  obtain ⟨v, n, hv, hcount, hbooked⟩ := hbooks.booked
  obtain ⟨w, hw, rfl⟩ := Option.map_eq_some_iff.mp hv
  obtain ⟨mp, hk, rfl⟩ := Option.map_eq_some_iff.mp hw
  refine ⟨mp, n, hk, hcount, hbooked.place, fun k p hp => ?_⟩
  have hview : htblGet (((cb₂.mems mp).peer.map fun q => msgView h.endian (cb₂.msgs q)).unseqMsgs) k
      = some (msgView h.endian (cb₂.msgs p)) := by
    simp only [Peer.map, Reassembly.map, htblGet_map]
    exact congrArg (Option.map _) hp
  exact ⟨hbooked.ahead k _ hview, hbooked.numbered k _ hview⟩

/-- Node 2 sends its numbers 1, 3 and 2, and number 1 again. -/
def outOfOrder : List Branch := [dataOf 1 33, dataOf 3 44, dataOf 2 55, dataOf 1 33]

/-- Node 2 is registered by heartbeat 1. Two of its messages are delivered
and number 3 is in the cache. -/
theorem receiver_bookkeeping_outOfOrder :
    ∃ cb₁ cb₂ mp n, branch littleHost (rmcastInit zeroGarbage plainArgs)
          (.mcast anyAddr (.ok hbeatOne.bytes)) = some cb₁
      ∧ run (branch littleHost) cb₁ outOfOrder = some cb₂
      ∧ delivered 2 cb₂ = [[33], [55]] ∧ (cb₂.mems 0).unseqMsgs.keys = [3]
      ∧ htblGet cb₂.members 2 = some mp
      ∧ (delivered 2 cb₂).length = (delivered 2 cb₁).length + n
      ∧ (cb₂.mems mp).sequence = 1 - 1 + UInt32.ofNat n := by
  have hfirst : (accepted littleHost (.ok hbeatOne.bytes) (rmcastInit zeroGarbage plainArgs)).map
      (fun m => (MsgType.ofByte m.hdrType, m.hdrId .little, m.hdrSequence .little))
      = some (some .hbeat, 2, 1) := by decide +kernel
  have hthen : ((branch littleHost (rmcastInit zeroGarbage plainArgs)
      (.mcast anyAddr (.ok hbeatOne.bytes))).bind fun cb₁ =>
        (run (branch littleHost) cb₁ outOfOrder).map fun cb₂ =>
          (decide (Guarded (branch littleHost) (Steady littleHost 2) cb₁ outOfOrder),
            delivered 2 cb₂, (cb₂.mems 0).unseqMsgs.keys))
      = some (true, [[33], [55]], [3]) := by decide +kernel
  obtain ⟨m, hacc, hm⟩ := Option.map_eq_some_iff.mp hfirst
  obtain ⟨cb₁, hreg, hrest⟩ := Option.bind_eq_some_iff.mp hthen
  obtain ⟨cb₂, hrun, hcb₂⟩ := Option.map_eq_some_iff.mp hrest
  simp only [Prod.mk.injEq, decide_eq_true_eq] at hm hcb₂
  obtain ⟨htype, hid, hseq⟩ := hm
  obtain ⟨hsteady, hout, hkeys⟩ := hcb₂
  have hnew : htblGet (rmcastInit zeroGarbage plainArgs).members (m.hdrId littleHost.endian)
      = none := by
    change htblGet _ (m.hdrId .little) = none
    rw [hid]
    decide +kernel
  have hbefore : run (branch littleHost) (rmcastInit zeroGarbage plainArgs) []
      = some (rmcastInit zeroGarbage plainArgs) := rfl
  have hsteady' : Guarded (branch littleHost) (Steady littleHost (m.hdrId littleHost.endian)) cb₁
      outOfOrder := by
    change Guarded _ (Steady littleHost (m.hdrId .little)) _ _
    rw [hid]
    exact hsteady
  obtain ⟨⟨mp, n, hmp, hcount, hplace, -⟩, -⟩ := receiver_bookkeeping littleHost zeroGarbage
    plainArgs hbefore hacc htype hnew hreg hsteady' hrun
  simp only [littleHost, hid, hseq] at hmp hcount hplace
  exact ⟨cb₁, cb₂, mp, n, hreg, hrun, hout, hkeys, hmp, hcount, hplace⟩

end Daemon

end Rms.V01
