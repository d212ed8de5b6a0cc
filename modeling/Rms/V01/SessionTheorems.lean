/-
Rms.V01.SessionTheorems — what a new session leaves behind.

A heartbeat with another session moves the member's place in the sequence
and nothing else: what was cached in the old session stays in the cache,
under its number. `Watch` adds two history variables to the control
block: the buffers that were in a member's cache when its session
changed and have been cached ever since (`stale`), and those of them
whose message was handed to the client (`leaked`).

A stale message gets out exactly when the release loop reaches its
number, so the loop must not find one in the unbroken run of cached
numbers that starts at the message it follows (`StaleOutOfReach`). That
is the whole condition (`session_isolated_iff`).
-/
import Rms.V01.PeerTheorems
import Rms.V01.Window

namespace Rms.V01

open Rms.ByteMem Rms.Util Rms.Runs Rms.Serial

variable {cb cb' : RmcCtrlBlock} {hand : List Nat} {h : Host}

/-! ## Watching the caches -/

structure Watch where
  cb : RmcCtrlBlock
  /-- Buffers cached when the session of their member changed, and cached
  ever since. -/
  stale : List Nat
  /-- Stale buffers whose message was handed to the client. -/
  leaked : List Nat

/-- The buffers that a heartbeat with a new session finds in the cache of
its member. -/
def restarted (h : Host) (cb : RmcCtrlBlock) : Branch → List Nat
  | .mcast _ r =>
      match accepted h r cb with
      | none => []
      | some m =>
          match peerAt cb (m.hdrId h.endian), eventOf h.endian m () with
          | some v, .hbeat session _ =>
              if session ≠ v.session then htblValues v.unseqMsgs else []
          | _, _ => []
  | _ => []

/-- The message in buffer `q` is not cached any more, and a record of it is
among those written meanwhile. -/
def handedOver (e : Endian) (cb cb' : RmcCtrlBlock) (q : Nat) : Bool :=
  decide (q ∉ cachedMsgs cb')
    && (cb'.ipcOut.drop cb.ipcOut.length).any fun r =>
      (⟨r.payload, r.sequence, r.id⟩ : MsgView) = msgView e (cb.msgs q)

def Watch.start (g : Garbage) (a : InitArgs) : Watch :=
  { cb := rmcastInit g a, stale := [], leaked := [] }

def Watch.step (h : Host) (w : Watch) (b : Branch) : Option Watch :=
  (branch h w.cb b).map fun cb' =>
    { cb := cb'
      stale := (w.stale ++ restarted h w.cb b).filter fun q => q ∈ cachedMsgs cb'
      leaked := w.leaked ++ w.stale.filter (handedOver h.endian w.cb cb') }

/-- A DATA message in sequence finds no stale message under the numbers
from its own on, up to the first that is not cached. -/
def StaleOutOfReach (h : Host) (w : Watch) : Branch → Prop
  | .mcast _ r => ∀ m v, accepted h r w.cb = some m →
      MsgType.ofByte m.hdrType = some .data → peerAt w.cb (m.hdrId h.endian) = some v →
      v.sequence + 1 = m.hdrSequence h.endian → ∀ k q,
        (∀ j, dist (m.hdrSequence h.endian) j ≤ dist (m.hdrSequence h.endian) k →
          htblGet v.unseqMsgs j ≠ none) →
        htblGet v.unseqMsgs k = some q → q ∉ w.stale
  | _ => True

/-! ## Caches and peers -/

theorem mem_cachedMsgs_iff {q : Nat} :
    q ∈ cachedMsgs cb ↔ ∃ y v, peerAt cb y = some v ∧ q ∈ htblValues v.unseqMsgs := by
  constructor
  · intro hq
    obtain ⟨mp, hmp, hq⟩ := List.mem_flatMap.mp hq
    obtain ⟨y, hy⟩ := mem_htblValues.mp hmp
    exact ⟨y, (cb.mems mp).peer, congrArg (Option.map fun mp => (cb.mems mp).peer) hy, hq⟩
  · rintro ⟨y, v, hv, hq⟩
    obtain ⟨mp, hy, rfl⟩ := Option.map_eq_some_iff.mp hv
    exact mem_cachedMsgs hy hq

theorem Owned.cachedMsgs_nodup (h : Owned cb hand) : (cachedMsgs cb).Nodup := by
  have hnodup := (List.nodup_append.mp (h.ledger.nodup_iff.mpr List.nodup_range)).1
  exact (List.nodup_append.mp (List.nodup_append.mp hnodup).2.1).2.1

/-- A buffer is cached once, for one peer. -/
theorem Owned.peer_unique (h : Owned cb hand) {y z : UInt32} {v w : Peer Nat} {q : Nat}
    (hv : peerAt cb y = some v) (hq : q ∈ htblValues v.unseqMsgs) (hw : peerAt cb z = some w)
    (hq' : q ∈ htblValues w.unseqMsgs) : y = z := by
  obtain ⟨mp, hy, rfl⟩ := Option.map_eq_some_iff.mp hv
  obtain ⟨mp', hz, rfl⟩ := Option.map_eq_some_iff.mp hw
  obtain ⟨-, hdisjoint⟩ := List.nodup_flatMap.mp h.cachedMsgs_nodup
  by_contra hne
  have hmps : mp ≠ mp' := by
    rintro rfl
    exact hne ((h.registered y mp hy).2.symm.trans (h.registered z mp hz).2)
  have hsymm : Std.Symm (Function.onFun List.Disjoint fun mp => htblValues (cb.mems mp).unseqMsgs) :=
    ⟨fun a b hab q hqa hqb => hab hqb hqa⟩
  exact hdisjoint.forall (mem_htblValues.mpr ⟨y, hy⟩) (mem_htblValues.mpr ⟨z, hz⟩) hmps hq hq'

theorem Owned.unseqMsgs_nodup (h : Owned cb hand) {y : UInt32} {v : Peer Nat}
    (hv : peerAt cb y = some v) : (htblValues v.unseqMsgs).Nodup := by
  obtain ⟨mp, hy, rfl⟩ := Option.map_eq_some_iff.mp hv
  exact (List.nodup_flatMap.mp h.cachedMsgs_nodup).1 mp (mem_htblValues.mpr ⟨y, hy⟩)

/-! ## One step -/

/-- Nothing is handed over while no record is written. -/
theorem handedOver_eq_false {e : Endian} (hout : cb'.ipcOut = cb.ipcOut) (q : Nat) :
    handedOver e cb cb' q = false := by
  simp [handedOver, hout]

section InSequence

variable {sender : SockaddrIn} {r : RecvResult} {flag : Bool} {m : RmcMsg} {v : Peer Nat}

/-- What a DATA message in sequence takes out of the cache. -/
def releasedBy (v : Peer Nat) : List Nat :=
  (release (htblCount v.unseqMsgs) ⟨v.sequence + 1, v.unseqMsgs⟩).2

theorem arrive_in_sequence {num : Nat → UInt32} {p : Nat} (hdue : v.sequence + 1 = num p) :
    arrive num v.toReassembly p
      = ((release (htblCount v.unseqMsgs) ⟨v.sequence + 1, v.unseqMsgs⟩).1,
          .direct p :: (releasedBy v).map .released) :=
  if_neg fun hne => hne hdue

/-- A cached buffer is handed over by a DATA message in sequence exactly if
the release loop takes it out. -/
theorem handedOver_iff (hown : Owned cb hand) (hb : mcastBranch h sender r cb = some (cb', flag))
    (hm : accepted h r cb = some m) (ht : MsgType.ofByte m.hdrType = some .data)
    (hv : peerAt cb (m.hdrId h.endian) = some v)
    (hdue : v.sequence + 1 = m.hdrSequence h.endian) {q : Nat} (hq : q ∈ cachedMsgs cb) :
    handedOver h.endian cb cb' q = true ↔ q ∈ releasedBy v := by
  rcases mcastBranch_accepted hb with ⟨hnone, -⟩ | ⟨m', hm', hbuf, -⟩
  · rw [hnone] at hm
    cases hm
  obtain rfl : m' = m := Option.some.inj (hm'.symm.trans hm)
  have hev : eventOf h.endian m' (allocMsg cb).2 = .data (allocMsg cb).2 := by
    simp only [eventOf, ht]
  have hnum : v.sequence + 1 = number h.endian (received h r cb) (allocMsg cb).2 := by
    rw [hdue, hbuf]
    rfl
  have hpeer := fun y => peerAt_mcastBranch hown hb y
  have hout := ipcOut_mcastBranch hown hb
  simp only [hm, hev] at hpeer hout
  rw [hv, Peer.handed, arrive_in_sequence hnum] at hout
  have hself : peerAt cb' (m'.hdrId h.endian) = some { v with toReassembly :=
      (release (htblCount v.unseqMsgs) ⟨v.sequence + 1, v.unseqMsgs⟩).1 } := by
    rw [hpeer, if_pos rfl, hv, Peer.next, arrive_in_sequence hnum]
  have hperm := htblValues_release (htblCount v.unseqMsgs) ⟨v.sequence + 1, v.unseqMsgs⟩
  have hcached : q ∉ cachedMsgs cb' ↔ q ∈ releasedBy v := by
    obtain ⟨y, w, hw, hqw⟩ := mem_cachedMsgs_iff.mp hq
    constructor
    · intro hnot
      by_contra hkeep
      apply hnot
      rw [mem_cachedMsgs_iff]
      by_cases hy : y = m'.hdrId h.endian
      · subst hy
        obtain rfl := Option.some.inj (hv.symm.trans hw)
        refine ⟨_, _, hself, ?_⟩
        rcases List.mem_append.mp (hperm.mem_iff.mp hqw) with hrel | hrest
        · exact absurd hrel hkeep
        · exact hrest
      · exact ⟨y, w, by rw [hpeer, if_neg hy, hw], hqw⟩
    · intro hrel hstill
      have hqv : q ∈ htblValues v.unseqMsgs :=
        hperm.mem_iff.mpr (List.mem_append.mpr (.inl hrel))
      obtain ⟨z, u, hu, hqu⟩ := mem_cachedMsgs_iff.mp hstill
      by_cases hz : z = m'.hdrId h.endian
      · subst hz
        obtain rfl := Option.some.inj (hself.symm.trans hu)
        have hnodup := hperm.nodup_iff.mp (hown.unseqMsgs_nodup hv)
        exact (List.nodup_append.mp hnodup).2.2 q hrel q hqu rfl
      · rw [hpeer, if_neg hz] at hu
        exact hz (hown.peer_unique hu hqu hv hqv)
  have hin : InUse cb q := hown.inUse (.inr (.inr hq))
  unfold handedOver
  rw [Bool.and_eq_true, decide_eq_true_iff, hcached]
  refine ⟨fun hboth => hboth.1, fun hrel => ⟨hrel, ?_⟩⟩
  rw [hout, List.drop_left, List.any_eq_true]
  refine ⟨record h.endian sender (.released (msgView h.endian ((received h r cb).msgs q))), ?_, ?_⟩
  · refine List.mem_map.mpr ⟨.released q, ?_, rfl⟩
    exact List.mem_cons_of_mem _ (List.mem_map_of_mem hrel)
  · rw [received_msgs h r hin]
    exact decide_eq_true rfl

end InSequence

theorem owned_branch {b : Branch} (hown : Owned cb hand) (hb : branch h cb b = some cb') :
    ∃ hand', Owned cb' hand' := by
  cases b with
  | mcast sender r =>
    obtain ⟨⟨cb₁, flag⟩, hm, rfl⟩ := Option.map_eq_some_iff.mp hb
    obtain ⟨leak, hleak, -⟩ := owned_mcastBranch h sender r hown hm
    exact ⟨_, hleak⟩
  | ipc i =>
    obtain rfl := Option.some.inj hb
    obtain ⟨leak, hleak, -⟩ := owned_ipcBranch h i hown
    exact ⟨_, hleak⟩
  | hbeat => exact ⟨_, owned_sendHbeat h _ _ _ hown hb⟩
  | ack => exact ⟨_, owned_ackBranch hown hb⟩

/-- What every step keeps. -/
structure Watching (w : Watch) : Prop where
  owned : ∃ hand, Owned w.cb hand
  cached : ∀ q ∈ w.stale, q ∈ cachedMsgs w.cb

/-- **One step** leaks nothing exactly if what is stale is out of reach. -/
theorem leaked_step_iff {w : Watch} {b : Branch} (hw : Watching w)
    (hb : branch h w.cb b = some cb') :
    w.stale.filter (handedOver h.endian w.cb cb') = [] ↔ StaleOutOfReach h w b := by
  obtain ⟨⟨hand, hown⟩, hcached⟩ := hw
  rw [List.filter_eq_nil_iff]
  have hquiet : cb'.ipcOut = w.cb.ipcOut →
      ∀ q ∈ w.stale, ¬ handedOver h.endian w.cb cb' q = true := by
    intro hout q _
    rw [handedOver_eq_false hout]
    exact Bool.false_ne_true
  cases b with
  | ipc i =>
    obtain rfl := Option.some.inj hb
    exact ⟨fun _ => trivial, fun _ => hquiet (ipcBranch_receiver h i w.cb).2.2.2⟩
  | hbeat => exact ⟨fun _ => trivial, fun _ => hquiet (hbeatBranch_ipcOut h hb)⟩
  | ack => exact ⟨fun _ => trivial, fun _ => hquiet (ackBranch_ipcOut hb)⟩
  | mcast sender r =>
    obtain ⟨⟨cb₁, flag⟩, hm, rfl⟩ := Option.map_eq_some_iff.mp hb
    have hout := ipcOut_mcastBranch hown hm
    unfold StaleOutOfReach
    by_cases hseq : ∃ m v, accepted h r w.cb = some m ∧ MsgType.ofByte m.hdrType = some .data
        ∧ peerAt w.cb (m.hdrId h.endian) = some v ∧ v.sequence + 1 = m.hdrSequence h.endian
    · obtain ⟨m, v, hacc, ht, hv, hdue⟩ := hseq
      have hreach : ∀ q, q ∈ releasedBy v ↔ ∃ k,
          (∀ j, dist (m.hdrSequence h.endian) j ≤ dist (m.hdrSequence h.endian) k →
            htblGet v.unseqMsgs j ≠ none) ∧ htblGet v.unseqMsgs k = some q := by
        intro q
        rw [← hdue]
        exact mem_release_iff _ (Nat.le_refl _)
      constructor
      · intro hnone m' v' hacc' ht' hv' hdue' k q hrun hk hstale
        obtain rfl := Option.some.inj (hacc.symm.trans hacc')
        obtain rfl := Option.some.inj (hv.symm.trans hv')
        refine hnone q hstale ?_
        rw [handedOver_iff hown hm hacc ht hv hdue (hcached q hstale), hreach]
        exact ⟨k, hrun, hk⟩
      · intro hfree q hstale hover
        rw [handedOver_iff hown hm hacc ht hv hdue (hcached q hstale), hreach] at hover
        obtain ⟨k, hrun, hk⟩ := hover
        exact hfree m v hacc ht hv hdue k q hrun hk hstale
    · -- without a message in sequence no record is written
      have hsame : cb₁.ipcOut = w.cb.ipcOut := by
        cases hacc : accepted h r w.cb with
        | none =>
          rw [hacc] at hout
          rw [hout, List.append_nil]
        | some m =>
          simp only [hacc] at hout
          have hnil : Peer.handed (number h.endian (received h r w.cb))
              (peerAt w.cb (m.hdrId h.endian)) (eventOf h.endian m (allocMsg w.cb).2) = [] := by
            cases hv : peerAt w.cb (m.hdrId h.endian) with
            | none => rfl
            | some v =>
              by_cases ht : MsgType.ofByte m.hdrType = some .data
              · have hnum : number h.endian (received h r w.cb) (allocMsg w.cb).2
                    = m.hdrSequence h.endian := by
                  rcases mcastBranch_accepted hm with ⟨hnone, -⟩ | ⟨m', hm', rfl, -⟩
                  · rw [hnone] at hacc
                    cases hacc
                  · rw [← Option.some.inj (hm'.symm.trans hacc)]
                    rfl
                have hdue : v.sequence + 1 ≠ m.hdrSequence h.endian :=
                  fun hdue => hseq ⟨m, v, hacc, ht, hv, hdue⟩
                simp only [eventOf, ht, Peer.handed, arrive, hnum, if_pos hdue]
                split <;> rfl
              · exact Peer.handed_eq_nil _ fun a ha => ht (eventOf_eq_data ha).1
          rw [hout, hnil]
          exact List.append_nil _
      refine ⟨fun _ m v hacc ht hv hdue => ?_, fun _ => hquiet hsame⟩
      exact absurd ⟨m, v, hacc, ht, hv, hdue⟩ hseq

/-! ## Runs -/

/-- **Session isolation.** In every run, no message that was cached when
its member's session changed is handed to the client afterwards, exactly
if no DATA message in sequence ever has one in its reach. -/
theorem session_isolated_iff (h : Host) (g : Garbage) (a : InitArgs) (bs : List Branch) :
    Throughout (Watch.step h) (fun w => w.leaked = []) (Watch.start g a) bs
      ↔ Guarded (Watch.step h) (StaleOutOfReach h) (Watch.start g a) bs := by
  refine throughout_iff_guarded (I := Watching) ?_ ?_ ⟨⟨[], owned_rmcastInit g a⟩, ?_⟩ rfl
  · rintro w b w' ⟨⟨hand, hown⟩, -⟩ hstep
    obtain ⟨cb', hb, rfl⟩ := Option.map_eq_some_iff.mp hstep
    refine ⟨owned_branch hown hb, fun q hq => ?_⟩
    exact of_decide_eq_true (List.mem_filter.mp hq).2
  · intro w b w' hw hnone hstep
    obtain ⟨cb', hb, rfl⟩ := Option.map_eq_some_iff.mp hstep
    rw [← leaked_step_iff hw hb]
    simp only [hnone, List.nil_append]
  · intro q hq
    cases hq

/-- A heartbeat of node 2 with the given session, announcing a number. -/
def hbeatOf (session sequence : UInt32) : Branch :=
  .mcast anyAddr (.ok (hbeatDgram 0 { rmcastMemberInit [] 2 session with sequence := sequence }
    none none 0).bytes)

/-- A one-byte DATA message of node 2. -/
def dataOf (sequence : UInt32) (b : UInt8) : Branch :=
  .mcast anyAddr (.ok (dataOne sequence b).bytes)

/-- Number 3 of session 7 comes ahead of its turn, node 2 starts session 8
at number 3, and its number 3 is followed by the one from session 7. The
run goes through a gap: `send_nack` is taken to return. -/
theorem session_isolated_fails :
    ∃ w, run (Watch.step littleHost) (Watch.start zeroGarbage plainArgs)
        [hbeatOf 7 1, dataOf 3 33, hbeatOf 8 3, dataOf 3 88] = some w
      ∧ w.cb.ipcOut.map IpcRecord.payload = [[88], [33]] ∧ w.leaked ≠ [] := by
  have hrun : (run (Watch.step littleHost) (Watch.start zeroGarbage plainArgs)
      [hbeatOf 7 1, dataOf 3 33, hbeatOf 8 3, dataOf 3 88]).map
        (fun w => (w.cb.ipcOut.map IpcRecord.payload, w.leaked.isEmpty))
      = some ([[88], [33]], false) := by decide +kernel
  obtain ⟨w, hw, heq⟩ := Option.map_eq_some_iff.mp hrun
  obtain ⟨hout, hleaked⟩ := Prod.mk.inj heq
  refine ⟨w, hw, hout, fun hnil => ?_⟩
  rw [hnil] at hleaked
  cases hleaked

end Rms.V01
