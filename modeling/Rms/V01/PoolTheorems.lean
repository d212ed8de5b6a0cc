/-
Rms.V01.PoolTheorems — who owns a message buffer.

Every buffer that `new_msg` created should at any time be in exactly one
place: in the free queue `bufmsgq`, in the retransmission buffer
`outmsgbuf`, or in the out-of-sequence cache of one registered member.
`places` lists them all, and `Conserved` says that the list is a
permutation of the buffers created so far.

The proofs work with `Owned cb hand`: every buffer is either in one
place or, once, in `hand`. While a handler runs, `hand` holds the buffer
it works on; at the end of an iteration it holds what no place has any
more, that is, what was leaked. Each function of the daemon gets one
lemma that says how it moves buffers between the places and `hand`, and
each case of the datagram switch one that also says exactly when it
leaves nothing behind.

The outcome is `conserved_throughout_iff`: a run keeps every buffer
accounted for exactly when no iteration takes one of the exits that
forget to release (`Kept`). No buffer is ever in two places, in any run
(`places_nodup`).

All this is about a list of free buffers. The queue that the source keeps
them in has a pool of a hundred nodes; `bufmsgq_answers` says that it hands
out the same buffers.
-/
import Rms.Lib.Runs
import Rms.Util.MqueueStack
import Rms.V01.Wire

namespace Rms.V01

open Rms.ByteMem Rms.Util Rms.Runs

/-! ## Places -/

/-- The buffers in the caches of the registered members. -/
def cachedMsgs (cb : RmcCtrlBlock) : List Nat :=
  (htblValues cb.members).flatMap fun mp => htblValues (cb.mems mp).unseqMsgs

/-- Every buffer the daemon can still find, once for each place it is in. -/
def places (cb : RmcCtrlBlock) : List Nat :=
  cb.bufmsgq ++ (htblValues cb.outmsgbuf ++ cachedMsgs cb)

/-- Every buffer created so far is in exactly one place. -/
def Conserved (cb : RmcCtrlBlock) : Prop :=
  (places cb).Perm (List.range cb.nmsgs)

/-- Every buffer created so far is once in a place or once in `hand`, and
every member is registered under its own id. -/
structure Owned (cb : RmcCtrlBlock) (hand : List Nat) : Prop where
  registered : ∀ k mp, htblGet cb.members k = some mp → mp < cb.nmems ∧ (cb.mems mp).id = k
  ledger : (places cb ++ hand).Perm (List.range cb.nmsgs)

/-- The ledger, buffer by buffer. -/
theorem Owned.count {cb : RmcCtrlBlock} {hand : List Nat} (h : Owned cb hand) (x : Nat) :
    (places cb).count x + hand.count x = (List.range cb.nmsgs).count x := by
  rw [← List.count_append]
  exact h.ledger.count_eq x

theorem Owned.of_count {cb : RmcCtrlBlock} {hand : List Nat}
    (hreg : ∀ k mp, htblGet cb.members k = some mp → mp < cb.nmems ∧ (cb.mems mp).id = k)
    (hcount : ∀ x, (places cb).count x + hand.count x = (List.range cb.nmsgs).count x) :
    Owned cb hand := by
  refine ⟨hreg, List.perm_iff_count.mpr ?_⟩
  intro x
  rw [List.count_append]
  exact hcount x

/-- With nothing in hand, owning is conserving. -/
theorem Owned.conserved {cb : RmcCtrlBlock} (h : Owned cb []) : Conserved cb := by
  have hl := h.ledger
  rwa [List.append_nil] at hl

/-- If every buffer is in one place, there is nothing left to hold. -/
theorem Owned.hand_eq_nil {cb : RmcCtrlBlock} {hand : List Nat} (h : Owned cb hand)
    (hc : Conserved cb) : hand = [] := by
  have h₁ := h.ledger.length_eq
  have h₂ := List.Perm.length_eq hc
  rw [List.length_append] at h₁
  exact List.eq_nil_of_length_eq_zero (by omega)

theorem Owned.conserved_iff {cb : RmcCtrlBlock} {hand : List Nat} (h : Owned cb hand) :
    Conserved cb ↔ hand = [] := by
  constructor
  · exact h.hand_eq_nil
  · intro hnil
    subst hnil
    exact h.conserved

/-- Members registered under their own id are registered once. -/
theorem Owned.members_nodup {cb : RmcCtrlBlock} {hand : List Nat} (h : Owned cb hand) :
    (htblValues cb.members).Nodup := by
  apply List.Nodup.map_on
  · rintro ⟨k, mp⟩ hs ⟨k', mp'⟩ hs' heq
    have hk := (h.registered k mp (List.mem_dlookup cb.members.nodupKeys hs)).2
    have hk' := (h.registered k' mp' (List.mem_dlookup cb.members.nodupKeys hs')).2
    simp only at heq
    subst heq
    rw [hk] at hk'
    rw [hk']
  · exact cb.members.nodupKeys.nodup

/-! ## Moving buffers -/

/-- Replacing the list of one element of a duplicate-free list moves the
counts of a `flatMap` by the difference. -/
theorem count_flatMap_replace {l : List Nat} (hnd : l.Nodup) {a : Nat} (ha : a ∈ l)
    {f g : Nat → List Nat} (hfg : ∀ b, b ≠ a → g b = f b) (x : Nat) :
    (l.flatMap g).count x + (f a).count x = (l.flatMap f).count x + (g a).count x := by
  induction l with
  | nil => simp at ha
  | cons b l ih =>
    rw [List.nodup_cons] at hnd
    simp only [List.flatMap_cons, List.count_append]
    by_cases hb : b = a
    · subst hb
      have hrest : l.flatMap g = l.flatMap f := by
        apply List.flatMap_congr
        intro c hc
        exact hfg c (fun hcb => hnd.1 (hcb ▸ hc))
      rw [hrest]
      omega
    · have hmem : a ∈ l := by
        rcases List.mem_cons.mp ha with h | h
        · exact absurd h.symm hb
        · exact h
      have := ih hnd.2 hmem
      rw [hfg b hb]
      omega

/-- What `Owned` depends on. -/
theorem Owned.congr {cb cb' : RmcCtrlBlock} {hand : List Nat} (h : Owned cb hand)
    (hq : cb'.bufmsgq = cb.bufmsgq) (ho : cb'.outmsgbuf = cb.outmsgbuf)
    (hm : cb'.members = cb.members) (hn : cb'.nmsgs = cb.nmsgs) (hnm : cb'.nmems = cb.nmems)
    (hmem : ∀ mp ∈ htblValues cb.members, (cb'.mems mp).id = (cb.mems mp).id
      ∧ (cb'.mems mp).unseqMsgs = (cb.mems mp).unseqMsgs) : Owned cb' hand := by
  refine ⟨?_, ?_⟩
  · intro k mp hk
    rw [hm] at hk
    rw [hnm, (hmem mp (mem_htblValues.mpr ⟨k, hk⟩)).1]
    exact h.registered k mp hk
  · have hl := h.ledger
    have hc : cachedMsgs cb' = cachedMsgs cb := by
      rw [cachedMsgs, hm]
      apply List.flatMap_congr
      intro mp hmp
      rw [(hmem mp hmp).2]
    rw [places, hc, hq, ho, hn]
    exact hl

/-- Writing to a registered member, with the buffers that enter or leave
its cache moved out of or into the hand. -/
theorem Owned.setMem {cb : RmcCtrlBlock} {hand hand' : List Nat} (h : Owned cb hand)
    {k : UInt32} {mp : Nat} (hk : htblGet cb.members k = some mp) {mem : RmcMember}
    (hid : mem.id = (cb.mems mp).id)
    (hcount : ∀ x, (htblValues mem.unseqMsgs).count x + hand'.count x
      = (htblValues (cb.mems mp).unseqMsgs).count x + hand.count x) :
    Owned (cb.setMem mp mem) hand' := by
  have hmem : mp ∈ htblValues cb.members := mem_htblValues.mpr ⟨k, hk⟩
  refine Owned.of_count ?_ ?_
  · intro k' mp' hk'
    have hreg := h.registered k' mp' hk'
    by_cases heq : mp' = mp
    · subst heq
      simp only [RmcCtrlBlock.setMem, Function.update_self]
      rw [hid]
      exact hreg
    · simp only [RmcCtrlBlock.setMem, Function.update_of_ne heq]
      exact hreg
  · intro x
    have hx := h.count x
    have hc := hcount x
    have hrep := count_flatMap_replace h.members_nodup hmem
      (f := fun mp => htblValues (cb.mems mp).unseqMsgs)
      (g := fun mp' => htblValues ((cb.setMem mp mem).mems mp').unseqMsgs)
      (by
        intro b hb
        simp only [RmcCtrlBlock.setMem, Function.update_of_ne hb]) x
    simp only [RmcCtrlBlock.setMem, Function.update_self] at hrep
    simp only [places, cachedMsgs, RmcCtrlBlock.setMem, List.count_append] at hx hrep ⊢
    omega

theorem owned_setMsg {cb : RmcCtrlBlock} {hand : List Nat} (h : Owned cb hand)
    (p : Nat) (m : RmcMsg) : Owned (cb.setMsg p m) hand :=
  h.congr rfl rfl rfl rfl rfl (fun _ _ => ⟨rfl, rfl⟩)

theorem owned_sendto {cb : RmcCtrlBlock} {hand : List Nat} (h : Owned cb hand)
    (d : Dest) (p n : Nat) (b : Bool) : Owned (cb.sendto d p n b) hand :=
  h.congr rfl rfl rfl rfl rfl (fun _ _ => ⟨rfl, rfl⟩)

theorem owned_deliver {cb : RmcCtrlBlock} {hand : List Nat} (h : Owned cb hand) (host : Host)
    (head : List UInt8) (p : Nat) : Owned (deliver host head p cb) hand :=
  h.congr rfl rfl rfl rfl rfl (fun _ _ => ⟨rfl, rfl⟩)

theorem owned_newMsg {cb : RmcCtrlBlock} {hand : List Nat} (h : Owned cb hand) :
    Owned (newMsg cb).1 ((newMsg cb).2 :: hand) := by
  refine Owned.of_count h.registered ?_
  intro x
  have hx := h.count x
  have hplaces : places (newMsg cb).1 = places cb := rfl
  have hn : (newMsg cb).1.nmsgs = cb.nmsgs + 1 := rfl
  have hp : (newMsg cb).2 = cb.nmsgs := rfl
  rw [hplaces, hn, hp, List.range_succ, List.count_append, List.count_cons, List.count_singleton]
  omega

/-- `alloc_msg` moves one buffer from the pool, or a new one, into the hand. -/
theorem owned_allocMsg {cb : RmcCtrlBlock} {hand : List Nat} (h : Owned cb hand) :
    Owned (allocMsg cb).1 ((allocMsg cb).2 :: hand) := by
  unfold allocMsg
  split
  · rename_i p rest heq
    refine Owned.of_count h.registered ?_
    intro x
    have hx := h.count x
    simp only [places, cachedMsgs, heq, List.count_append, List.count_cons] at hx ⊢
    omega
  · exact owned_newMsg h

/-- `release_msg` moves the buffer in hand to the pool. -/
theorem owned_releaseMsg {cb : RmcCtrlBlock} {hand : List Nat} {p : Nat}
    (h : Owned cb (p :: hand)) : Owned (releaseMsg cb p) hand := by
  refine Owned.of_count h.registered ?_
  intro x
  have hx := h.count x
  simp only [places, cachedMsgs, releaseMsg, List.count_append, List.count_cons] at hx ⊢
  omega

theorem owned_sendNack {cb : RmcCtrlBlock} {hand : List Nat} (h : Owned cb hand) (host : Host)
    (mp p : Nat) : Owned (sendNack host mp p cb) hand := by
  refine h.congr rfl rfl rfl rfl rfl ?_
  intro mp' _
  by_cases heq : mp' = mp
  · subst heq
    simp [sendNack, RmcCtrlBlock.setMem, RmcCtrlBlock.setMsg, RmcCtrlBlock.sendto]
  · simp [sendNack, RmcCtrlBlock.setMem, RmcCtrlBlock.setMsg, RmcCtrlBlock.sendto,
      Function.update_of_ne heq]

/-! ## Purging -/

/-- A message kept for retransmission goes back to the pool. -/
theorem owned_releaseKept {cb : RmcCtrlBlock} {hand : List Nat} (h : Owned cb hand)
    {k : UInt32} {p : Nat} (hget : htblGet cb.outmsgbuf k = some p) :
    Owned (releaseMsg { cb with outmsgbuf := cb.outmsgbuf.erase k } p) hand := by
  refine Owned.of_count h.registered ?_
  intro x
  have hx := h.count x
  have hperm := (htblValues_erase hget).count_eq x
  simp only [places, cachedMsgs, releaseMsg, List.count_append, List.count_cons] at hx hperm ⊢
  omega

theorem owned_purgeRound {cb : RmcCtrlBlock} {hand : List Nat} (h : Owned cb hand) :
    Owned (purgeRound cb) hand := by
  unfold purgeRound
  split
  · rename_i p t heq
    obtain ⟨hget, rfl⟩ := htblRemove_eq_some.mp heq
    exact (owned_releaseKept h hget).congr rfl rfl rfl rfl rfl (fun _ _ => ⟨rfl, rfl⟩)
  · exact h.congr rfl rfl rfl rfl rfl (fun _ _ => ⟨rfl, rfl⟩)

theorem owned_purgeRounds {hand : List Nat} (n : Nat) :
    ∀ {cb : RmcCtrlBlock}, Owned cb hand → Owned (purgeRounds n cb) hand := by
  induction n with
  | zero => intro cb h; exact h
  | succ n ih => intro cb h; exact ih (owned_purgeRound h)

theorem owned_purge {cb : RmcCtrlBlock} {hand : List Nat} (h : Owned cb hand) (bound : UInt32) :
    Owned (purge bound cb) hand :=
  owned_purgeRounds _ h

/-! ## The cases of the switch -/

theorem owned_releaseCached (host : Host) {k : UInt32} {mp : Nat} (n : Nat) :
    ∀ {cb : RmcCtrlBlock} {hand : List Nat}, Owned cb hand → htblGet cb.members k = some mp →
      ∃ out, Owned (releaseCached host mp n cb) (out ++ hand) := by
  induction n with
  | zero =>
    intro cb hand h _
    exact ⟨[], h⟩
  | succ n ih =>
    intro cb hand h hk
    simp only [releaseCached]
    split
    · exact ⟨[], h⟩
    · rename_i p t heq
      obtain ⟨hget, rfl⟩ := htblRemove_eq_some.mp heq
      have hd := owned_deliver h host
        (enc32 host.endian ((cb.msgs p).hdrLength host.endian).toUInt32) p
      have hset : Owned ((deliver host (enc32 host.endian
            ((cb.msgs p).hdrLength host.endian).toUInt32) p cb).setMem mp
            { cb.mems mp with unseqMsgs := (cb.mems mp).unseqMsgs.erase (cb.mems mp).sequence,
                              sequence := (cb.mems mp).sequence + 1 }) (p :: hand) := by
        refine hd.setMem hk rfl ?_
        intro x
        have hperm := (htblValues_erase hget).count_eq x
        simp only [deliver, List.count_cons] at hperm ⊢
        omega
      obtain ⟨out, hout⟩ := ih hset hk
      refine ⟨out ++ [p], ?_⟩
      rw [List.append_assoc]
      exact hout

/-- A DATA datagram gives its buffer away or back exactly when it comes
from nobody known, or is out of sequence and not cached already. -/
def DataKept (h : Host) (p : Nat) (cb : RmcCtrlBlock) : Prop :=
  ∀ mp, htblGet cb.members ((cb.msgs p).hdrId h.endian) = some mp →
    (cb.mems mp).sequence + 1 ≠ (cb.msgs p).hdrSequence h.endian
    ∧ ((cb.mems mp).sequence < (cb.msgs p).hdrSequence h.endian →
        htblGet (cb.mems mp).unseqMsgs ((cb.msgs p).hdrSequence h.endian) = none)

/-- Caching a message that is not cached yet moves its buffer into the
cache. -/
theorem owned_dataAhead_fresh (host : Host) {k : UInt32} {mp p : Nat} {cb : RmcCtrlBlock}
    {hand : List Nat} (h : Owned cb (p :: hand)) (hk : htblGet cb.members k = some mp)
    (hc : htblGet (cb.mems mp).unseqMsgs ((cb.msgs p).hdrSequence host.endian) = none) :
    Owned (dataAhead host mp p cb) hand := by
  have hset : Owned (cacheMsg host mp p cb) hand := by
    refine h.setMem hk rfl ?_
    intro x
    rw [htblPut_of_none p hc, htblValues_insert p hc]
    simp only [List.count_cons]
    omega
  exact owned_releaseMsg (owned_sendNack (owned_allocMsg hset) host mp _)

/-- Caching a message whose number is cached already loses its buffer. -/
theorem owned_dataAhead_again (host : Host) {k : UInt32} {mp p q : Nat} {cb : RmcCtrlBlock}
    {hand : List Nat} (h : Owned cb (p :: hand)) (hk : htblGet cb.members k = some mp)
    (hc : htblGet (cb.mems mp).unseqMsgs ((cb.msgs p).hdrSequence host.endian) = some q) :
    Owned (dataAhead host mp p cb) (p :: hand) := by
  have hset : Owned (cacheMsg host mp p cb) (p :: hand) := by
    refine h.setMem hk rfl ?_
    intro x
    rw [htblPut_of_some p hc]
  exact owned_releaseMsg (owned_sendNack (owned_allocMsg hset) host mp _)

/-- A delivered message loses its buffer, with the buffers of all the
messages released after it. -/
theorem owned_dataInSequence (host : Host) (sender : SockaddrIn) {k : UInt32} {mp p : Nat}
    {cb : RmcCtrlBlock} {hand : List Nat} (h : Owned cb (p :: hand))
    (hk : htblGet cb.members k = some mp) :
    ∃ out, Owned (dataInSequence host sender mp p cb) (out ++ p :: hand) := by
  have hset : Owned ((deliver host (ipcMetadata host.endian
        ((cb.msgs p).hdrLength host.endian).toUInt32 sender) p cb).setMem mp
        { cb.mems mp with sequence := (cb.mems mp).sequence + 1 }) (p :: hand) := by
    refine (owned_deliver h host _ p).setMem hk rfl ?_
    intro x
    rfl
  exact owned_releaseCached host (htblCount (cb.mems mp).unseqMsgs) hset hk

theorem owned_dataMsg (host : Host) (sender : SockaddrIn) {p : Nat} {cb : RmcCtrlBlock}
    {hand : List Nat} (h : Owned cb (p :: hand)) :
    ∃ leak, Owned (dataMsg host sender p cb) (leak ++ hand)
      ∧ (leak = [] ↔ DataKept host p cb) := by
  unfold dataMsg DataKept
  cases hk : htblGet cb.members ((cb.msgs p).hdrId host.endian) with
  | none => exact ⟨[], owned_releaseMsg h, by simp⟩
  | some mp =>
    simp only [Option.some.injEq, forall_eq']
    split
    · rename_i hne
      split
      · rename_i hlt
        cases hc : htblGet (cb.mems mp).unseqMsgs ((cb.msgs p).hdrSequence host.endian) with
        | none => exact ⟨[], owned_dataAhead_fresh host h hk hc, by simp [hne]⟩
        | some q => exact ⟨[p], owned_dataAhead_again host h hk hc, by simp [hlt]⟩
      · rename_i hlt
        exact ⟨[], owned_releaseMsg h, by simp [hne, hlt]⟩
    · rename_i heq
      obtain ⟨out, hout⟩ := owned_dataInSequence host sender h hk
      refine ⟨out ++ [p], ?_, ?_⟩
      · rw [List.append_assoc]
        exact hout
      · have : (cb.mems mp).sequence + 1 = (cb.msgs p).hdrSequence host.endian :=
          not_not.mp heq
        simp [this]

/-- Registering an unknown member with an empty cache moves no buffer. -/
theorem owned_registerMember {mem : RmcMember} {cb : RmcCtrlBlock} {hand : List Nat}
    (h : Owned cb hand) (hk : htblGet cb.members mem.id = none) (hu : mem.unseqMsgs = ∅) :
    Owned (registerMember mem cb).1 hand := by
  have hfresh : ∀ mp ∈ htblValues cb.members, mp ≠ cb.nmems := by
    intro mp hmp
    obtain ⟨k, hk'⟩ := mem_htblValues.mp hmp
    have := (h.registered k mp hk').1
    omega
  refine ⟨?_, ?_⟩
  · intro k' mp' hk'
    simp only [registerMember, htblPut_of_none _ hk, htblGet_insert] at hk' ⊢
    split at hk'
    · rename_i heq
      simp only [Option.some.injEq] at hk'
      subst hk' heq
      exact ⟨Nat.lt_succ_self _, by rw [Function.update_self]⟩
    · have hreg := h.registered k' mp' hk'
      rw [Function.update_of_ne (hfresh mp' (mem_htblValues.mpr ⟨k', hk'⟩))]
      exact ⟨Nat.lt_succ_of_lt hreg.1, hreg.2⟩
  · have hc : cachedMsgs (registerMember mem cb).1 = cachedMsgs cb := by
      simp only [cachedMsgs, registerMember, htblPut_of_none _ hk, htblValues_insert _ hk,
        List.flatMap_cons, Function.update_self, hu, htblValues_empty, List.nil_append]
      apply List.flatMap_congr
      intro mp hmp
      rw [Function.update_of_ne (hfresh mp hmp)]
    rw [places, hc]
    exact h.ledger

theorem owned_hbeatMember (host : Host) {p : Nat} {cb : RmcCtrlBlock} {hand : List Nat}
    (h : Owned cb hand) : Owned (hbeatMember host p cb).1 hand := by
  unfold hbeatMember
  cases hk : htblGet cb.members ((cb.msgs p).hdrId host.endian) with
  | none => exact owned_registerMember h hk rfl
  | some mp =>
    simp only
    split
    · refine h.setMem hk rfl ?_
      intro x
      rfl
    · exact h

/-- A member's cache and id are not touched by a heartbeat's updates. -/
theorem hbeatUpdate_frame (e : Endian) (msg : RmcMsg) (selfId : UInt32) (mem : RmcMember) :
    (hbeatUpdate e msg selfId mem).id = mem.id
      ∧ (hbeatUpdate e msg selfId mem).unseqMsgs = mem.unseqMsgs := by
  unfold hbeatUpdate
  simp only
  split
  · split <;> exact ⟨rfl, rfl⟩
  · exact ⟨rfl, rfl⟩

theorem owned_hbeatGap (host : Host) {mp p : Nat} {cb : RmcCtrlBlock} {hand : List Nat}
    (h : Owned cb hand) : Owned (hbeatGap host mp p cb) hand := by
  unfold hbeatGap
  split
  · split
    · exact owned_sendNack h host mp p
    · exact h
  · exact h

/-- A heartbeat gives its buffer back. -/
theorem owned_hbeatMsg (host : Host) {p : Nat} {cb : RmcCtrlBlock} {hand : List Nat}
    (h : Owned cb (p :: hand)) : Owned (hbeatMsg host p cb) hand := by
  have h₁ := owned_hbeatMember host (p := p) (owned_setMsg h p (hbeatDecode host.endian (cb.msgs p)))
  unfold hbeatMsg
  simp only
  generalize hbeatMember host p (cb.setMsg p (hbeatDecode host.endian (cb.msgs p))) = r at h₁ ⊢
  obtain ⟨cb₁, mp⟩ := r
  simp only at h₁ ⊢
  have h₂ : Owned (cb₁.setMem mp (hbeatUpdate host.endian (cb₁.msgs p) cb₁.self.id (cb₁.mems mp)))
      (p :: hand) := by
    refine h₁.congr rfl rfl rfl rfl rfl ?_
    intro mp' _
    by_cases heq : mp' = mp
    · subst heq
      simp only [RmcCtrlBlock.setMem, Function.update_self]
      exact hbeatUpdate_frame _ _ _ _
    · simp only [RmcCtrlBlock.setMem, Function.update_of_ne heq]
      exact ⟨trivial, trivial⟩
  exact owned_releaseMsg (owned_hbeatGap host (owned_setMsg h₂ p _))

theorem owned_nackLoop (host : Host) {p : Nat} (n : Nat) :
    ∀ {itr : Nat} {cb : RmcCtrlBlock} {hand : List Nat}, Owned cb hand →
      Owned (nackLoop host p n itr cb) hand := by
  induction n with
  | zero => intro itr cb hand h; exact h
  | succ n ih =>
    intro itr cb hand h
    simp only [nackLoop]
    apply ih
    split
    · exact owned_sendto (owned_setMsg h p _) _ _ _ _
    · exact owned_setMsg h p _

/-- A NACK loses its buffer. -/
theorem owned_nackMsg (host : Host) {p : Nat} {cb : RmcCtrlBlock} {hand : List Nat}
    (h : Owned cb hand) : Owned (nackMsg host p cb) hand := by
  unfold nackMsg
  apply owned_nackLoop
  exact h.congr rfl rfl rfl rfl rfl (fun _ _ => ⟨rfl, rfl⟩)

/-- Taking a member out of the table leaves its cached buffers in hand. -/
theorem owned_unregister {k : UInt32} {mp : Nat} {cb : RmcCtrlBlock} {hand : List Nat}
    (h : Owned cb hand) (hk : htblGet cb.members k = some mp) :
    Owned { cb with members := cb.members.erase k }
        (htblValues (cb.mems mp).unseqMsgs ++ hand)
      ∧ mp ∉ htblValues (cb.members.erase k) := by
  have hperm := htblValues_erase hk
  refine ⟨Owned.of_count ?_ ?_, ?_⟩
  · intro k' mp' hk'
    rw [htblGet_erase] at hk'
    split at hk'
    · simp at hk'
    · exact h.registered k' mp' hk'
  · intro x
    have hx := h.count x
    have hc := (hperm.flatMap_right
      (fun mp => htblValues (cb.mems mp).unseqMsgs)).count_eq x
    simp only [places, cachedMsgs, List.count_append, List.flatMap_cons] at hx hc ⊢
    omega
  · have hnd := hperm.nodup_iff.mp h.members_nodup
    exact (List.nodup_cons.mp hnd).1

/-- The drain moves buffers from the hand to the pool. -/
theorem owned_drainUnseq {mp : Nat} (keys : List UInt32) :
    ∀ {cb : RmcCtrlBlock} {hand : List Nat}, mp ∉ htblValues cb.members →
      Owned cb (htblValues (cb.mems mp).unseqMsgs ++ hand) →
      Owned (drainUnseq mp keys cb)
        (htblValues ((drainUnseq mp keys cb).mems mp).unseqMsgs ++ hand) := by
  induction keys with
  | nil => intro cb hand _ h; exact h
  | cons k keys ih =>
    intro cb hand hmp h
    simp only [drainUnseq]
    split
    · rename_i p t heq
      obtain ⟨hget, rfl⟩ := htblRemove_eq_some.mp heq
      refine ih (by exact hmp) ?_
      have hcongr : Owned (cb.setMem mp { cb.mems mp with
          unseqMsgs := (cb.mems mp).unseqMsgs.erase k })
          (htblValues (cb.mems mp).unseqMsgs ++ hand) := by
        refine h.congr rfl rfl rfl rfl rfl ?_
        intro mp' hmp'
        have hne : mp' ≠ mp := fun he => hmp (he ▸ hmp')
        simp only [RmcCtrlBlock.setMem, Function.update_of_ne hne]
        exact ⟨trivial, trivial⟩
      refine owned_releaseMsg (Owned.of_count hcongr.registered ?_)
      intro x
      have hx := hcongr.count x
      have hperm := (htblValues_erase hget).count_eq x
      simp only [releaseMsg, RmcCtrlBlock.setMem, Function.update_self, List.count_append,
        List.count_cons] at hx hperm ⊢
      omega
    · exact ih hmp h

/-- A LEAVE loses its buffer, whether or not it is from a member. -/
theorem owned_leaveMsg (host : Host) {p : Nat} {cb cb' : RmcCtrlBlock} {hand : List Nat}
    (h : Owned cb (p :: hand)) (hl : leaveMsg host p cb = some cb') :
    ∃ leak, Owned cb' (leak ++ hand) ∧ leak ≠ [] := by
  unfold leaveMsg at hl
  split at hl
  · simp only [Option.some.injEq] at hl
    subst hl
    exact ⟨[p], h, by simp⟩
  · rename_i mp t heq
    obtain ⟨hk, rfl⟩ := htblRemove_eq_some.mp heq
    obtain ⟨h₁, hmp⟩ := owned_unregister h hk
    simp only at hl
    split at hl
    · simp at hl
    · simp only [Option.some.injEq] at hl
      subst hl
      have h₂ := owned_drainUnseq (htblEnumIntKeys (cb.mems mp).unseqMsgs
        (htblCount (cb.mems mp).unseqMsgs)) hmp h₁
      refine ⟨htblValues ((drainUnseq mp (htblEnumIntKeys (cb.mems mp).unseqMsgs
        (htblCount (cb.mems mp).unseqMsgs))
        { cb with members := cb.members.erase ((cb.msgs p).hdrId host.endian) }).mems
          mp).unseqMsgs ++ [p], ?_, by simp⟩
      rw [List.append_assoc]
      exact h₂.congr rfl rfl rfl rfl rfl (fun _ _ => ⟨rfl, rfl⟩)

/-- When the datagram switch gives the buffer away or back. -/
def DispatchKept (h : Host) (p : Nat) (cb : RmcCtrlBlock) : Prop :=
  match MsgType.ofByte (cb.msgs p).hdrType with
  | some .data => DataKept h p cb
  | some .nack => False
  | some .leave => False
  | _ => True

theorem owned_dispatch (host : Host) (sender : SockaddrIn) {p : Nat} {cb cb' : RmcCtrlBlock}
    {hand : List Nat} (h : Owned cb (p :: hand)) (hd : dispatch host sender p cb = some cb') :
    ∃ leak, Owned cb' (leak ++ hand) ∧ (leak = [] ↔ DispatchKept host p cb) := by
  have hdrop : some (releaseMsg cb p) = some cb' →
      ∃ leak, Owned cb' (leak ++ hand) ∧ (leak = [] ↔ True) := by
    intro heq
    obtain rfl := Option.some.inj heq
    exact ⟨[], owned_releaseMsg h, by simp⟩
  unfold dispatch at hd
  unfold DispatchKept
  generalize MsgType.ofByte (cb.msgs p).hdrType = t at hd ⊢
  rcases t with _ | t
  · exact hdrop hd
  · cases t with
    | data =>
      obtain rfl := Option.some.inj hd
      exact owned_dataMsg host sender h
    | hbeat =>
      obtain rfl := Option.some.inj hd
      exact ⟨[], owned_hbeatMsg host h, by simp⟩
    | nack =>
      obtain rfl := Option.some.inj hd
      exact ⟨[p], owned_nackMsg host h, by simp⟩
    | leave =>
      obtain ⟨leak, hleak, hne⟩ := owned_leaveMsg host h hd
      exact ⟨leak, hleak, by simp [hne]⟩
    | ack => exact hdrop hd
    | join => exact hdrop hd
    | cert => exact hdrop hd

/-! ## The branches of the loop -/

/-- When handling a datagram leaks nothing: it is shorter than a header,
or it is as long as its header says and the switch keeps the buffer. -/
def McastKept (h : Host) (r : RecvResult) (cb : RmcCtrlBlock) : Prop :=
  (recvMsg r cb).2.2 < sizeofHdr
  ∨ (¬ (recvMsg r cb).2.2 <
        (((received h r cb).msgs (recvMsg r cb).2.1).hdrLength h.endian).toNat + sizeofHdr
      ∧ DispatchKept h (recvMsg r cb).2.1 (received h r cb))

theorem owned_mcastBranch (host : Host) (sender : SockaddrIn) (r : RecvResult)
    {cb cb' : RmcCtrlBlock} {flag : Bool} {hand : List Nat} (h : Owned cb hand)
    (hb : mcastBranch host sender r cb = some (cb', flag)) :
    ∃ leak, Owned cb' (leak ++ hand) ∧ (leak = [] ↔ McastKept host r cb) := by
  have hr : Owned (recvMsg r cb).1 ((recvMsg r cb).2.1 :: hand) :=
    owned_setMsg (owned_allocMsg h) _ _
  unfold McastKept
  rcases mcastBranch_cases host sender r hb with
    ⟨hshort, -, rfl⟩ | ⟨hlong, cb₁, p, rfl, rfl, ⟨hshort, -, rfl⟩ | ⟨hfull, -, hd⟩⟩
  · exact ⟨[], owned_releaseMsg hr, by simp [hshort]⟩
  · refine ⟨[(recvMsg r cb).2.1], owned_setMsg hr _ _, ?_⟩
    simp only [List.cons_ne_nil, false_iff, not_or, not_and]
    exact ⟨hlong, fun hfull => absurd hshort hfull⟩
  · obtain ⟨leak, hleak, hiff⟩ := owned_dispatch host sender (owned_setMsg hr _ _) hd
    refine ⟨leak, hleak, hiff.trans ?_⟩
    constructor
    · intro hk
      exact .inr ⟨hfull, hk⟩
    · rintro (hshort | ⟨-, hk⟩)
      · exact absurd hshort hlong
      · exact hk

/-- When a message from the client leaks nothing: there is none, or its
body arrives whole, is sent, and its number is free in `outmsgbuf`. -/
def IpcKept (h : Host) (i : IpcInput) (cb : RmcCtrlBlock) : Prop :=
  0 < (i.len.limit sizeofLong).ret →
    (i.body.limit (sizeT (ipcLen h i cb))).ret = ipcLen h i cb
    ∧ 0 < i.sendto
    ∧ htblGet cb.outmsgbuf cb.self.sequence = none

theorem sameSender_growMsg (n : Int) (p : Nat) (cb : RmcCtrlBlock) :
    SameSender cb (growMsg n p cb) := by
  unfold growMsg
  split <;> constructor <;> rfl

theorem owned_growMsg {cb : RmcCtrlBlock} {hand : List Nat} (h : Owned cb hand) (n : Int)
    (p : Nat) : Owned (growMsg n p cb) hand := by
  unfold growMsg
  split
  · exact h.congr rfl rfl rfl rfl rfl (fun _ _ => ⟨rfl, rfl⟩)
  · exact h

/-- Reading the client's message touches the sender's half only in
`ipc_read`. -/
theorem sameSender_ipcRecv (host : Host) (i : IpcInput) (cb : RmcCtrlBlock) :
    SameSender { cb with ipcRead := ipcLenMem i cb } (ipcRecv host i cb).1 := by
  have hsame := (sameSender_allocMsg { cb with ipcRead := ipcLenMem i cb }).trans
    (sameSender_growMsg (ipcLen host i cb) (allocMsg { cb with ipcRead := ipcLenMem i cb }).2 _)
  exact hsame.trans (by constructor <;> rfl)

/-- The buffer for the client's message is in hand. -/
theorem owned_ipcRecv (host : Host) (i : IpcInput) {cb : RmcCtrlBlock} {hand : List Nat}
    (h : Owned cb hand) : Owned (ipcRecv host i cb).1 ((ipcRecv host i cb).2 :: hand) := by
  have h₀ : Owned { cb with ipcRead := ipcLenMem i cb } hand :=
    h.congr rfl rfl rfl rfl rfl (fun _ _ => ⟨rfl, rfl⟩)
  exact owned_setMsg (owned_growMsg (owned_allocMsg h₀) _ _) _ _

/-- The buffer of a message that was sent is stored under its number, if
the table takes it. -/
theorem owned_ipcSend (host : Host) (sendto ipcRead : Int) {p : Nat} {cb : RmcCtrlBlock}
    {hand : List Nat} (h : Owned cb (p :: hand)) :
    ∃ leak, Owned (ipcSend host sendto ipcRead p cb) (leak ++ hand)
      ∧ (leak = [] ↔ 0 < sendto ∧ htblGet cb.outmsgbuf cb.self.sequence = none) := by
  have h₁ := owned_sendto (owned_setMsg h p (dataFill host cb.self ipcRead (cb.msgs p))) .mcast p
    (sizeT (ipcRead + sizeofHdr)) (decide (sendto ≤ 0))
  unfold ipcSend
  simp only
  split
  · rename_i hsend
    cases hk : htblGet cb.outmsgbuf cb.self.sequence with
    | some q =>
      refine ⟨[p], ?_, by simp⟩
      refine h₁.congr rfl ?_ rfl rfl rfl (fun _ _ => ⟨rfl, rfl⟩)
      exact htblPut_of_some p hk
    | none =>
      refine ⟨[], Owned.of_count h.registered ?_, by simp [hsend]⟩
      intro x
      have hx := h.count x
      have hput : htblPut cb.outmsgbuf cb.self.sequence p = cb.outmsgbuf.insert cb.self.sequence p :=
        htblPut_of_none p hk
      simp only [RmcCtrlBlock.sendto, RmcCtrlBlock.setMsg, hput, places, cachedMsgs,
        htblValues_insert p hk, List.nil_append, List.count_append, List.count_cons] at hx ⊢
      omega
  · rename_i hsend
    exact ⟨[p], h₁, by simp [hsend]⟩

theorem owned_ipcBranch (host : Host) (i : IpcInput) {cb : RmcCtrlBlock} {hand : List Nat}
    (h : Owned cb hand) :
    ∃ leak, Owned (ipcBranch host i cb) (leak ++ hand) ∧ (leak = [] ↔ IpcKept host i cb) := by
  have hrecv := owned_ipcRecv host i h
  have hout := (sameSender_ipcRecv host i cb).outmsgbuf
  have hseq := (sameSender_ipcRecv host i cb).sequence
  unfold ipcBranch IpcKept
  split
  · rename_i hlen
    simp only
    split
    · rename_i hbody
      obtain ⟨leak, hleak, hiff⟩ := owned_ipcSend host i.sendto (ipcLen host i cb) hrecv
      refine ⟨leak, hleak, hiff.trans ?_⟩
      rw [hout, hseq]
      simp [hlen, hbody]
    · rename_i hbody
      exact ⟨[(ipcRecv host i cb).2], hrecv, by simp [hlen, hbody]⟩
  · rename_i hlen
    refine ⟨[], ?_, by simp [hlen]⟩
    exact h.congr rfl rfl rfl rfl rfl (fun _ _ => ⟨rfl, rfl⟩)

theorem owned_hbeatAckList {cb cb' : RmcCtrlBlock} {acks : List (UInt32 × UInt32)}
    {hand : List Nat} (h : Owned cb hand) (hl : hbeatAckList cb = some (cb', acks)) :
    Owned cb' hand := by
  unfold hbeatAckList at hl
  split at hl
  · simp at hl
  · split at hl
    · simp at hl
    · simp only [Option.some.injEq, Prod.mk.injEq] at hl
      rw [← hl.1]
      exact h.congr rfl rfl rfl rfl rfl (fun _ _ => ⟨rfl, rfl⟩)

theorem owned_hbeatAckPart {cb cb' : RmcCtrlBlock} {acks : Option (List (UInt32 × UInt32))}
    {hand : List Nat} (h : Owned cb hand) (ha : hbeatAckPart cb = some (cb', acks)) :
    Owned cb' hand := by
  unfold hbeatAckPart at ha
  split at ha
  · obtain ⟨⟨cb₁, l⟩, hl, hpair⟩ := Option.map_eq_some_iff.mp ha
    simp only [Prod.mk.injEq] at hpair
    exact hpair.1 ▸ owned_hbeatAckList h hl
  · simp only [Option.some.injEq, Prod.mk.injEq] at ha
    exact ha.1 ▸ h

/-- A heartbeat of our own gives its buffer back; the purge after it moves
buffers from `outmsgbuf` to the pool. -/
theorem owned_sendHbeat (host : Host) (hname pgback : Option (List UInt8)) (flags : UInt16)
    {cb cb' : RmcCtrlBlock} {hand : List Nat} (h : Owned cb hand)
    (hs : sendHbeat host hname pgback flags cb = some cb') : Owned cb' hand := by
  obtain ⟨⟨cb₁, acks⟩, hacks, rfl⟩ := Option.map_eq_some_iff.mp hs
  have h₁ := owned_hbeatAckPart (owned_allocMsg h) hacks
  have h₂ : Owned (hbeatEmit host hname pgback flags (allocMsg cb).2 acks cb₁) hand :=
    owned_releaseMsg (owned_sendto (owned_setMsg h₁ _ _) _ _ _ _)
  refine owned_purge ?_ _
  exact h₂.congr rfl rfl rfl rfl rfl (fun _ _ => ⟨rfl, rfl⟩)

theorem owned_ackBranch {cb cb' : RmcCtrlBlock} {hand : List Nat} (h : Owned cb hand)
    (ha : ackBranch cb = some cb') : Owned cb' hand := by
  unfold ackBranch at ha
  split at ha
  · split at ha
    · simp at ha
    · split at ha
      · simp at ha
      · obtain rfl := Option.some.inj ha
        refine owned_purge ?_ _
        exact h.congr rfl rfl rfl rfl rfl (fun _ _ => ⟨rfl, rfl⟩)
  · exact Option.some.inj ha ▸ h

/-- When the part of an iteration below the switch leaks nothing. -/
def AfterKept (h : Host) (i : Iteration) (cb : RmcCtrlBlock) : Prop :=
  ∀ x, i.ipc = some x → IpcKept h x cb

theorem owned_afterMcast (host : Host) (i : Iteration) {cb cb' : RmcCtrlBlock} {hand : List Nat}
    (h : Owned cb hand) (ha : afterMcast host i cb = some cb') :
    ∃ leak, Owned cb' (leak ++ hand) ∧ (leak = [] ↔ AfterKept host i cb) := by
  rw [afterMcast_eq] at ha
  obtain ⟨cb₂, hb, hack⟩ := Option.bind_eq_some_iff.mp ha
  have hrest : ∀ {hand : List Nat}, Owned (i.ipc.elim cb fun x => ipcBranch host x cb) hand →
      Owned cb' hand := by
    intro hand h₁
    refine owned_ackBranch ?_ hack
    split at hb
    · exact owned_sendHbeat host _ _ _ h₁ hb
    · exact Option.some.inj hb ▸ h₁
  unfold AfterKept
  cases hi : i.ipc with
  | none =>
    rw [hi] at hrest
    exact ⟨[], hrest h, by simp⟩
  | some x =>
    rw [hi] at hrest
    obtain ⟨leak, hleak, hiff⟩ := owned_ipcBranch host x h
    exact ⟨leak, hrest hleak, by simpa using hiff⟩

/-! ## Whole runs -/

/-- When an iteration gives every buffer it takes away or back: the
datagram it handles, if any, is kept, and so is the client's message,
if the iteration gets that far. -/
def Kept (h : Host) (cb : RmcCtrlBlock) (i : Iteration) : Prop :=
  match i.mcast with
  | none => AfterKept h i cb
  | some (_, r) => McastKept h r cb ∧ (¬ (recvMsg r cb).2.2 < sizeofHdr → AfterKept h i cb)

theorem afterKept_congr {h : Host} {i : Iteration} {cb cb' : RmcCtrlBlock}
    (hs : SameSender cb cb') : AfterKept h i cb' ↔ AfterKept h i cb := by
  simp only [AfterKept, IpcKept, ipcLen, ipcLenMem, hs.outmsgbuf, hs.sequence, hs.ipcRead]

/-- One iteration moves what it forgets to release into the hand. -/
theorem owned_iteration (host : Host) (i : Iteration) {cb cb' : RmcCtrlBlock} {hand : List Nat}
    (h : Owned cb hand) (hi : iteration host cb i = some cb') :
    ∃ leak, Owned cb' (leak ++ hand) ∧ (leak = [] ↔ Kept host cb i) := by
  unfold iteration at hi
  unfold Kept
  cases hm : i.mcast with
  | none =>
    rw [hm] at hi
    exact owned_afterMcast host i h hi
  | some sr =>
    obtain ⟨sender, r⟩ := sr
    rw [hm] at hi
    simp only at hi ⊢
    cases hb : mcastBranch host sender r cb with
    | none => simp [hb] at hi
    | some res =>
      obtain ⟨cb₁, flag⟩ := res
      obtain ⟨leak, hleak, hiff⟩ := owned_mcastBranch host sender r h hb
      have hcases := mcastBranch_cases host sender r hb
      cases flag with
      | true =>
        simp only [hb, Option.some.injEq] at hi
        subst hi
        refine ⟨leak, hleak, hiff.trans ⟨fun hk => ⟨hk, ?_⟩, fun hk => hk.1⟩⟩
        -- a datagram that ends the iteration and leaks nothing is a short one
        rcases hcases with ⟨hshort, -⟩ | ⟨hlong, _, _, rfl, rfl, ⟨hshort, -⟩ | ⟨-, hf, -⟩⟩
        · exact fun hlong => absurd hshort hlong
        · rcases hk with hs | ⟨hfull, -⟩
          · exact absurd hs hlong
          · exact absurd hshort hfull
        · simp at hf
      | false =>
        simp only [hb] at hi
        obtain ⟨leak', hleak', hiff'⟩ := owned_afterMcast host i hleak hi
        refine ⟨leak' ++ leak, by rwa [List.append_assoc], ?_⟩
        rw [List.append_eq_nil_iff, hiff, hiff',
          afterKept_congr (sameSender_mcastBranch host sender r hb)]
        have hlong : ¬ (recvMsg r cb).2.2 < sizeofHdr := by
          rcases hcases with ⟨-, hf, -⟩ | ⟨hlong, -⟩
          · simp at hf
          · exact hlong
        constructor
        · rintro ⟨ha, hk⟩
          exact ⟨hk, fun _ => ha⟩
        · rintro ⟨hk, ha⟩
          exact ⟨ha hlong, hk⟩

theorem owned_fillPool (n : Nat) : ∀ {cb : RmcCtrlBlock}, Owned cb [] → Owned (fillPool n cb) [] := by
  induction n with
  | zero => intro cb h; exact h
  | succ n ih => intro cb h; exact ih (owned_releaseMsg (owned_newMsg h))

/-- After `rmcast_init` the pool has every buffer. -/
theorem owned_rmcastInit (g : Garbage) (a : InitArgs) : Owned (rmcastInit g a) [] := by
  unfold rmcastInit
  apply owned_fillPool
  refine ⟨?_, List.Perm.refl _⟩
  intro k mp hk
  simp at hk

/-- Some buffers are in one place and the others are lost, in every state
of every run. -/
theorem owned_run (host : Host) {cb cb' : RmcCtrlBlock} {is : List Iteration}
    (h : ∃ hand, Owned cb hand) (hr : run (iteration host) cb is = some cb') :
    ∃ hand, Owned cb' hand := by
  refine run_invariant_free (I := fun cb => ∃ hand, Owned cb hand) ?_ h hr
  rintro s i s' ⟨hand, hs⟩ hi
  obtain ⟨leak, hleak, -⟩ := owned_iteration host i hs hi
  exact ⟨leak ++ hand, hleak⟩

/-- No buffer is ever in two places, whatever the daemon is sent. -/
theorem places_nodup (host : Host) (g : Garbage) (a : InitArgs) {cb : RmcCtrlBlock}
    {is : List Iteration} (hr : run (iteration host) (rmcastInit g a) is = some cb) :
    (places cb).Nodup := by
  obtain ⟨hand, h⟩ := owned_run host ⟨[], owned_rmcastInit g a⟩ hr
  exact (List.nodup_append.mp (h.ledger.nodup_iff.mpr List.nodup_range)).1

/-- **Conservation.** After `rmcast_init`, every buffer is in exactly one
place after each iteration of a run exactly when no iteration of the run
takes one of the exits that forget a buffer. -/
theorem conserved_throughout_iff (host : Host) (g : Garbage) (a : InitArgs)
    (is : List Iteration) :
    Throughout (iteration host) Conserved (rmcastInit g a) is
      ↔ Guarded (iteration host) (Kept host) (rmcastInit g a) is := by
  refine throughout_iff_guarded (I := fun cb => ∃ hand, Owned cb hand) ?_ ?_
    ⟨[], owned_rmcastInit g a⟩ (owned_rmcastInit g a).conserved
  · rintro s i s' ⟨hand, hs⟩ hi
    obtain ⟨leak, hleak, -⟩ := owned_iteration host i hs hi
    exact ⟨leak ++ hand, hleak⟩
  · rintro s i s' ⟨hand, hs⟩ hc hi
    obtain ⟨leak, hleak, hiff⟩ := owned_iteration host i hs hi
    rw [hleak.conserved_iff, hs.hand_eq_nil hc, List.append_nil]
    exact hiff

/-! ## The queue of free buffers -/

/-- What the daemon does with the pool. -/
inductive PoolOp where
  /-- `release_msg(new_msg())`, in `rmcast_init`. -/
  | fill
  | alloc
  | release (p : Nat)

/-- The pool as a list, with the buffer that is handed out. -/
def poolStep (cb : RmcCtrlBlock) : PoolOp → RmcCtrlBlock × Option Nat
  | .fill => (releaseMsg (newMsg cb).1 (newMsg cb).2, none)
  | .alloc => ((allocMsg cb).1, some (allocMsg cb).2)
  | .release p => (releaseMsg cb p, none)

/-- The same calls on the queue itself, as the source makes them. The list
in the control block is not read. -/
def queueStep (s : Mqueue Nat × RmcCtrlBlock) :
    PoolOp → Option ((Mqueue Nat × RmcCtrlBlock) × Option Nat)
  | .fill => some ((mqueueAdd s.1 (newMsg s.2).2, (newMsg s.2).1), none)
  | .alloc =>
      match mqueueRemove s.1 with
      | (q, some p) => some ((q, s.2), some p)
      | (q, none) => some ((q, (newMsg s.2).1), some (newMsg s.2).2)
  | .release p => some ((mqueueAdd s.1 p, s.2), none)

/-- The queue holds the buffers of the list, and everything else is equal. -/
structure HoldsFree (s : Mqueue Nat × RmcCtrlBlock) (cb : RmcCtrlBlock) : Prop where
  queue : ∃ as fs, Stacked s.1 as fs cb.bufmsgq
  rest : ∃ pool, s.2 = { cb with bufmsgq := pool }

/-- **One call.** -/
theorem holdsFree_queueStep (s : Mqueue Nat × RmcCtrlBlock) (cb : RmcCtrlBlock) (op : PoolOp)
    (h : HoldsFree s cb) :
    ∃ s', queueStep s op = some (s', (poolStep cb op).2) ∧ HoldsFree s' (poolStep cb op).1 := by
  obtain ⟨q, cb₁⟩ := s
  obtain ⟨⟨as, fs, hq⟩, pool, hrest⟩ := h
  dsimp only at hq hrest
  subst hrest
  cases op with
  | fill => exact ⟨_, rfl, stacked_mqueueAdd hq _, pool, rfl⟩
  | release p => exact ⟨_, rfl, stacked_mqueueAdd hq p, pool, rfl⟩
  | alloc =>
    obtain ⟨hhead, hq'⟩ := stacked_mqueueRemove hq
    rcases hremove : mqueueRemove q with ⟨q', content⟩
    rw [hremove] at hhead hq'
    dsimp only at hhead hq'
    cases hpool : cb.bufmsgq with
    | nil =>
      rw [hpool] at hhead hq'
      subst hhead
      have halloc : allocMsg cb = newMsg cb := by simp only [allocMsg, hpool]
      refine ⟨(q', (newMsg { cb with bufmsgq := pool }).1), ?_, ?_, pool, ?_⟩
      · simp only [queueStep, hremove, poolStep, halloc]
        rfl
      · simp only [poolStep, halloc]
        exact hpool ▸ hq'
      · simp only [poolStep, halloc]
        rfl
    | cons p free =>
      rw [hpool] at hhead hq'
      subst hhead
      have halloc : allocMsg cb = ({ cb with bufmsgq := free }, p) := by
        simp only [allocMsg, hpool]
      refine ⟨(q', { cb with bufmsgq := pool }), ?_, ?_, pool, ?_⟩
      · simp only [queueStep, hremove, poolStep, halloc]
        rfl
      · simp only [poolStep, halloc]
        exact hq'
      · simp only [poolStep, halloc]

/-- **The pool of buffers.** The queue of free buffers, with the pool of a
hundred nodes that `rmcast_init` gives it, hands out the buffers that a
list of them would, whatever the daemon allocates and releases. -/
theorem bufmsgq_answers (garbage : Nat → MqueueItem Nat) (cb : RmcCtrlBlock) (ops : List PoolOp) :
    answers queueStep (mqueueInit garbage 100, cb) ops
      = some (replies poolStep { cb with bufmsgq := [] } ops) := by
  obtain ⟨fs, hq⟩ := stacked_mqueueInit garbage 100
  have hstart : HoldsFree (mqueueInit garbage 100, cb) { cb with bufmsgq := [] } :=
    ⟨⟨[], fs, hq⟩, cb.bufmsgq, rfl⟩
  exact (answers_eq_of_simulation (fun s cb op h _ => holdsFree_queueStep s cb op h) hstart
    checked_true).1

/-! ## A run that loses a buffer -/

/-- A little-endian host whose sends on `ipc_sock` take one byte each. -/
def littleHost : Host := ⟨.little, fun _ => 0⟩

/-- Memory that holds zeros. -/
def zeroGarbage : Garbage :=
  { msgs := fun _ => ⟨fun _ => 0, 0, 0⟩
    mems := fun _ => rmcastMemberInit [] 0 0
    items := fun _ => ⟨none, none⟩
    ipcRead := fun _ => 0 }

/-- `rmcast_init(128, 20, ...)` without acks on a host `h` of id 1. -/
def plainArgs : InitArgs :=
  { maxMsgSize := 128, nbufs := 20, hbAck := false, hostname := [104], id := 1, session := 7 }

/-- The address 0.0.0.0, port 0. -/
def anyAddr : SockaddrIn := ⟨List.replicate 16 0, rfl⟩

/-- An iteration that only receives a datagram. -/
def receiving (bytes : List UInt8) : Iteration :=
  { mcast := some (anyAddr, .ok bytes), ipc := none, hbeat := false }

/-- Node 2 announces number 5, then sends it with the one-byte payload 9:
the delivered message's buffer is in no place any more. -/
theorem conserved_fails :
    ∃ cb, run (iteration littleHost) (rmcastInit zeroGarbage plainArgs)
        [receiving [0, 61, 0, 16, 0, 0, 0, 5, 0, 0, 0, 2,
            0, 0, 0, 0, 0, 0, 0, 0, 0, 0, 0, 3, 0, 0, 0, 0],
         receiving [0, 60, 0, 1, 0, 0, 0, 5, 0, 0, 0, 2, 9]] = some cb
      ∧ ¬ Conserved cb := by
  have h : (run (iteration littleHost) (rmcastInit zeroGarbage plainArgs)
      [receiving [0, 61, 0, 16, 0, 0, 0, 5, 0, 0, 0, 2,
          0, 0, 0, 0, 0, 0, 0, 0, 0, 0, 0, 3, 0, 0, 0, 0],
       receiving [0, 60, 0, 1, 0, 0, 0, 5, 0, 0, 0, 2, 9]]).map
      (fun cb => ((places cb).length, cb.nmsgs)) = some (19, 20) := by
    decide +kernel
  obtain ⟨cb, hrun, hcount⟩ := Option.map_eq_some_iff.mp h
  simp only [Prod.mk.injEq] at hcount
  refine ⟨cb, hrun, fun hc => ?_⟩
  have hlen := List.Perm.length_eq hc
  rw [hcount.1, List.length_range, hcount.2] at hlen
  omega

end Rms.V01
