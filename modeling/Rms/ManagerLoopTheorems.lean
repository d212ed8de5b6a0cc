/-
Rms.ManagerLoopTheorems — who owns a message buffer of `rms_manager`.

A buffer can be in the pool, stored in `outmsgbuf` under a number, or
cached for a peer under a number (`Place`). `Sound` says that no buffer
is in two places. Each function gets one lemma that says how it moves
the buffer in its hand: the rules are `Sound.shrink`, for what takes
buffers away, and `Sound.add`, for what puts a buffer that is in no
place into one.

Only one exit puts a buffer somewhere without knowing that it is in no
place: the error exit of the IPC branch after a failed `recv` of the
length, which releases whatever `msg` was left bound to. A run has no
buffer with two owners exactly if `msg` is in no place at each of these
exits (`rms_single_owner_iff`).
-/
import Rms.Lib.Runs
import Rms.ManagerLoop

namespace Rms.Manager.Loop

open Rms.Util Rms.Runs

/-! ## Places -/

/-- Where a buffer can be. -/
inductive Place
  | pool
  | sent (seq : UInt32)
  | cached (id seq : UInt32)

def At (cb : Rmscb) (q : Nat) : Place → Prop
  | .pool => q ∈ cb.sqMetaMsgPool
  | .sent seq => htblGet cb.outmsgbuf seq = some q
  | .cached id seq => ∃ pp, htblGet cb.htPeers id = some pp
      ∧ htblGet (cb.peers pp).htUnseqMsgs seq = some q

/-- The buffer is in no place. -/
def Free (cb : Rmscb) (q : Nat) : Prop := ∀ a, ¬ At cb q a

/-- Every peer is registered under its own id. -/
def Registered (cb : Rmscb) : Prop :=
  ∀ id pp, htblGet cb.htPeers id = some pp → pp < cb.npeers ∧ (cb.peers pp).id = id

/-- No buffer is in two places. -/
structure Sound (cb : Rmscb) : Prop where
  registered : Registered cb
  pool_nodup : cb.sqMetaMsgPool.Nodup
  single : ∀ q a b, At cb q a → At cb q b → a = b
  created : ∀ q a, At cb q a → q < cb.nmsgs
  bound : ∀ p, cb.msg = some p → p < cb.nmsgs

/-- A buffer that exists and is in no place. -/
structure InHand (cb : Rmscb) (p : Nat) : Prop where
  free : Free cb p
  created : p < cb.nmsgs

section Rules

variable {cb cb' : Rmscb} {p : Nat}

theorem InHand.mono (h : InHand cb p) (hat : ∀ q a, At cb' q a → At cb q a)
    (hn : cb.nmsgs ≤ cb'.nmsgs) : InHand cb' p :=
  ⟨fun a ha => h.free a (hat p a ha), Nat.lt_of_lt_of_le h.created hn⟩

/-- Buffers are only taken away. -/
theorem Sound.shrink (h : Sound cb) (hreg : Registered cb') (hnodup : cb'.sqMetaMsgPool.Nodup)
    (hat : ∀ q a, At cb' q a → At cb q a) (hn : cb.nmsgs ≤ cb'.nmsgs)
    (hmsg : ∀ p, cb'.msg = some p → p < cb'.nmsgs) : Sound cb' where
  registered := hreg
  pool_nodup := hnodup
  single q a b ha hb := h.single q a b (hat q a ha) (hat q b hb)
  created q a ha := Nat.lt_of_lt_of_le (h.created q a (hat q a ha)) hn
  bound := hmsg

/-- A buffer in no place is put into one. -/
theorem Sound.add (h : Sound cb) (hp : InHand cb p) {b : Place} (hreg : Registered cb')
    (hnodup : cb'.sqMetaMsgPool.Nodup)
    (hat : ∀ q a, At cb' q a → At cb q a ∨ (q = p ∧ a = b)) (hn : cb'.nmsgs = cb.nmsgs)
    (hmsg : cb'.msg = cb.msg) : Sound cb' where
  registered := hreg
  pool_nodup := hnodup
  single q a c ha hc := by
    cases hat q a ha with
    | inl ha' =>
      cases hat q c hc with
      | inl hc' => exact h.single q a c ha' hc'
      | inr hc' => exact absurd (hc'.1 ▸ ha') (hp.free a)
    | inr ha' =>
      cases hat q c hc with
      | inl hc' => exact absurd (ha'.1 ▸ hc') (hp.free c)
      | inr hc' => rw [ha'.2, hc'.2]
  created q a ha := by
    rw [hn]
    cases hat q a ha with
    | inl ha' => exact h.created q a ha'
    | inr ha' => exact ha'.1 ▸ hp.created
  bound p hp' := by
    rw [hn]
    exact h.bound p (hmsg ▸ hp')

/-- `msg` is rebound. -/
theorem Sound.bind (h : Sound cb) (hp : p < cb.nmsgs) : Sound { cb with msg := some p } := by
  refine h.shrink h.registered h.pool_nodup (fun _ _ ha => ha) le_rfl ?_
  intro q hq
  cases hq
  exact hp

end Rules

/-! ## The pool -/

section Moves

variable {cb : Rmscb} {p pp : Nat} {peer : RmsMetaPeer Nat}

/-- A buffer comes out of the pool, or is new. -/
theorem sound_alloc (h : Sound cb) :
    Sound (allocMetaMsg cb).1 ∧ InHand (allocMetaMsg cb).1 (allocMetaMsg cb).2 := by
  unfold allocMetaMsg
  split
  · rename_i q pool hpool
    have hnodup : (q :: pool).Nodup := hpool ▸ h.pool_nodup
    have hat : ∀ r a, At { cb with sqMetaMsgPool := pool, msg := some q } r a → At cb r a := by
      intro r a ha
      cases a with
      | pool =>
        simp only [At, hpool]
        exact List.mem_cons_of_mem q ha
      | sent seq => exact ha
      | cached id seq => exact ha
    have hq : At cb q .pool := by simp [At, hpool]
    have hlt : q < cb.nmsgs := h.created q .pool hq
    refine ⟨h.shrink h.registered (List.nodup_cons.mp hnodup).2 hat le_rfl ?_, ?_, hlt⟩
    · intro r hr
      cases hr
      exact hlt
    · intro a ha
      -- the only place it had was the pool
      have heq : a = .pool := h.single q a .pool (hat q a ha) hq
      subst heq
      exact (List.nodup_cons.mp hnodup).1 ha
  · refine ⟨h.shrink h.registered h.pool_nodup (fun _ _ ha => ha) (Nat.le_succ _) ?_, ?_,
      Nat.lt_succ_self _⟩
    · intro r hr
      cases hr
      exact Nat.lt_succ_self _
    · intro a ha
      exact absurd (h.created _ a ha) (lt_irrefl _)

theorem at_release {q : Nat} {a : Place} :
    At (releaseMetaMsg cb p) q a ↔ At cb q a ∨ (q = p ∧ a = .pool) := by
  cases a with
  | pool => simp [At, releaseMetaMsg, or_comm]
  | sent seq => simp [At, releaseMetaMsg]
  | cached id seq => simp [At, releaseMetaMsg]

theorem sound_release (h : Sound cb) (hp : InHand cb p) : Sound (releaseMetaMsg cb p) := by
  refine h.add hp h.registered ?_ (fun q a => at_release.mp) rfl rfl
  exact List.nodup_cons.mpr ⟨hp.free .pool, h.pool_nodup⟩

/-! ## The caches -/

theorem setPeer_peers (cb : Rmscb) (pp : Nat) (peer : RmsMetaPeer Nat) :
    (cb.setPeer pp peer).peers = Function.update cb.peers pp peer :=
  rfl

/-- A peer keeps its id and gets nothing new into its cache. -/
structure Loses (old new : RmsMetaPeer Nat) : Prop where
  id : new.id = old.id
  cache : ∀ seq q, htblGet new.htUnseqMsgs seq = some q → htblGet old.htUnseqMsgs seq = some q

theorem at_of_setPeer (hl : Loses (cb.peers pp) peer) {q : Nat} {a : Place}
    (ha : At (cb.setPeer pp peer) q a) : At cb q a := by
  cases a with
  | pool => exact ha
  | sent seq => exact ha
  | cached id seq =>
    obtain ⟨pp', hk, hget⟩ := ha
    refine ⟨pp', hk, ?_⟩
    by_cases heq : pp' = pp
    · subst heq
      simp only [setPeer_peers, Function.update_self] at hget
      exact hl.cache seq q hget
    · simpa [setPeer_peers, Function.update_of_ne heq] using hget

theorem registered_setPeer (h : Registered cb) (hid : peer.id = (cb.peers pp).id) :
    Registered (cb.setPeer pp peer) := by
  intro id pp' hk
  obtain ⟨hlt, hid'⟩ := h id pp' hk
  refine ⟨hlt, ?_⟩
  by_cases heq : pp' = pp
  · subst heq
    simp [setPeer_peers, hid, hid']
  · simpa [setPeer_peers, Function.update_of_ne heq] using hid'

theorem sound_setPeer (h : Sound cb) (hl : Loses (cb.peers pp) peer) :
    Sound (cb.setPeer pp peer) :=
  h.shrink (registered_setPeer h.registered hl.id) h.pool_nodup (fun _ _ => at_of_setPeer hl)
    le_rfl h.bound

theorem inHand_setPeer (h : InHand cb p) (hl : Loses (cb.peers pp) peer) :
    InHand (cb.setPeer pp peer) p :=
  h.mono (fun _ _ => at_of_setPeer hl) le_rfl

/-- A buffer goes into the cache of a registered peer, unless the number is
taken. -/
theorem sound_cache (h : Sound cb) (hp : InHand cb p) {id seq : UInt32}
    (hk : htblGet cb.htPeers id = some pp) (peer : RmsMetaPeer Nat)
    (hid : peer.id = (cb.peers pp).id)
    (hcache : peer.htUnseqMsgs = htblPut (cb.peers pp).htUnseqMsgs seq p) :
    Sound (cb.setPeer pp peer) := by
  refine h.add hp (b := .cached id seq) (registered_setPeer h.registered hid) h.pool_nodup ?_
    rfl rfl
  intro q a ha
  cases a with
  | pool => exact .inl ha
  | sent seq => exact .inl ha
  | cached id' seq' =>
    obtain ⟨pp', hk', hget⟩ := ha
    by_cases heq : pp' = pp
    · subst heq
      simp only [setPeer_peers, Function.update_self, hcache] at hget
      cases htblGet_put_cases hget with
      | inl hold => exact .inl ⟨pp', hk', hold⟩
      | inr hnew =>
        -- the peer is registered under one id only
        have hid' : id' = id := (h.registered id' pp' hk').2.symm.trans (h.registered id pp' hk).2
        exact .inr ⟨hnew.2.symm, by rw [hid', hnew.1]⟩
    · refine .inl ⟨pp', hk', ?_⟩
      simpa [setPeer_peers, Function.update_of_ne heq] using hget

/-- A buffer that is taken out of the cache of a registered peer is in no
place any more. -/
theorem inHand_uncache (h : Sound cb) {id seq : UInt32} {q : Nat}
    (hk : htblGet cb.htPeers id = some pp)
    (hget : htblGet (cb.peers pp).htUnseqMsgs seq = some q)
    (hl : Loses (cb.peers pp) peer) (hgone : htblGet peer.htUnseqMsgs seq = none) :
    InHand (cb.setPeer pp peer) q := by
  have hq : At cb q (.cached id seq) := ⟨pp, hk, hget⟩
  refine ⟨?_, h.created q _ hq⟩
  intro a ha
  have heq : a = .cached id seq := h.single q a _ (at_of_setPeer hl ha) hq
  subst heq
  obtain ⟨pp', hk', hget'⟩ := ha
  have hpp : pp' = pp := Option.some.inj (hk'.symm.trans hk)
  subst hpp
  simp [setPeer_peers, hgone] at hget'

/-! ## The cases of the switch -/

/-- A NACK changes nothing but what is counted and sent. -/
theorem sendNack_eq (pp : Nat) (cb : Rmscb) : ∃ lost selfLost nacks,
    sendNack pp cb = { cb.setPeer pp { cb.peers pp with lost := lost } with
      selfLost := selfLost, nacks := nacks } :=
  ⟨_, _, _, rfl⟩

theorem sound_sendNack (h : Sound cb) : Sound (sendNack pp cb) := by
  obtain ⟨lost, _, _, heq⟩ := sendNack_eq pp cb
  have hs : Sound (cb.setPeer pp { cb.peers pp with lost := lost }) :=
    sound_setPeer h ⟨rfl, fun _ _ hget => hget⟩
  rw [heq]
  exact { hs with }

theorem inHand_sendNack (h : InHand cb p) : InHand (sendNack pp cb) p := by
  obtain ⟨lost, _, _, heq⟩ := sendNack_eq pp cb
  have hp : InHand (cb.setPeer pp { cb.peers pp with lost := lost }) p :=
    inHand_setPeer h ⟨rfl, fun _ _ hget => hget⟩
  rw [heq]
  exact { hp with }

/-- What the release loop takes out of the cache is in no place afterwards. -/
theorem sound_releaseUnseq {id : UInt32} (n : Nat) :
    ∀ {cb : Rmscb}, Sound cb → htblGet cb.htPeers id = some pp → Sound (releaseUnseq pp n cb) := by
  induction n with
  | zero =>
    intro cb h _
    exact h
  | succ n ih =>
    intro cb h hk
    simp only [releaseUnseq]
    split
    · exact h
    · rename_i q t hrem
      obtain ⟨hget, ht⟩ := htblRemove_eq_some.mp hrem
      have hb : Sound { cb with msg := some q } :=
        h.bind (h.created q (.cached id _) ⟨pp, hk, hget⟩)
      refine ih ?_ hk
      refine sound_setPeer ?_ ?_
      · exact { hb with }
      · subst ht
        exact ⟨rfl, fun _ _ hget => htblGet_of_erase hget⟩

theorem sound_dataMsg (h : Sound cb) (hp : InHand cb p) : Sound (dataMsg cb p) := by
  unfold dataMsg
  dsimp only
  split
  · exact sound_release h hp
  · rename_i pp hk
    split
    · split
      · -- cached; the NACK gets a buffer of its own
        obtain ⟨ha, hq⟩ := sound_alloc (sound_cache h hp hk { cb.peers pp with
          sequenceSent := (cb.msgs p).sequence
          htUnseqMsgs := htblPut (cb.peers pp).htUnseqMsgs (cb.msgs p).sequence p } rfl rfl)
        exact sound_release (sound_sendNack ha) (inHand_sendNack hq)
      · have hl : Loses (cb.peers pp) { cb.peers pp with sequenceSent := (cb.msgs p).sequence } :=
          ⟨rfl, fun _ _ hget => hget⟩
        exact sound_release (sound_setPeer h hl) (inHand_setPeer hp hl)
    · refine sound_releaseUnseq _ ?_ hk
      refine sound_setPeer ?_ ?_
      · exact { h with }
      · exact ⟨rfl, fun _ _ hget => hget⟩

/-- A new peer has an empty cache. -/
theorem at_of_hbeatPeer (h : Registered cb) {hbeat : RmsMsgHbeat} {q : Nat} {a : Place}
    (ha : At (hbeatPeer cb hbeat).1 q a) : At cb q a := by
  simp only [hbeatPeer, Rmscb.lift, Manager.hbeatPeer] at ha
  split at ha
  · exact ha
  · rename_i hnone
    cases a with
    | pool => exact ha
    | sent seq => exact ha
    | cached id seq =>
      obtain ⟨pp, hk, hget⟩ := ha
      simp only [htblPut_of_none _ hnone, htblGet_insert] at hk
      split at hk
      · cases hk
        simp [rmsMetaPeerInit] at hget
      · refine ⟨pp, hk, ?_⟩
        have hne : pp ≠ cb.npeers := Nat.ne_of_lt (h id pp hk).1
        simpa [Function.update_of_ne hne] using hget

theorem registered_hbeatPeer (h : Registered cb) (hbeat : RmsMsgHbeat) :
    Registered (hbeatPeer cb hbeat).1 := by
  simp only [hbeatPeer, Rmscb.lift, Manager.hbeatPeer]
  split
  · exact h
  · rename_i hnone
    intro id pp hk
    simp only [htblPut_of_none _ hnone, htblGet_insert] at hk
    split at hk
    · rename_i hid
      cases hk
      simp [rmsMetaPeerInit, hid]
    · obtain ⟨hlt, hid⟩ := h id pp hk
      exact ⟨Nat.lt_succ_of_lt hlt, by simpa [Function.update_of_ne (Nat.ne_of_lt hlt)] using hid⟩

theorem sound_hbeatPeer (h : Sound cb) (hp : InHand cb p) (hbeat : RmsMsgHbeat) :
    Sound (hbeatPeer cb hbeat).1 ∧ InHand (hbeatPeer cb hbeat).1 p := by
  have hat : ∀ q a, At (hbeatPeer cb hbeat).1 q a → At cb q a :=
    fun _ _ => at_of_hbeatPeer h.registered
  have hs : Sound (hbeatPeer cb hbeat).1 :=
    h.shrink (registered_hbeatPeer h.registered hbeat) h.pool_nodup hat le_rfl h.bound
  exact ⟨hs, hp.mono hat le_rfl⟩

theorem sound_heartbeatMsg (h : Sound cb) (hp : InHand cb p) (hbeat : RmsMsgHbeat) :
    Sound (heartbeatMsg cb p hbeat) := by
  obtain ⟨hs, hp⟩ := sound_hbeatPeer h hp hbeat
  simp only [heartbeatMsg]
  generalize (hbeatPeer cb hbeat).1 = cb₁ at hs hp ⊢
  generalize (hbeatPeer cb hbeat).2 = pp
  have hl : ∀ lost sync, Loses (cb₁.peers pp)
      { cb₁.peers pp with lost := lost, sequenceSync := sync } :=
    fun _ _ => ⟨rfl, fun _ _ hget => hget⟩
  split
  · split
    · exact sound_release (sound_sendNack (sound_setPeer hs (hl _ _)))
        (inHand_sendNack (inHand_setPeer hp (hl _ _)))
    · exact sound_release (sound_setPeer hs (hl _ _)) (inHand_setPeer hp (hl _ _))
  · exact sound_release (sound_setPeer hs (hl _ _)) (inHand_setPeer hp (hl _ _))

theorem sound_resend (h : Sound cb) (seq : UInt32) : Sound (resend cb seq) := by
  unfold resend
  split
  · exact h
  · rename_i q hget
    have hb := h.bind (h.created q (.sent seq) hget)
    exact { hb with }

theorem sound_foldl_resend (h : Sound cb) (seqs : List UInt32) :
    Sound (seqs.foldl resend cb) := by
  induction seqs generalizing cb with
  | nil => exact h
  | cons seq seqs ih => exact ih (sound_resend h seq)

theorem nackMsg_eq {count : UInt32} {seqs : List UInt32} {cb' : Rmscb}
    (hb : nackMsg cb count seqs = some cb') :
    ∃ seqs' : List UInt32, cb' = seqs'.foldl resend cb := by
  unfold nackMsg at hb
  dsimp only at hb
  split at hb
  · exact ⟨_, (Option.some.inj hb).symm⟩
  · cases hb

/-- The buffers in the cache of a registered peer go into the pool. -/
theorem sound_drain {id : UInt32} (h : Sound cb) (hk : htblGet cb.htPeers id = some pp)
    (key : UInt32) : Sound (drain pp cb key) := by
  simp only [drain]
  split
  · exact h
  · rename_i q t hrem
    obtain ⟨hget, ht⟩ := htblRemove_eq_some.mp hrem
    have hb : Sound { cb with msg := some q } :=
      h.bind (h.created q (.cached id _) ⟨pp, hk, hget⟩)
    have hl : Loses (cb.peers pp) { cb.peers pp with htUnseqMsgs := t } := by
      subst ht
      exact ⟨rfl, fun _ _ hget => htblGet_of_erase hget⟩
    apply sound_release (sound_setPeer hb hl)
    apply inHand_uncache hb hk hget hl
    simp [ht, htblGet_erase]

/-- Draining does not look at who is registered. -/
theorem drain_htPeers (pp : Nat) (t : Htbl Nat) (cb : Rmscb) (key : UInt32) :
    drain pp { cb with htPeers := t } key = { drain pp cb key with htPeers := t }
      ∧ (drain pp cb key).htPeers = cb.htPeers := by
  simp only [drain]
  split <;> exact ⟨rfl, rfl⟩

theorem foldl_drain_htPeers (pp : Nat) (t : Htbl Nat) (keys : List UInt32) :
    ∀ cb : Rmscb, keys.foldl (drain pp) { cb with htPeers := t }
      = { keys.foldl (drain pp) cb with htPeers := t } := by
  induction keys with
  | nil =>
    intro cb
    rfl
  | cons key keys ih =>
    intro cb
    rw [List.foldl_cons, (drain_htPeers pp t cb key).1]
    exact ih _

theorem sound_foldl_drain {id : UInt32} (keys : List UInt32) :
    ∀ {cb : Rmscb}, Sound cb → htblGet cb.htPeers id = some pp →
      Sound (keys.foldl (drain pp) cb) ∧ (keys.foldl (drain pp) cb).htPeers = cb.htPeers := by
  induction keys with
  | nil =>
    intro cb h _
    exact ⟨h, rfl⟩
  | cons key keys ih =>
    intro cb h hk
    have hkeep := (drain_htPeers pp cb.htPeers cb key).2
    have hrec := ih (sound_drain h hk key) (hkeep ▸ hk)
    rwa [hkeep] at hrec

theorem sound_leaveMsg {id : UInt32} {cb' : Rmscb} (h : Sound cb)
    (hb : leaveMsg cb id = some cb') : Sound cb' := by
  unfold leaveMsg at hb
  split at hb
  · obtain rfl := Option.some.inj hb
    exact h
  · rename_i pp t hrem
    obtain ⟨hk, ht⟩ := htblRemove_eq_some.mp hrem
    obtain ⟨r, -, rfl⟩ := Option.map_eq_some_iff.mp hb
    rw [foldl_drain_htPeers]
    -- the cache is emptied first, and then the peer is forgotten
    obtain ⟨hd, hkeep⟩ := sound_foldl_drain (htblEnumIntKeys (cb.peers pp).htUnseqMsgs
      (htblCount (cb.peers pp).htUnseqMsgs)) h hk
    generalize List.foldl (drain pp) cb _ = cb₁ at hd hkeep ⊢
    have hsub : ∀ k p, htblGet t k = some p → htblGet cb₁.htPeers k = some p := by
      intro k p hget
      rw [hkeep]
      exact htblGet_of_erase (ht ▸ hget)
    refine hd.shrink (fun k p hget => hd.registered k p (hsub k p hget)) hd.pool_nodup ?_ le_rfl
      hd.bound
    intro q a ha
    cases a with
    | pool => exact ha
    | sent seq => exact ha
    | cached id seq =>
      obtain ⟨p, hget, hq⟩ := ha
      exact ⟨p, hsub id p hget, hq⟩

theorem sound_dispatch {packet : Packet} {cb' : Rmscb} (h : Sound cb) (hp : InHand cb p)
    (hb : dispatch cb p packet = some cb') : Sound cb' := by
  cases packet with
  | data msg =>
    have hs : Sound { cb with msgs := Function.update cb.msgs p msg } := { h with }
    obtain rfl := Option.some.inj hb
    exact sound_dataMsg hs { hp with }
  | heartbeat hbeat =>
    obtain rfl := Option.some.inj hb
    exact sound_heartbeatMsg h hp hbeat
  | nack count seqs =>
    obtain ⟨seqs', rfl⟩ := nackMsg_eq hb
    exact sound_foldl_resend h seqs'
  | leave id => exact sound_leaveMsg h hb
  | other =>
    obtain rfl := Option.some.inj hb
    exact sound_release h hp

theorem sound_mcastBranch {packet : Option Packet} {cb' : Rmscb} (h : Sound cb)
    (hb : mcastBranch cb packet = some cb') : Sound cb' := by
  obtain ⟨ha, hp⟩ := sound_alloc h
  cases packet with
  | none =>
    obtain rfl := Option.some.inj hb
    exact ha
  | some packet => exact sound_dispatch ha hp hb

/-! ## The other branches -/

theorem sound_ipcSend (h : Sound cb) (hp : InHand cb p) (data : List UInt8) :
    Sound (ipcSend cb p data) := by
  refine h.add hp (b := .sent cb.selfSent) h.registered h.pool_nodup ?_ rfl rfl
  intro q a ha
  cases a with
  | pool => exact .inl ha
  | sent seq =>
    cases htblGet_put_cases ha with
    | inl hold => exact .inl hold
    | inr hnew => exact .inr ⟨hnew.2.symm, by rw [hnew.1]⟩
  | cached id seq => exact .inl ha

theorem sound_purge (n : Nat) : ∀ {cb : Rmscb}, Sound cb → Sound (purge n cb) := by
  induction n with
  | zero =>
    intro cb h
    exact h
  | succ n ih =>
    intro cb h
    simp only [purge]
    split
    · exact ih { h with }
    · rename_i q t hrem
      obtain ⟨hget, ht⟩ := htblRemove_eq_some.mp hrem
      have hat : ∀ r a, At { cb with outmsgbuf := t, msg := some q } r a → At cb r a := by
        intro r a ha
        cases a with
        | pool => exact ha
        | sent seq => exact htblGet_of_erase (ht ▸ ha)
        | cached id seq => exact ha
      have hlt : q < cb.nmsgs := h.created q (.sent _) hget
      have hs : Sound { cb with outmsgbuf := t, msg := some q } := by
        refine h.shrink h.registered h.pool_nodup hat le_rfl ?_
        intro r hr
        cases hr
        exact hlt
      have hq : InHand { cb with outmsgbuf := t, msg := some q } q := by
        refine ⟨?_, hlt⟩
        intro a ha
        have heq : a = .sent cb.oldestSeq := h.single q a _ (hat q a ha) hget
        subst heq
        simp [At, ht, htblGet_erase] at ha
      have hr := sound_release hs hq
      exact ih { hr with }

/-- A purge moves buffers from `outmsgbuf` to the pool, and does nothing
else. -/
theorem purge_eq (n : Nat) : ∀ cb : Rmscb, ∃ pool out oldest msg,
    purge n cb = { cb with
      sqMetaMsgPool := pool, outmsgbuf := out, oldestSeq := oldest, msg := msg } := by
  induction n with
  | zero =>
    intro cb
    exact ⟨_, _, _, _, rfl⟩
  | succ n ih =>
    intro cb
    simp only [purge]
    split
    · obtain ⟨pool, out, oldest, msg, heq⟩ := ih { cb with oldestSeq := cb.oldestSeq + 1 }
      exact ⟨pool, out, oldest, msg, heq⟩
    · rename_i q t hrem
      obtain ⟨pool, out, oldest, msg, heq⟩ := ih
        { releaseMetaMsg { cb with outmsgbuf := t, msg := some q } q with
          oldestSeq := cb.oldestSeq + 1 }
      exact ⟨pool, out, oldest, msg, heq⟩

theorem le_nmsgs_alloc (cb : Rmscb) : cb.nmsgs ≤ (allocMetaMsg cb).1.nmsgs := by
  unfold allocMetaMsg
  split <;> simp

/-- A purge by a function that has a variable of its own. -/
theorem sound_purge_local (h : Sound cb) (n : Nat) {msg : Option Nat}
    (hmsg : ∀ q, msg = some q → q < cb.nmsgs) : Sound { purge n cb with msg := msg } := by
  have hs := sound_purge n h
  obtain ⟨_, _, _, _, heq⟩ := purge_eq n cb
  have hn : (purge n cb).nmsgs = cb.nmsgs := by rw [heq]
  refine hs.shrink hs.registered hs.pool_nodup (fun _ _ ha => ha) le_rfl ?_
  intro q hq
  exact Nat.lt_of_lt_of_le (hmsg q hq) (Nat.le_of_eq hn.symm)

/-- A loop over `mq_peers` moves its cursor. -/
theorem peekPeers_eq {n : Nat} {r : Rmscb × List Nat} (hp : peekPeers n cb = some r) :
    ∃ q, r.1 = { cb with mqPeers := q } := by
  obtain ⟨x, -, hx⟩ := Option.bind_eq_some_iff.mp hp
  obtain ⟨pps, -, hpps⟩ := Option.bind_eq_some_iff.mp hx
  split at hpps
  · cases hpps
  · exact ⟨x.1, congrArg Prod.fst (Option.some.inj hpps).symm⟩

theorem sound_sendHbeat {cb' : Rmscb} (h : Sound cb) (hb : sendHbeat cb = some cb') :
    Sound cb' := by
  obtain ⟨ha, hp⟩ := sound_alloc h
  obtain ⟨⟨cb₁, pps⟩, hpeek, rfl⟩ := Option.map_eq_some_iff.mp hb
  obtain ⟨q, rfl⟩ := peekPeers_eq hpeek
  have hr := sound_release ha hp
  have hs : Sound { releaseMetaMsg { (allocMetaMsg cb).1 with mqPeers := q }
      (allocMetaMsg cb).2 with
      hbSeqP3 := cb.hbSeqP2, hbSeqP2 := cb.hbSeqP1, hbSeqP1 := cb.selfSent } := { hr with }
  apply sound_purge_local hs
  intro q hq
  exact Nat.lt_of_lt_of_le (h.bound q hq) (le_nmsgs_alloc cb)

theorem sound_ackBranch {cb' : Rmscb} (h : Sound cb) (hb : ackBranch cb = some cb') :
    Sound cb' := by
  unfold ackBranch at hb
  split at hb
  · obtain ⟨⟨cb₁, pps⟩, hpeek, rfl⟩ := Option.map_eq_some_iff.mp hb
    obtain ⟨q, rfl⟩ := peekPeers_eq hpeek
    exact sound_purge _ { h with }
  · obtain rfl := Option.some.inj hb
    exact h

theorem sound_sendLeave (h : Sound cb) : Sound (sendLeave cb) := by
  obtain ⟨ha, hp⟩ := sound_alloc h
  exact sound_release ha hp

end Moves

/-! ## Runs -/

/-- No buffer is in the pool twice, or in the pool and in a table. -/
def SingleOwner (cb : Rmscb) : Prop :=
  cb.sqMetaMsgPool.Nodup ∧ ∀ q ∈ cb.sqMetaMsgPool,
    (∀ seq, htblGet cb.outmsgbuf seq ≠ some q)
    ∧ ∀ id pp seq, htblGet cb.htPeers id = some pp →
        htblGet (cb.peers pp).htUnseqMsgs seq ≠ some q

/-- When the length cannot be received, `msg` is in no place. -/
def MsgFree (cb : Rmscb) : Branch → Prop
  | .ipc i => i.length ≤ 0 → ∀ p, cb.msg = some p → Free cb p
  | _ => True

theorem Sound.singleOwner {cb : Rmscb} (h : Sound cb) : SingleOwner cb := by
  refine ⟨h.pool_nodup, ?_⟩
  intro q hq
  refine ⟨?_, ?_⟩
  · intro seq hget
    exact Place.noConfusion (h.single q .pool (.sent seq) hq hget)
  · intro id pp seq hk hget
    exact Place.noConfusion (h.single q .pool (.cached id seq) hq ⟨pp, hk, hget⟩)

/-- **One step** that meets the condition. -/
theorem sound_branch {cb cb' : Rmscb} {b : Branch} (h : Sound cb) (hok : MsgFree cb b)
    (hb : branch cb b = some cb') : Sound cb' := by
  cases b with
  | mcast packet => exact sound_mcastBranch h hb
  | ipc i =>
    simp only [branch, ipcBranch] at hb
    obtain ⟨ha, hp⟩ := sound_alloc h
    split at hb
    · split at hb
      · cases hb
        exact sound_release ha hp
      · split at hb
        · cases hb
          exact sound_ipcSend ha hp _
        · cases hb
          exact sound_release ha hp
    · rename_i hlen
      obtain ⟨p, hmsg, hcb⟩ := Option.map_eq_some_iff.mp hb
      rw [← hcb]
      exact sound_release h ⟨hok (Int.not_lt.mp hlen) p hmsg, h.bound p hmsg⟩
  | hbeat => exact sound_sendHbeat h hb
  | ack => exact sound_ackBranch h hb
  | leave =>
    cases hb
    exact sound_sendLeave h

/-- A buffer released while it is in a place has two owners. -/
theorem not_singleOwner_release {cb : Rmscb} {p : Nat} (hp : ¬ Free cb p) :
    ¬ SingleOwner (releaseMetaMsg cb p) := by
  intro hs
  apply hp
  intro a ha
  have hin : p ∈ (releaseMetaMsg cb p).sqMetaMsgPool := List.mem_cons_self
  cases a with
  | pool => exact (List.nodup_cons.mp hs.1).1 ha
  | sent seq => exact (hs.2 p hin).1 seq ha
  | cached id seq =>
    obtain ⟨pp, hk, hget⟩ := ha
    exact (hs.2 p hin).2 id pp seq hk hget

/-- A step that does not meet the condition gives a buffer two owners. -/
theorem not_singleOwner_branch {cb cb' : Rmscb} {b : Branch} (hbad : ¬ MsgFree cb b)
    (hb : branch cb b = some cb') : ¬ SingleOwner cb' := by
  cases b with
  | ipc i =>
    simp only [MsgFree, not_forall] at hbad
    obtain ⟨hlen, p, hmsg, hp⟩ := hbad
    simp only [branch, ipcBranch, hmsg, Option.map_some] at hb
    rw [if_neg (Int.not_lt.mpr hlen)] at hb
    cases hb
    exact not_singleOwner_release hp
  | mcast packet => exact absurd trivial hbad
  | hbeat => exact absurd trivial hbad
  | ack => exact absurd trivial hbad
  | leave => exact absurd trivial hbad

theorem sound_start (selfId selfSent : UInt32) (hbAck : Bool) (n : Nat)
    (peers : Nat → RmsMetaPeer Nat) (msgs : Nat → RmsMetaMsg) (items : Nat → MqueueItem Nat)
    (nitems : Int) : Sound (start selfId selfSent hbAck n peers msgs items nitems) where
  registered id pp hk := by simp [start] at hk
  pool_nodup := List.nodup_range
  single q a b ha hb := by
    cases a with
    | pool =>
      cases b with
      | pool => rfl
      | sent seq => simp [At, start] at hb
      | cached id seq => simp [At, start] at hb
    | sent seq => simp [At, start] at ha
    | cached id seq => simp [At, start] at ha
  created q a ha := by
    cases a with
    | pool => exact List.mem_range.mp ha
    | sent seq => simp [At, start] at ha
    | cached id seq => simp [At, start] at ha
  bound p hp := by simp [start] at hp

/-- **No buffer ever has two owners** in a run of `rms_manager` exactly if,
whenever the length of a client's message cannot be received, the buffer
that `msg` was left bound to is in no place. -/
theorem rms_single_owner_iff (selfId selfSent : UInt32) (hbAck : Bool) (n : Nat)
    (peers : Nat → RmsMetaPeer Nat) (msgs : Nat → RmsMetaMsg) (items : Nat → MqueueItem Nat)
    (nitems : Int) (passes : List Pass) :
    Throughout branch SingleOwner (start selfId selfSent hbAck n peers msgs items nitems)
        (rmsManager passes)
      ↔ Guarded branch MsgFree (start selfId selfSent hbAck n peers msgs items nitems)
        (rmsManager passes) :=
  throughout_iff_of_invariant (fun _ => Sound.singleOwner)
    (fun _ _ _ => sound_branch) (fun _ _ _ _ => not_singleOwner_branch)
    (sound_start selfId selfSent hbAck n peers msgs items nitems)

/-- The start of a manager without a buffer in its pool. -/
def fresh : Rmscb :=
  start 1 0 false 0 (fun _ => rmsMetaPeerInit noname 0) (fun _ => ⟨0, 0, []⟩)
    (fun _ => ⟨none, none⟩) 0

/-- A client's message is sent and kept; then the client closes its end, and
the buffer that `outmsgbuf` has is put into the pool. -/
theorem rms_single_owner_fails : ∃ cb,
    run branch fresh
        ([⟨none, some ⟨4, some [7], 1⟩, false⟩, ⟨none, some ⟨0, none, 0⟩, false⟩].flatMap
          Pass.branches) = some cb
      ∧ 0 ∈ cb.sqMetaMsgPool ∧ htblGet cb.outmsgbuf 0 = some 0 :=
  ⟨_, rfl, by decide, by decide⟩

end Rms.Manager.Loop
