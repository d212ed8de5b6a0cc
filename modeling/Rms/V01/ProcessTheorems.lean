/-
Rms.V01.ProcessTheorems — when a process does what the daemon does.

A table with a pool is the map it should be as long as no removal links an
entry of a bucket into the pool (`ReleaseSafe`). `PoolSafe` says that of
all the removals a step makes. A step that is safe, and stays in its
memory, is a step of the node of `Rms.V01.Format` on the control block,
and the table stands for the map that this node has (`step_simulates`).
So what holds along the runs of that node holds along the safe runs of
the process.
-/
import Rms.V01.BoundedRuns
import Rms.V01.Process
import Rms.V01.ResetTheorems
import Rms.V01.RetentionTheorems

namespace Rms.V01

open Rms.ByteMem Rms.Util Rms.Runs Rms.Serial

variable {h : Host} {cb cb' : RmcCtrlBlock} {t : Hashtable.Hashtbl Nat} {o : Htbl Nat}

namespace Process

variable {s s' : Process} {m : AList fun _ : Hashtable.HtblKey => Nat}

/-! ## The table -/

/-- The table `t` stands for the map `o`. -/
structure Stands (t : Hashtable.Hashtbl Nat) (o : Htbl Nat) : Prop where
  size : 0 < t.tblSize
  represents : ∃ m chains fs, Hashtable.Represents t chains fs m
    ∧ (∀ k, m.lookup (.int k.toInt32) = htblGet o k) ∧ ∀ key ∈ m.keys, key.type = .int

theorem intKeys_mapStep (hint : ∀ key ∈ m.keys, key.type = .int) (op : Hashtable.IntOp Nat) :
    ∀ key ∈ (Hashtable.mapStep m op.toOp).1.keys, key.type = .int := by
  cases op with
  | put k data =>
    simp only [Hashtable.IntOp.toOp, Hashtable.mapStep]
    split
    · exact hint
    · intro key hkey
      rcases (AList.mem_insert m).mp (AList.mem_keys.mpr hkey) with rfl | hold
      · rfl
      · exact hint key (AList.mem_keys.mp hold)
  | get k =>
    simp only [Hashtable.IntOp.toOp, Hashtable.mapStep]
    split <;> exact hint
  | remove k =>
    simp only [Hashtable.IntOp.toOp, Hashtable.mapStep]
    split
    · intro key hkey
      exact hint key (AList.mem_keys.mp (AList.mem_erase.mp (AList.mem_keys.mpr hkey)).2)
    · exact hint

/-- **One call.** It answers as the map does. -/
theorem Stands.step (st : Stands t o) (op : Hashtable.IntOp Nat)
    (hsafe : Hashtable.ReleaseSafe t op.toOp) :
    ∃ t', Hashtable.htblStep t op.toOp = some (t', (Hashtable.intStep o op).2)
      ∧ Stands t' (Hashtable.intStep o op).1 := by
  obtain ⟨m, chains, fs, r, hmap, hint⟩ := st.represents
  obtain ⟨t', hstep, ⟨chains', fs', r'⟩, hparams⟩ :=
    Hashtable.represents_htblStep t m op.toOp ⟨chains, fs, r⟩ st.size hsafe
  obtain ⟨hanswer, hmap'⟩ := Hashtable.mapStep_intStep hmap op
  refine ⟨t', hanswer ▸ hstep, ?_, _, chains', fs', r', hmap', intKeys_mapStep hint op⟩
  rw [hparams.1]
  exact st.size

theorem Stands.call (st : Stands t cb.outmsgbuf) (op : Hashtable.IntOp Nat)
    (hsafe : Hashtable.ReleaseSafe t op.toOp) :
    ∃ t', call op ⟨cb, t⟩
        = some (⟨{ cb with outmsgbuf := (Hashtable.intStep cb.outmsgbuf op).1 }, t'⟩,
          (Hashtable.intStep cb.outmsgbuf op).2)
      ∧ Stands t' (Hashtable.intStep cb.outmsgbuf op).1 := by
  obtain ⟨t', hstep, st'⟩ := st.step op hsafe
  exact ⟨t', by rw [Process.call, hstep, Option.map_some], st'⟩

/-- A look-up changes nothing. -/
theorem Stands.get (st : Stands t o) (k : UInt32) :
    Hashtable.htblStep t (Hashtable.IntOp.get k).toOp
      = some (t, (Hashtable.intStep o (.get k)).2) := by
  obtain ⟨m, chains, fs, r, hmap, -⟩ := st.represents
  obtain ⟨hget, -⟩ := Hashtable.represents_get r (.int k.toInt32)
  rw [Hashtable.htblStep_eq, ← (Hashtable.mapStep_intStep hmap (.get k)).1]
  exact hget

theorem Stands.kept (st : Stands t o) (cb : RmcCtrlBlock) : kept ⟨cb, t⟩ = htblGet o := by
  funext k
  have hget : Hashtable.htblGet t k.toInt32 = some (t, (Hashtable.intStep o (.get k)).2) := st.get k
  rw [Process.kept, hget, Option.bind_some, Hashtable.intStep]
  split <;> simp_all

theorem intKey_injective :
    Function.Injective fun k : UInt32 => Hashtable.HtblKey.int k.toInt32 :=
  fun _ _ heq => congrArg Int32.toUInt32 (Hashtable.HtblKey.int.inj heq)

theorem Stands.keys_perm (hmap : ∀ k, m.lookup (.int k.toInt32) = htblGet o k)
    (hint : ∀ key ∈ m.keys, key.type = .int) :
    (o.keys.map fun k => Hashtable.HtblKey.int k.toInt32).Perm m.keys := by
  refine (List.perm_ext_iff_of_nodup (o.keys_nodup.map intKey_injective) m.keys_nodup).mpr
    fun key => ?_
  have hmem : ∀ k : UInt32, k ∈ o.keys ↔ Hashtable.HtblKey.int k.toInt32 ∈ m.keys := by
    intro k
    rw [mem_keys_iff, ← hmap k, ne_eq, AList.lookup_eq_none, not_not, AList.mem_keys]
  constructor
  · intro hkey
    obtain ⟨k, hk, rfl⟩ := List.mem_map.mp hkey
    exact (hmem k).mp hk
  · intro hkey
    cases key with
    | int i => exact List.mem_map.mpr ⟨i.toUInt32, (hmem i.toUInt32).mpr hkey, rfl⟩
    | str c => cases hint _ hkey

theorem Stands.count (st : Stands t o) : Hashtable.htblCount t = htblCount o := by
  obtain ⟨m, chains, fs, r, hmap, hint⟩ := st.represents
  rw [Hashtable.htblCount, r.count, ← (Stands.keys_perm hmap hint).length_eq, List.length_map,
    length_keys]

/-- The enumeration of the table lists the keys of the map. -/
theorem Stands.outKeys (st : Stands s.outmsgbuf s.cb.outmsgbuf) :
    ∃ buckets : List (List UInt32), s.outKeys
        = some (enumInto (htblCount s.cb.outmsgbuf) buckets).keys
      ∧ buckets.flatten.Perm s.cb.outmsgbuf.keys := by
  obtain ⟨m, chains, fs, r, hmap, hint⟩ := st.represents
  obtain ⟨buckets, henum, hperm⟩ :=
    htblEnumIntKeys_enumInto r st.size hint (htblCount s.cb.outmsgbuf)
  refine ⟨buckets, ?_, ?_⟩
  · rw [Process.outKeys, st.count]
    exact henum
  · exact (List.map_perm_map_iff intKey_injective).mp
      (hperm.trans (Stands.keys_perm hmap hint).symm)

theorem stands_htblInit (garbage : Nat → Hashtable.HtblEntry Nat) :
    Stands (Hashtable.htblInit garbage 50 20) ∅ := by
  obtain ⟨fs, r⟩ := Hashtable.represents_htblInit garbage 50 20
  refine ⟨?_, ∅, _, fs, r, fun _ => rfl, nofun⟩
  rw [(Hashtable.htblInit_params garbage 50 20).1]
  decide

/-! ## Removals -/

/-- A message that is kept goes back to the pool. -/
def dropKept (k : UInt32) (cb : RmcCtrlBlock) : RmcCtrlBlock :=
  match htblRemove cb.outmsgbuf k with
  | some (p, t) => releaseMsg { cb with outmsgbuf := t } p
  | none => cb

/-- The call on the table that removes a number. -/
def removal (k : UInt32) : Hashtable.HtblOp Nat := (Hashtable.IntOp.remove k).toOp

/-- No removal of these numbers, one after the other, links an entry of a
bucket into the pool. -/
def RemovalsSafe (t : Hashtable.Hashtbl Nat) (ks : List UInt32) : Prop :=
  Checked (stepState Hashtable.htblStep) Hashtable.ReleaseSafe t (ks.map removal)

instance (t : Hashtable.Hashtbl Nat) (ks : List UInt32) : Decidable (RemovalsSafe t ks) :=
  inferInstanceAs (Decidable (Checked _ _ _ _))

theorem removeOut_spec (st : Stands t cb.outmsgbuf) {k : UInt32} {ks : List UInt32}
    (hsafe : RemovalsSafe t (k :: ks)) :
    ∃ t', removeOut k ⟨cb, t⟩ = some ⟨dropKept k cb, t'⟩ ∧ Stands t' (dropKept k cb).outmsgbuf
      ∧ RemovalsSafe t' ks := by
  obtain ⟨hone, hrest⟩ := hsafe
  obtain ⟨t', hstep, st'⟩ := st.step (.remove k) hone
  refine ⟨t', ?_, ?_, hrest t' (stepState_eq_some hstep)⟩
  · rw [removeOut, call]
    dsimp only
    rw [hstep]
    simp only [Option.map_some, Hashtable.intStep, dropKept]
    cases htblRemove cb.outmsgbuf k with
    | none => rfl
    | some x => rfl
  · simp only [Hashtable.intStep] at st'
    unfold dropKept
    cases hrem : htblRemove cb.outmsgbuf k with
    | none =>
      rw [hrem] at st'
      exact st'
    | some x =>
      rw [hrem] at st'
      exact st'

theorem purgeRound_eq (cb : RmcCtrlBlock) :
    V01.purgeRound cb
      = { dropKept cb.oldestSeq cb with
          oldestSeq := (dropKept cb.oldestSeq cb).oldestSeq + 1 } := by
  unfold V01.purgeRound dropKept
  cases htblRemove cb.outmsgbuf cb.oldestSeq with
  | none => rfl
  | some x => rfl

theorem dropKept_oldestSeq (k : UInt32) (cb : RmcCtrlBlock) :
    (dropKept k cb).oldestSeq = cb.oldestSeq := by
  unfold dropKept
  split <;> rfl

/-- A purge removes the numbers from `oldest_seq` on. -/
theorem purgeRounds_simulates (n : Nat) :
    ∀ {cb : RmcCtrlBlock} {t : Hashtable.Hashtbl Nat}, Stands t cb.outmsgbuf →
      RemovalsSafe t (span cb.oldestSeq n) →
      ∃ t', purgeRounds n ⟨cb, t⟩ = some ⟨V01.purgeRounds n cb, t'⟩
        ∧ Stands t' (V01.purgeRounds n cb).outmsgbuf := by
  induction n with
  | zero => exact fun st _ => ⟨_, rfl, st⟩
  | succ n ih =>
    intro cb t st hsafe
    rw [span_succ] at hsafe
    obtain ⟨t₁, hremove, st₁, hsafe₁⟩ := removeOut_spec st hsafe
    have hround : purgeRound ⟨cb, t⟩ = some ⟨V01.purgeRound cb, t₁⟩ := by
      rw [purgeRound, hremove, purgeRound_eq]
      rfl
    have hnext : (V01.purgeRound cb).oldestSeq = cb.oldestSeq + 1 := by
      rw [purgeRound_eq, dropKept_oldestSeq]
    have hout : (V01.purgeRound cb).outmsgbuf = (dropKept cb.oldestSeq cb).outmsgbuf := by
      rw [purgeRound_eq]
    rw [← hout] at st₁
    rw [← hnext] at hsafe₁
    obtain ⟨t', hrest, st'⟩ := ih st₁ hsafe₁
    refine ⟨t', ?_, st'⟩
    rw [purgeRounds, hround]
    exact hrest

theorem drainOut_simulates (ks : List UInt32) :
    ∀ {cb : RmcCtrlBlock} {t : Hashtable.Hashtbl Nat}, Stands t cb.outmsgbuf → RemovalsSafe t ks →
      ∃ t', drainOut ks ⟨cb, t⟩ = some ⟨V01.drainOut ks cb, t'⟩
        ∧ Stands t' (V01.drainOut ks cb).outmsgbuf := by
  induction ks with
  | nil => exact fun st _ => ⟨_, rfl, st⟩
  | cons k ks ih =>
    intro cb t st hsafe
    obtain ⟨t₁, hremove, st₁, hsafe₁⟩ := removeOut_spec st hsafe
    obtain ⟨t', hrest, st'⟩ := ih st₁ hsafe₁
    have hdrain : V01.drainOut (k :: ks) cb = V01.drainOut ks (dropKept k cb) := by
      rw [V01.drainOut, dropKept]
      cases htblRemove cb.outmsgbuf k with
      | none => rfl
      | some x => rfl
    rw [hdrain]
    exact ⟨t', by rw [drainOut, hremove]; exact hrest, st'⟩

/-! ## The branches -/

/-- Retransmissions leave the table as it is. -/
theorem nackLoop_simulates (h : Host) (p n : Nat) :
    ∀ (itr : Nat) {cb : RmcCtrlBlock}, Stands t cb.outmsgbuf →
      nackLoop h p n itr ⟨cb, t⟩ = some ⟨V01.nackLoop h p n itr cb, t⟩ := by
  induction n with
  | zero => exact fun _ _ _ => rfl
  | succ n ih =>
    intro itr cb st
    simp only [nackLoop, V01.nackLoop, call]
    generalize ntohl h.endian (load32 h.endian (cb.msgs p).buf (sizeofHdr + itr * sizeofLong)) = k
    generalize (cb.msgs p).setBuf
      (store32 h.endian (cb.msgs p).buf (sizeofHdr + itr * sizeofLong) k) = m
    rw [show (cb.setMsg p m).outmsgbuf = cb.outmsgbuf from rfl, st.get k, Option.map_some,
      Option.bind_some]
    simp only [Hashtable.intStep]
    cases htblGet cb.outmsgbuf k with
    | none => exact ih (itr + 1) st
    | some q => exact ih (itr + 1) st

theorem dispatch_simulates {sender : SockaddrIn} {p : Nat} (st : Stands s.outmsgbuf s.cb.outmsgbuf)
    (hd : dispatch h sender p s = some s') :
    Bounded.dispatch h sender p s.cb = some s'.cb ∧ s'.outmsgbuf = s.outmsgbuf := by
  unfold dispatch at hd
  split at hd
  · split at hd
    · rename_i ht
      have hnack : nackMsg h p s = some ⟨V01.nackMsg h p s.cb, s.outmsgbuf⟩ :=
        nackLoop_simulates h p _ 1 st
      rw [hnack] at hd
      obtain rfl := Option.some.inj hd
      simp only [Bounded.dispatch, V01.dispatch, ht, and_self]
    · obtain ⟨cb', hb, rfl⟩ := Option.map_eq_some_iff.mp hd
      exact ⟨hb, rfl⟩
  · cases hd

theorem mcastBranch_simulates {sender : SockaddrIn} {r : RecvResult}
    (st : Stands s.outmsgbuf s.cb.outmsgbuf) (hb : mcastBranch h sender r s = some s') :
    (∃ flag, Bounded.mcastBranch h sender r s.cb = some (s'.cb, flag))
      ∧ s'.outmsgbuf = s.outmsgbuf := by
  have hrecv : (received h r s.cb).outmsgbuf = s.cb.outmsgbuf :=
    (sameSender_allocMsg s.cb).outmsgbuf
  unfold mcastBranch at hb
  unfold Bounded.mcastBranch
  dsimp only at hb ⊢
  split at hb
  · rename_i hshort
    obtain rfl := Option.some.inj hb
    exact ⟨⟨true, if_pos hshort⟩, rfl⟩
  · rename_i hlong
    rw [if_neg hlong]
    split at hb
    · rename_i hcut
      obtain rfl := Option.some.inj hb
      exact ⟨⟨true, if_pos hcut⟩, rfl⟩
    · rename_i hwhole
      obtain ⟨hd, hsame⟩ := dispatch_simulates (hrecv.symm ▸ st) hb
      refine ⟨⟨false, ?_⟩, hsame⟩
      rw [if_neg hwhole]
      exact congrArg (Option.map fun cb => (cb, false)) hd

theorem ipcSend_simulates {sendto n : Int} {p : Nat} (st : Stands t cb.outmsgbuf) :
    ∃ t', ipcSend h sendto n p ⟨cb, t⟩ = some ⟨V01.ipcSend h sendto n p cb, t'⟩
      ∧ Stands t' (V01.ipcSend h sendto n p cb).outmsgbuf := by
  unfold ipcSend V01.ipcSend
  dsimp only
  have st₁ : Stands t ((cb.setMsg p (dataFill h cb.self n (cb.msgs p))).sendto .mcast p
      (sizeT (n + sizeofHdr)) (decide (sendto ≤ 0))).outmsgbuf := st
  generalize (cb.setMsg p (dataFill h cb.self n (cb.msgs p))).sendto .mcast p
    (sizeT (n + sizeofHdr)) (decide (sendto ≤ 0)) = cb₁ at st₁
  by_cases hpos : 0 < sendto
  · obtain ⟨t', hcall, st'⟩ := st₁.call (.put cb₁.self.sequence p) trivial
    rw [if_pos hpos, if_pos hpos, hcall]
    exact ⟨t', rfl, st'⟩
  · rw [if_neg hpos, if_neg hpos]
    exact ⟨t, rfl, st₁⟩

theorem ipcBranch_simulates {i : IpcInput} (st : Stands s.outmsgbuf s.cb.outmsgbuf)
    (hb : ipcBranch h i s = some s') :
    V01.ipcBranch h i s.cb = s'.cb ∧ Stands s'.outmsgbuf s'.cb.outmsgbuf := by
  have hrecv := (sameSender_ipcRecv h i s.cb).outmsgbuf
  unfold ipcBranch at hb
  unfold V01.ipcBranch
  split at hb
  · rename_i hlen
    rw [if_pos hlen]
    split at hb
    · cases hb
    · dsimp only at hb ⊢
      split at hb
      · rename_i hbody
        rw [if_pos hbody]
        obtain ⟨t', hsend, st'⟩ := ipcSend_simulates (h := h) (n := ipcLen h i s.cb)
          (p := (ipcRecv h i s.cb).2) (hrecv.symm ▸ st : Stands s.outmsgbuf _)
        rw [hsend] at hb
        obtain rfl := Option.some.inj hb
        exact ⟨rfl, st'⟩
      · rename_i hbody
        rw [if_neg hbody]
        obtain rfl := Option.some.inj hb
        exact ⟨rfl, hrecv.symm ▸ st⟩
  · rename_i hlen
    rw [if_neg hlen]
    obtain rfl := Option.some.inj hb
    exact ⟨rfl, st⟩

/-- The numbers that a purge goes through. -/
def purged (cb : RmcCtrlBlock) (bound : UInt32) : List UInt32 :=
  span cb.oldestSeq (bound.toNat - cb.oldestSeq.toNat)

theorem purge_simulates (cb : RmcCtrlBlock) (bound : UInt32) (st : Stands t cb.outmsgbuf)
    (hsafe : RemovalsSafe t (purged cb bound)) :
    ∃ t', purge bound ⟨cb, t⟩ = some ⟨V01.purge bound cb, t'⟩
      ∧ Stands t' (V01.purge bound cb).outmsgbuf :=
  purgeRounds_simulates _ st hsafe

/-- What a heartbeat leaves for its purge. -/
theorem hbeatSent_frame (h : Host) (hname pgback : Option (List UInt8)) (flags : UInt16) (p : Nat)
    {r : RmcCtrlBlock × Option (List (UInt32 × UInt32))}
    (hpart : hbeatAckPart (allocMsg cb).1 = some r) :
    let cb₁ := hbeatMarks (hbeatEmit h hname pgback flags p r.2 r.1)
    cb₁.outmsgbuf = cb.outmsgbuf ∧ cb₁.oldestSeq = cb.oldestSeq ∧ cb₁.hbSeqP3 = cb.hbSeqP2 := by
  obtain ⟨⟨q, hq⟩, -⟩ := hbeatAckPart_spec hpart
  obtain ⟨b, n, f, halloc⟩ := allocMsg_eq cb
  have hr : r.1.outmsgbuf = cb.outmsgbuf ∧ r.1.oldestSeq = cb.oldestSeq
      ∧ r.1.hbSeqP2 = cb.hbSeqP2 := by
    rw [hq]
    simp only [halloc, and_self]
  exact hr

theorem hbeatBranch_simulates (st : Stands s.outmsgbuf s.cb.outmsgbuf)
    (hsafe : RemovalsSafe s.outmsgbuf (purged s.cb s.cb.hbSeqP2))
    (hb : hbeatBranch h s = some s') :
    V01.hbeatBranch h s.cb = some s'.cb ∧ Stands s'.outmsgbuf s'.cb.outmsgbuf := by
  unfold hbeatBranch at hb
  split at hb
  · cases hb
  split at hb
  · unfold sendHbeat at hb
    dsimp only at hb
    obtain ⟨r, hpart, hpurge⟩ := Option.bind_eq_some_iff.mp hb
    have hframe := hbeatSent_frame h (some s.cb.hostname) none 0 (allocMsg s.cb).2 hpart
    have hfree : V01.hbeatBranch h s.cb = some (V01.purge
        (hbeatMarks (hbeatEmit h (some s.cb.hostname) none 0 (allocMsg s.cb).2 r.2 r.1)).hbSeqP3
        (hbeatMarks (hbeatEmit h (some s.cb.hostname) none 0 (allocMsg s.cb).2 r.2 r.1))) := by
      unfold V01.hbeatBranch V01.sendHbeat
      dsimp only
      rw [hpart]
      rfl
    generalize hbeatMarks (hbeatEmit h (some s.cb.hostname) none 0 (allocMsg s.cb).2 r.2 r.1) = cb₁
      at hframe hfree hpurge
    obtain ⟨hout, hold, hmark⟩ := hframe
    obtain ⟨t', hdone, st'⟩ := purge_simulates cb₁ cb₁.hbSeqP3 (hout.symm ▸ st)
      (by rw [purged, hold, hmark]; exact hsafe)
    rw [hdone] at hpurge
    obtain rfl := Option.some.inj hpurge
    exact ⟨hfree, st'⟩
  · cases hb

/-- The bound that the loop over `membersq` leaves for the ack branch. -/
def syncBound (cb : RmcCtrlBlock) : UInt32 :=
  match mqueuePeeks (mqueueSize cb.membersq).toNat 0 cb.membersq with
  | none => cb.self.sequenceSync
  | some (_, cs) => ackSync cb.mems (cs.filterMap id) cb.self.sequenceSync

theorem ackBranch_simulates (st : Stands s.outmsgbuf s.cb.outmsgbuf)
    (hsafe : s.cb.hbAck = true → RemovalsSafe s.outmsgbuf (purged s.cb (syncBound s.cb)))
    (hb : ackBranch s = some s') :
    V01.ackBranch s.cb = some s'.cb ∧ Stands s'.outmsgbuf s'.cb.outmsgbuf := by
  unfold ackBranch at hb
  unfold V01.ackBranch
  split at hb
  · rename_i hack
    have hsafe' := hsafe hack
    rw [if_pos hack]
    split at hb
    · cases hb
    unfold syncBound at hsafe'
    cases hpeeks : mqueuePeeks (mqueueSize s.cb.membersq).toNat 0 s.cb.membersq with
    | none =>
      rw [hpeeks] at hb
      cases hb
    | some r =>
      obtain ⟨q, cs⟩ := r
      rw [hpeeks] at hb hsafe'
      dsimp only at hb hsafe' ⊢
      cases hmps : cs.mapM id with
      | none =>
        rw [hmps] at hb
        cases hb
      | some mps =>
        have hcs : cs.filterMap id = mps := by
          rw [mapM_id_eq_some hmps]
          simp
        rw [hcs] at hsafe'
        rw [hmps] at hb
        dsimp only at hb ⊢
        have hpurge := purge_simulates { s.cb with
          membersq := q
          self := { s.cb.self with sequenceSync := ackSync s.cb.mems mps s.cb.self.sequenceSync } }
          (ackSync s.cb.mems mps s.cb.self.sequenceSync) st hsafe'
        obtain ⟨t', hdone, st'⟩ := hpurge
        rw [hdone] at hb
        obtain rfl := Option.some.inj hb
        exact ⟨rfl, st'⟩
  · rename_i hack
    rw [if_neg hack]
    obtain rfl := Option.some.inj hb
    exact ⟨rfl, st⟩

theorem leaveWith_outmsgbuf (keys : List UInt32) (cb : RmcCtrlBlock) :
    (leaveWith [] keys cb).outmsgbuf = cb.outmsgbuf := by
  obtain ⟨buf, mems, t, freed, hdrop⟩ := dropMembers_frame keys cb
  simp only [leaveWith, V01.drainOut, hdrop]

/-! ## A step -/

/-- The numbers that a step removes from `outmsgbuf`, in their order. -/
def removals (s : Process) : Op → List UInt32
  | .branch .hbeat => purged s.cb s.cb.hbSeqP2
  | .branch .ack => if s.cb.hbAck then purged s.cb (syncBound s.cb) else []
  | .leave _ => s.outKeys.getD []
  | _ => []

/-- No removal of the step links an entry of a bucket into the pool. -/
def PoolSafe (s : Process) (op : Op) : Prop := RemovalsSafe s.outmsgbuf (s.removals op)

instance (s : Process) (op : Op) : Decidable (PoolSafe s op) :=
  inferInstanceAs (Decidable (RemovalsSafe _ _))

/-- What the step is for the node that keeps its messages in a map. -/
def Op.node (s : Process) : Op → NodeOp
  | .branch b => .branch b
  | .leave keys => .leave (s.outKeys.getD []) keys
  | .exit => .exit

/-- **Simulation.** A safe step of the process is a step of the node, and
the table goes on to stand for the node's map. -/
theorem step_simulates {op : Op} (st : Stands s.outmsgbuf s.cb.outmsgbuf) (hsafe : PoolSafe s op)
    (hstep : step h s op = some s') :
    nodeStep h s.cb (op.node s) = some s'.cb ∧ Stands s'.outmsgbuf s'.cb.outmsgbuf := by
  cases op with
  | branch b =>
    cases b with
    | mcast sender r =>
      obtain ⟨⟨flag, hbounded⟩, hsame⟩ := mcastBranch_simulates st hstep
      have hb := Bounded.mcastBranch_free hbounded
      refine ⟨?_, ?_⟩
      · simp only [Op.node, nodeStep, V01.branch, hb, Option.map_some]
      · rw [hsame, (sameSender_mcastBranch h sender r hb).outmsgbuf]
        exact st
    | ipc i =>
      obtain ⟨hb, st'⟩ := ipcBranch_simulates st hstep
      exact ⟨congrArg some hb, st'⟩
    | hbeat => exact hbeatBranch_simulates st hsafe hstep
    | ack =>
      refine ackBranch_simulates st (fun hack => ?_) hstep
      rw [PoolSafe, removals, if_pos hack] at hsafe
      exact hsafe
  | leave keys =>
    obtain ⟨buckets, hkeys, -⟩ := st.outKeys
    simp only [PoolSafe, removals, hkeys, Option.getD_some] at hsafe
    obtain ⟨t', hdrain, st'⟩ := drainOut_simulates _ st hsafe
    have hdrain' : drainOut _ s = _ := hdrain
    simp only [step, leave] at hstep
    split at hstep
    · cases hstep
    · rw [hkeys, Option.bind_some, hdrain'] at hstep
      obtain rfl := Option.some.inj hstep
      refine ⟨?_, ?_⟩
      · simp only [Op.node, nodeStep, hkeys, Option.getD_some]
        rfl
      · simp only [leaveWith_outmsgbuf]
        exact st'
  | exit =>
    obtain rfl := Option.some.inj hstep
    refine ⟨rfl, ?_⟩
    change Stands s.outmsgbuf (daemonExit h s.cb).outmsgbuf
    rw [show (daemonExit h s.cb).outmsgbuf = s.cb.outmsgbuf from
      (sameSender_allocMsg s.cb).outmsgbuf]
    exact st

theorem stands_start (g : Garbage) (garbage : Nat → Hashtable.HtblEntry Nat) (a : InitArgs) :
    Stands (start g garbage a).outmsgbuf (start g garbage a).cb.outmsgbuf := by
  rw [show (start g garbage a).cb.outmsgbuf = ∅ from (rmcastInit_frame g a).1]
  exact stands_htblInit garbage

end Process

end Rms.V01
