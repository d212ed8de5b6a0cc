/-
Rms.V01.FormatTheorems — when what a node sends is well formed.

  §1 The format    — for each kind of message, what its version byte and
                     its length must be (`wellFormed_data` and the like).
                     The type is always right.
  §2 What is sent  — `Emits` is the specification of a step that sends;
                     one lemma for each function that calls `sendto`.
  §3 Retransmission — a message is sent again as it was sent first: what
                     is kept is in the log (`Logged`).
  §4 A step        — `allWellFormed_step_iff`.

A NACK can hardly be well formed: its length fits only with more than a
billion messages in the cache (`NackFits.le_count`), since `send_nack`
goes around all the numbers.
-/
import Rms.V01.Format
import Rms.V01.LeaveTheorems
import Rms.V01.NackTheorems
import Rms.V01.SessionTheorems
import Rms.V01.WindowTheorems

namespace Rms.V01

open Rms.ByteMem Rms.Util Rms.Runs Rms.Serial

variable {cb cb' : RmcCtrlBlock} {hand : List Nat} {h : Host} {v : UInt8}

/-! ## §1 The format -/

/-- The header decides, and the number of bytes sent. -/
theorem wellFormed_readBytes {m : Mem} {d : Datagram} (hb : Begins m d) {kind : MsgType} {n : Nat} :
    WellFormed v kind (readBytes m 0 n)
      ↔ d.version = v ∧ d.type = kind.toByte ∧ n = sizeofHdr + d.length.toNat := by
  have hget : sizeofHdr ≤ n → ∀ i, i < 4 → (readBytes m 0 n)[i]? = some (m i) := by
    intro hn i hi
    rw [sizeofHdr] at hn
    rw [readBytes_getElem? m 0 n i (by omega), Nat.zero_add]
  have hlen : sizeofHdr ≤ n → be16At (fun i => (readBytes m 0 n).getD i 0) 2 = d.length := by
    intro hn
    rw [← be16At_of_readBytes hb.length]
    refine be16At_congr fun i _ hi => ?_
    rw [List.getD_eq_getElem?_getD, hget hn i (by omega)]
    rfl
  constructor
  · rintro ⟨hv, ht, hl⟩
    rw [readBytes_length] at hl
    have hn : sizeofHdr ≤ n := by omega
    rw [hget hn 0 (by omega), hb.version] at hv
    rw [hget hn 1 (by omega), hb.type] at ht
    rw [hlen hn] at hl
    exact ⟨Option.some.inj hv, Option.some.inj ht, hl⟩
  · rintro ⟨rfl, ht, hl⟩
    have hn : sizeofHdr ≤ n := by omega
    refine ⟨?_, ?_, ?_⟩
    · rw [hget hn 0 (by omega), hb.version]
    · rw [hget hn 1 (by omega), hb.type, ht]
    · rw [readBytes_length, hlen hn, hl]

theorem wellFormed_bytes {d : Datagram} {kind : MsgType} :
    WellFormed v kind d.bytes
      ↔ d.version = v ∧ d.type = kind.toByte ∧ d.body.length = d.length.toNat := by
  have hb := begins_writeBytes (fun _ => 0) d
  rw [← begins_iff.mp hb, wellFormed_readBytes hb, Nat.add_left_cancel_iff]

theorem wellFormed_data (self : RmcMember) (m : RmcMsg) {n : Int} (hn : -1 ≤ n)
    (hlt : n < 2147483648) :
    WellFormed v .data (readBytes (dataFill h self n m).buf 0 (sizeT (n + sizeofHdr)))
      ↔ m.hdrVersion = v ∧ 0 ≤ n ∧ n < 65536 := by
  rw [wellFormed_readBytes (begins_dataFill h self n m 0)]
  simp only [RmcMsg.hdrVersion, UInt16.toNat_ofNat', sizeT, sizeofHdr, true_and]
  refine and_congr_right fun _ => ?_
  omega

theorem wellFormed_hbeat {w : UInt8} {self : RmcMember} {hname : Option (List UInt8)}
    {acks : Option (List (UInt32 × UInt32))} {flags : UInt16} :
    WellFormed v .hbeat (hbeatDgram w self hname acks flags).bytes
      ↔ w = v ∧ sizeofHbeat + hbeatOffset acks < 65536 := by
  rw [wellFormed_bytes]
  simp only [hbeatDgram, List.length_append, HbeatFields.bytes_length, hbeatTail_length,
    UInt16.toNat_ofNat', true_and]
  refine and_congr_right fun _ => ?_
  omega

theorem wellFormed_leave (self : RmcMember) (m : RmcMsg) :
    WellFormed v .leave (readBytes (leaveFill h self m).buf 0 (sizeT sizeofHdr))
      ↔ m.hdrVersion = v := by
  have hzero : (0 : UInt16) = htons h.endian 0 := by
    cases h.endian <;> rfl
  have hb : Begins (leaveFill h self m).buf
      ⟨m.buf 0, MsgType.leave.toByte, 0, self.sequence, self.id, []⟩ := by
    have hhdr := begins_header h.endian m .leave 0 self.sequence self.id 0
    rw [← hzero] at hhdr
    exact hhdr
  rw [wellFormed_readBytes hb]
  simp [RmcMsg.hdrVersion, sizeT_natCast (n := sizeofHdr) (by decide)]

/-! ### NACKs -/

theorem wellFormed_nack (mem : RmcMember) (m : RmcMsg) :
    WellFormed v .nack (nackBytes h mem m (nackList mem))
      ↔ m.hdrVersion = v ∧ NackFits mem.sequence mem.unseqMsgs := by
  have hlength : (nackList mem).length = missing mem.sequence mem.unseqMsgs := by
    rw [nackList_eq, missing]
  rw [nackBytes, wellFormed_readBytes (begins_nackFill h mem m (nackList mem)), NackFits,
    ← hlength]
  simp only [nackDgram, RmcMsg.hdrVersion, UInt16.toNat_ofNat', sizeT, sizeofHdr, sizeofLong,
    true_and]
  refine and_congr_right fun _ => ?_
  omega

/-- What `send_nack` does not list is cached. -/
theorem missing_add_cached (sequence : UInt32) (t : Htbl Nat) :
    ∃ c, c ≤ htblCount t ∧ missing sequence t + c = 4294967294 := by
  have hsplit := List.length_eq_length_filter_add (l := span (sequence + 1) 4294967294)
    fun k => (htblGet t k).isNone
  rw [span_length] at hsplit
  have hcached : ((span (sequence + 1) 4294967294).filter
      fun k => !(htblGet t k).isNone).length ≤ htblCount t := by
    have hsub : ((span (sequence + 1) 4294967294).filter fun k => !(htblGet t k).isNone)
        ⊆ t.keys := by
      intro k hk
      have hsome := (List.mem_filter.mp hk).2
      rw [Option.not_isNone] at hsome
      exact AList.mem_keys.mp (AList.lookup_isSome.mp hsome)
    have hnodup := (span_nodup (e := sequence + 1) (n := 4294967294) (by omega)).filter
      fun k => !(htblGet t k).isNone
    exact (List.subperm_of_subset hnodup hsub).length_le.trans_eq (List.length_map ..)
  exact ⟨_, hcached, hsplit.symm⟩

/-- A NACK has a length of sixteen bits only if more than a billion
messages are cached. -/
theorem NackFits.le_count {sequence : UInt32} {t : Htbl Nat} (hfits : NackFits sequence t) :
    1073725440 ≤ htblCount t := by
  obtain ⟨c, hcached, hsplit⟩ := missing_add_cached sequence t
  unfold NackFits at hfits
  rw [sizeofLong] at hfits
  omega

/-! ## §2 What is sent -/

/-! ### Steps that send nothing -/

structure Silent (cb cb' : RmcCtrlBlock) : Prop where
  version : cb'.version = cb.version
  sent : cb'.sent = cb.sent

theorem Silent.refl (cb : RmcCtrlBlock) : Silent cb cb := ⟨rfl, rfl⟩

theorem Silent.trans {a b c : RmcCtrlBlock} (h₁ : Silent a b) (h₂ : Silent b c) : Silent a c :=
  ⟨h₂.version.trans h₁.version, h₂.sent.trans h₁.sent⟩

/-- A silent step behind an update of other fields. -/
theorem Silent.of_eq {a b c : RmcCtrlBlock} (h : Silent b c) (hversion : b.version = a.version)
    (hsent : b.sent = a.sent) : Silent a c :=
  ⟨h.version.trans hversion, h.sent.trans hsent⟩

theorem silent_allocMsg (cb : RmcCtrlBlock) : Silent cb (allocMsg cb).1 := by
  unfold allocMsg
  split <;> exact ⟨rfl, rfl⟩

theorem silent_releaseMsg (cb : RmcCtrlBlock) (p : Nat) : Silent cb (releaseMsg cb p) := ⟨rfl, rfl⟩

theorem silent_received (h : Host) (r : RecvResult) (cb : RmcCtrlBlock) :
    Silent cb (received h r cb) :=
  (silent_allocMsg cb).trans ⟨rfl, rfl⟩

theorem silent_releaseCached (h : Host) (mp n : Nat) :
    ∀ cb : RmcCtrlBlock, Silent cb (releaseCached h mp n cb) := by
  induction n with
  | zero => exact Silent.refl
  | succ n ih =>
    intro cb
    simp only [releaseCached]
    split
    · exact Silent.refl cb
    · exact (ih _).of_eq rfl rfl

theorem silent_leaveMsg (h : Host) {p : Nat} (hl : leaveMsg h p cb = some cb') :
    Silent cb cb' := by
  obtain ⟨buf, mems, t, q, freed, rfl⟩ := leaveMsg_frame h p hl
  exact ⟨rfl, rfl⟩

theorem silent_hbeatMember (h : Host) (p : Nat) (cb : RmcCtrlBlock) :
    Silent cb (hbeatMember h p cb).1 := by
  unfold hbeatMember
  split
  · exact ⟨rfl, rfl⟩
  · split <;> exact ⟨rfl, rfl⟩

theorem silent_purge (bound : UInt32) (cb : RmcCtrlBlock) : Silent cb (purge bound cb) := by
  obtain ⟨o, b, s, hframe⟩ := purge_frame bound cb
  rw [hframe]
  exact ⟨rfl, rfl⟩

theorem silent_ackBranch (ha : ackBranch cb = some cb') : Silent cb cb' := by
  obtain ⟨q, sync, o, b, s, rfl⟩ := ackBranch_eq ha
  exact ⟨rfl, rfl⟩

theorem silent_leaveWith (out keys : List UInt32) (cb : RmcCtrlBlock) :
    Silent cb (leaveWith out keys cb) := by
  obtain ⟨buf, o, mems, t, freed, hleave, -⟩ := leaveWith_frame out keys cb
  rw [hleave]
  exact ⟨rfl, rfl⟩

/-! ### Steps that send -/

/-- What is sent on the way from `cb` to `cb'`, as messages of a kind, is
well formed exactly under `ok`. -/
structure Emits (cb cb' : RmcCtrlBlock) (kind : MsgType) (ok : Prop) : Prop where
  version : cb'.version = cb.version
  sent : ∃ xs, cb'.sent = cb.sent ++ xs
    ∧ ((∀ x ∈ xs, WellFormed cb.version kind x.bytes) ↔ ok)

section Emits

variable {cb₁ : RmcCtrlBlock} {kind : MsgType} {ok ok' : Prop}

theorem Silent.emits (hs : Silent cb cb') (hok : ok) : Emits cb cb' kind ok := by
  refine ⟨hs.version, [], ?_, ?_⟩
  · rw [hs.sent, List.append_nil]
  · simp [hok]

theorem Silent.trans_emits (hs : Silent cb cb₁) (he : Emits cb₁ cb' kind ok) :
    Emits cb cb' kind ok := by
  obtain ⟨xs, hsent, hiff⟩ := he.sent
  rw [hs.sent] at hsent
  rw [hs.version] at hiff
  exact ⟨he.version.trans hs.version, xs, hsent, hiff⟩

theorem Emits.trans_silent (he : Emits cb cb₁ kind ok) (hs : Silent cb₁ cb') :
    Emits cb cb' kind ok := by
  obtain ⟨xs, hsent, hiff⟩ := he.sent
  exact ⟨hs.version.trans he.version, xs, hs.sent.trans hsent, hiff⟩

theorem Emits.trans (h₁ : Emits cb cb₁ kind ok) (h₂ : Emits cb₁ cb' kind ok') :
    Emits cb cb' kind (ok ∧ ok') := by
  obtain ⟨xs, hxs, hok⟩ := h₁.sent
  obtain ⟨ys, hys, hok'⟩ := h₂.sent
  refine ⟨h₂.version.trans h₁.version, xs ++ ys, ?_, ?_⟩
  · rw [hys, hxs, List.append_assoc]
  · rw [h₁.version] at hok'
    rw [List.forall_mem_append, hok, hok']

theorem Emits.congr (he : Emits cb cb' kind ok) (hiff : ok ↔ ok') : Emits cb cb' kind ok' := by
  obtain ⟨xs, hsent, hok⟩ := he.sent
  exact ⟨he.version, xs, hsent, hok.trans hiff⟩

/-- One datagram. -/
theorem emits_one {x : Sendto} (hversion : cb'.version = cb.version)
    (hsent : cb'.sent = cb.sent ++ [x]) (hiff : WellFormed cb.version kind x.bytes ↔ ok) :
    Emits cb cb' kind ok := by
  refine ⟨hversion, [x], hsent, ?_⟩
  rw [List.forall_mem_singleton]
  exact hiff

end Emits

/-- The version in the next buffer of the pool. -/
theorem allocMsg_version (cb : RmcCtrlBlock) :
    ((allocMsg cb).1.msgs (allocMsg cb).2).hdrVersion = versionAt cb 0 := by
  unfold allocMsg versionAt
  cases cb.bufmsgq with
  | nil =>
    simp only [newMsg, RmcCtrlBlock.setMsg_self]
    exact writeBytes_inside (cb.msgs cb.nmsgs).buf 0 [cb.version] (i := 0) (by simp)
  | cons p rest => rfl

theorem emits_sendNack (h : Host) (mp p : Nat) (cb : RmcCtrlBlock) :
    Emits cb (sendNack h mp p cb) .nack
      ((cb.msgs p).hdrVersion = cb.version
        ∧ NackFits (cb.mems mp).sequence (cb.mems mp).unseqMsgs) :=
  emits_one rfl (sendNack_sent h mp p cb) (wellFormed_nack (cb.mems mp) (cb.msgs p))

/-! ### The switch -/

theorem emits_dataMsg (h : Host) (sender : SockaddrIn) (p : Nat) (cb : RmcCtrlBlock) :
    Emits cb (dataMsg h sender p cb) .nack
      (∀ mp, htblGet cb.members ((cb.msgs p).hdrId h.endian) = some mp →
        Ahead (cb.mems mp).peer ((cb.msgs p).hdrSequence h.endian) →
          versionAt cb 0 = cb.version ∧ NackFits (cb.mems mp).sequence
            (htblPut (cb.mems mp).unseqMsgs ((cb.msgs p).hdrSequence h.endian) p)) := by
  unfold dataMsg
  split
  · rename_i hnone
    refine Silent.emits ⟨rfl, rfl⟩ fun mp hk => ?_
    cases hnone.symm.trans hk
  · rename_i mp hk
    have hmp : ∀ mp', htblGet cb.members ((cb.msgs p).hdrId h.endian) = some mp' → mp' = mp :=
      fun mp' hk' => Option.some.inj (hk'.symm.trans hk)
    split
    · rename_i hne
      split
      · -- ahead: cached, and a NACK from the next buffer
        rename_i hlt
        have hself : (cacheMsg h mp p cb).mems mp = { cb.mems mp with
            unseqMsgs := htblPut (cb.mems mp).unseqMsgs ((cb.msgs p).hdrSequence h.endian) p } :=
          RmcCtrlBlock.setMem_self ..
        have hmems := (allocMsg_receiver (cacheMsg h mp p cb)).1
        have hnack := emits_sendNack h mp (allocMsg (cacheMsg h mp p cb)).2
          (allocMsg (cacheMsg h mp p cb)).1
        rw [allocMsg_version, (silent_allocMsg (cacheMsg h mp p cb)).version, hmems, hself] at hnack
        have hquiet : Silent cb (allocMsg (cacheMsg h mp p cb)).1 :=
          (silent_allocMsg (cacheMsg h mp p cb)).of_eq rfl rfl
        refine ((hquiet.trans_emits hnack).trans_silent (silent_releaseMsg _ _)).congr ⟨?_, ?_⟩
        · intro hok mp' hk' _
          obtain rfl := hmp mp' hk'
          exact hok
        · exact fun hok => hok mp hk ⟨hne, hlt⟩
      · rename_i hlt
        refine Silent.emits ⟨rfl, rfl⟩ fun mp' hk' hahead => ?_
        obtain rfl := hmp mp' hk'
        exact absurd hahead.2 hlt
    · rename_i hdue
      have hquiet : Silent cb (dataInSequence h sender mp p cb) :=
        (silent_releaseCached h mp _ _).of_eq rfl rfl
      refine hquiet.emits fun mp' hk' hahead => ?_
      obtain rfl := hmp mp' hk'
      exact absurd hahead.1 hdue

/-- A heartbeat ahead is answered by a NACK in its own buffer. `mem` is the
member behind the lookup. -/
theorem emits_hbeatMsg_of_member (h : Host) {p mp : Nat} {cb cb₁ : RmcCtrlBlock}
    (hr : hbeatMember h p (cb.setMsg p (hbeatDecode h.endian (cb.msgs p))) = (cb₁, mp)) :
    Emits cb (hbeatMsg h p cb) .nack
      (Ahead (cb₁.mems mp).peer ((cb.msgs p).hdrSequence h.endian) →
        (cb.msgs p).hdrVersion = cb.version
          ∧ NackFits (cb₁.mems mp).sequence (cb₁.mems mp).unseqMsgs) := by
  have hmember := silent_hbeatMember h p (cb.setMsg p (hbeatDecode h.endian (cb.msgs p)))
  have hmsgs := hbeatMember_msgs h p (cb.setMsg p (hbeatDecode h.endian (cb.msgs p)))
  rw [hr] at hmember hmsgs
  have hquiet : Silent cb (hbeatApply h p (cb₁, mp)) := ⟨hmember.version, hmember.sent⟩
  have hmsg : (hbeatApply h p (cb₁, mp)).msgs p
      = hbeatDecodeTail h.endian (hbeatDecode h.endian (cb.msgs p)) := by
    have hbuf : cb₁.msgs p = hbeatDecode h.endian (cb.msgs p) :=
      (congrFun hmsgs p).trans (RmcCtrlBlock.setMsg_self ..)
    simp only [hbeatApply, RmcCtrlBlock.setMsg_self, hbuf]
  have hmem : (hbeatApply h p (cb₁, mp)).mems mp
      = hbeatUpdate h.endian (cb₁.msgs p) cb₁.self.id (cb₁.mems mp) := RmcCtrlBlock.setMem_self ..
  have hversion : ((hbeatApply h p (cb₁, mp)).msgs p).hdrVersion = (cb.msgs p).hdrVersion := by
    rw [hmsg]
    exact (hbeatDecodeTail_buf h.endian _ (by omega)).trans (hbeatDecode_buf h.endian _ (by omega))
  have hnumber : ((hbeatApply h p (cb₁, mp)).msgs p).hdrSequence h.endian
      = (cb.msgs p).hdrSequence h.endian := by
    rw [hmsg, hbeatDecodeTail_hdrSequence, (hbeatDecode_header h.endian (cb.msgs p)).2.1]
  obtain ⟨hseq, -, -, hunseq⟩ := hbeatUpdate_sequence h.endian (cb₁.msgs p) cb₁.self.id (cb₁.mems mp)
  rw [hbeatMsg_eq, hr]
  refine Emits.trans_silent (hquiet.trans_emits ?_) (silent_releaseMsg _ _)
  unfold hbeatGap
  rw [hnumber, hmem, hseq]
  split
  · rename_i hne
    split
    · rename_i hlt
      have hnack := emits_sendNack h mp p (hbeatApply h p (cb₁, mp))
      rw [hversion, hquiet.version, hmem, hseq, hunseq] at hnack
      exact hnack.congr ⟨fun hok _ => hok, fun hok => hok ⟨hne, hlt⟩⟩
    · rename_i hlt
      exact (Silent.refl _).emits fun hahead => absurd hahead.2 hlt
  · rename_i hdue
    exact (Silent.refl _).emits fun hahead => absurd hahead.1 hdue

theorem emits_hbeatMsg (h : Host) (p : Nat) (cb : RmcCtrlBlock) :
    Emits cb (hbeatMsg h p cb) .nack
      (∀ mp, htblGet cb.members ((cb.msgs p).hdrId h.endian) = some mp →
        Ahead (cb.mems mp).peer ((cb.msgs p).hdrSequence h.endian) →
        (hbeatDecode h.endian (cb.msgs p)).hbeatSession h.endian = (cb.mems mp).session →
          (cb.msgs p).hdrVersion = cb.version
            ∧ NackFits (cb.mems mp).sequence (cb.mems mp).unseqMsgs) := by
  have hseq := (hbeatDecode_header h.endian (cb.msgs p)).2.1
  -- a place in the sequence taken from the heartbeat is not behind it
  have hdue : ∀ v : Peer Nat,
      v.sequence = (hbeatDecode h.endian (cb.msgs p)).hdrSequence h.endian - 1 →
      ¬ Ahead v ((cb.msgs p).hdrSequence h.endian) := by
    intro v hv hahead
    refine hahead.1 ?_
    rw [hv, hseq, UInt32.sub_add_cancel]
  cases hk : htblGet cb.members ((cb.msgs p).hdrId h.endian) with
  | none =>
    refine (emits_hbeatMsg_of_member h (hbeatMember_new hk)).congr ⟨fun _ mp hk' => ?_, ?_⟩
    · cases hk'
    · intro _ hahead
      refine absurd hahead (hdue _ ?_)
      simp only [Function.update_self]
      rfl
  | some mp =>
    by_cases hsess : (hbeatDecode h.endian (cb.msgs p)).hbeatSession h.endian
        = (cb.mems mp).session
    · refine (emits_hbeatMsg_of_member h (hbeatMember_same hk hsess)).congr ⟨?_, ?_⟩
      · intro hok mp' hk' hahead _
        obtain rfl := Option.some.inj hk'
        exact hok hahead
      · exact fun hok hahead => hok mp rfl hahead hsess
    · refine (emits_hbeatMsg_of_member h (hbeatMember_restart hk hsess)).congr ⟨?_, ?_⟩
      · intro _ mp' hk' _ hsess'
        obtain rfl := Option.some.inj hk'
        exact absurd hsess' hsess
      · intro _ hahead
        refine absurd hahead (hdue _ ?_)
        rw [RmcCtrlBlock.setMem_self]
        rfl

/-- A retransmission repeats a message that is kept. -/
theorem emits_nackLoop (h : Host) {p : Nat} (n : Nat) :
    ∀ (itr : Nat) {cb : RmcCtrlBlock},
      (∀ k q, htblGet cb.outmsgbuf k = some q →
        q ≠ p ∧ WellFormed cb.version .data (keptBytes (cb.msgs q))) →
      Emits cb (nackLoop h p n itr cb) .data True := by
  induction n with
  | zero => exact fun itr cb _ => (Silent.refl cb).emits trivial
  | succ n ih =>
    intro itr cb hkept
    simp only [nackLoop]
    generalize ntohl h.endian (load32 h.endian (cb.msgs p).buf (sizeofHdr + itr * sizeofLong)) = k
    generalize (cb.msgs p).setBuf (store32 h.endian (cb.msgs p).buf (sizeofHdr + itr * sizeofLong) k)
      = m
    have hmsgs : ∀ {q}, q ≠ p → (cb.setMsg p m).msgs q = cb.msgs q :=
      fun hne => Function.update_of_ne hne _ _
    have hkept' : ∀ k q, htblGet cb.outmsgbuf k = some q →
        q ≠ p ∧ WellFormed cb.version .data (keptBytes ((cb.setMsg p m).msgs q)) := by
      intro k q hk
      rw [hmsgs (hkept k q hk).1]
      exact hkept k q hk
    cases hk : htblGet (cb.setMsg p m).outmsgbuf k with
    | none =>
      have hquiet : Silent cb (cb.setMsg p m) := ⟨rfl, rfl⟩
      exact hquiet.trans_emits (ih (itr + 1) hkept')
    | some q =>
      have hone : Emits cb ((cb.setMsg p m).sendto (.ucast (cb.setMsg p m).ucastAddr) q
          (sizeT (((cb.setMsg p m).msgs q).length + sizeofHdr)) false) .data True :=
        emits_one rfl rfl (iff_true_intro (hkept' k q hk).2)
      exact (hone.trans (ih (itr + 1) hkept')).congr (and_self_iff)

theorem emits_nackMsg (h : Host) {p : Nat}
    (hkept : ∀ k q, htblGet cb.outmsgbuf k = some q →
      q ≠ p ∧ WellFormed cb.version .data (keptBytes (cb.msgs q))) :
    Emits cb (nackMsg h p cb) .data True := by
  refine Silent.trans_emits ?_ (emits_nackLoop h _ 1 hkept)
  exact ⟨rfl, rfl⟩

/-- The version in the buffer behind the one a datagram is received into. -/
theorem versionAt_received (h : Host) (r : RecvResult) (hown : Owned cb hand) :
    versionAt (received h r cb) 0 = versionAt cb 1 := by
  have hversion := (silent_received h r cb).version
  have hnodup : cb.bufmsgq.Nodup := by
    have hplaces := (List.nodup_append.mp (hown.ledger.nodup_iff.mpr List.nodup_range)).1
    exact (List.nodup_append.mp hplaces).1
  have hpool : (received h r cb).bufmsgq = (allocMsg cb).1.bufmsgq := rfl
  have hmsgs : ∀ q, q ≠ (allocMsg cb).2 → (received h r cb).msgs q = (allocMsg cb).1.msgs q :=
    fun q hne => (Function.update_of_ne hne _ _).trans (Function.update_of_ne hne _ _)
  unfold versionAt
  rw [hpool, hversion]
  cases hq : cb.bufmsgq with
  | nil =>
    have halloc : (allocMsg cb).1.bufmsgq = [] := by
      simp only [allocMsg, hq, newMsg, RmcCtrlBlock.setMsg]
    rw [halloc]
    rfl
  | cons p rest =>
    have halloc : allocMsg cb = ({ cb with bufmsgq := rest }, p) := by simp only [allocMsg, hq]
    rw [halloc] at hmsgs ⊢
    cases rest with
    | nil => rfl
    | cons q rest =>
      rw [hq] at hnodup
      have hne : q ≠ p := by
        rintro rfl
        exact (List.nodup_cons.mp hnodup).1 (List.mem_cons_self ..)
      exact congrArg RmcMsg.hdrVersion (hmsgs q hne)

theorem silent_dropped {sender : SockaddrIn} {r : RecvResult} {flag : Bool}
    (hb : mcastBranch h sender r cb = some (cb', flag)) (hnone : accepted h r cb = none) :
    Silent cb cb' := by
  have halloc := silent_allocMsg cb
  rcases mcastBranch_cases h sender r hb with
    ⟨-, -, rfl⟩ | ⟨hlong, cb₁, q, rfl, rfl, ⟨-, -, rfl⟩ | ⟨hwhole, -, -⟩⟩
  · exact ⟨halloc.version, halloc.sent⟩
  · exact ⟨halloc.version, halloc.sent⟩
  · cases hnone.symm.trans (if_neg (not_or.mpr ⟨hlong, hwhole⟩))

theorem emits_mcastBranch {sender : SockaddrIn} {r : RecvResult} {flag : Bool}
    (hown : Owned cb hand) (hb : mcastBranch h sender r cb = some (cb', flag))
    (hkept : ∀ k q, htblGet cb.outmsgbuf k = some q →
      WellFormed cb.version .data (keptBytes (cb.msgs q))) :
    Emits cb cb' (kindOf h cb (.branch (.mcast sender r)))
      (CleanSend h cb (.branch (.mcast sender r))) := by
  rcases mcastBranch_accepted hb with ⟨hnone, -⟩ | ⟨m, hsome, hm, hd⟩
  · refine (silent_dropped hb hnone).emits fun m v hm => ?_
    cases hnone.symm.trans hm
  have hrecv := silent_received h r cb
  obtain ⟨hmems, hmembers, -⟩ := received_receiver h r cb
  have hpeer : ∀ y, peerAt cb y = (htblGet (received h r cb).members y).map
      fun mp => ((received h r cb).mems mp).peer :=
    fun y => (peerAt_congr hmembers hmems y).symm
  have hacc : ∀ {m'}, accepted h r cb = some m' → m' = m :=
    fun hm' => Option.some.inj (hm'.symm.trans hsome)
  -- only DATA and HBEAT are answered by a NACK
  have hother : eventOf h.endian m () = .other ∨ eventOf h.endian m () = .leave →
      CleanSend h cb (.branch (.mcast sender r)) := by
    intro hor m' v hm' _ _
    obtain rfl := hacc hm'
    refine ⟨fun hev => ?_, fun hev => ?_⟩
    · rcases hor with hor | hor <;> cases hor.symm.trans hev
    · rcases hor with hor | hor <;> cases hor.symm.trans hev
  have hdrop : ∀ {kind}, some (releaseMsg (received h r cb) (allocMsg cb).2) = some cb' →
      eventOf h.endian m () = .other →
      Emits cb cb' kind (CleanSend h cb (.branch (.mcast sender r))) := by
    intro kind heq hev
    obtain rfl := Option.some.inj heq
    exact (hrecv.trans (silent_releaseMsg _ _)).emits (hother (.inl hev))
  unfold dispatch at hd
  rw [← hm] at hd
  simp only [kindOf, hsome, Option.bind_some]
  cases ht : MsgType.ofByte m.hdrType with
  | none =>
    rw [ht] at hd
    exact hdrop hd (by simp only [eventOf, ht])
  | some t =>
    rw [ht] at hd
    cases t with
    | data =>
      obtain rfl := Option.some.inj hd
      have hev : eventOf h.endian m () = .data () := by simp only [eventOf, ht]
      have hdata := emits_dataMsg h sender (allocMsg cb).2 (received h r cb)
      rw [← hm, versionAt_received h r hown, hrecv.version] at hdata
      refine (hrecv.trans_emits hdata).congr ⟨?_, ?_⟩
      · intro hok m' v hm' hv hahead
        obtain rfl := hacc hm'
        obtain ⟨mp, hk, rfl⟩ := Option.map_eq_some_iff.mp ((hpeer _).symm.trans hv)
        refine ⟨fun _ => hok mp hk hahead, fun hev' => ?_⟩
        cases hev.symm.trans hev'
      · intro hok mp hk hahead
        refine (hok m _ hsome ?_ hahead).1 hev
        rw [hpeer, hk]
        rfl
    | hbeat =>
      obtain rfl := Option.some.inj hd
      have hev : eventOf h.endian m () = .hbeat ((hbeatDecode h.endian m).hbeatSession h.endian)
          (m.hdrSequence h.endian) := by simp only [eventOf, ht]
      have hhbeat := emits_hbeatMsg h (allocMsg cb).2 (received h r cb)
      rw [← hm, hrecv.version] at hhbeat
      refine (hrecv.trans_emits hhbeat).congr ⟨?_, ?_⟩
      · intro hok m' v hm' hv hahead
        obtain rfl := hacc hm'
        obtain ⟨mp, hk, rfl⟩ := Option.map_eq_some_iff.mp ((hpeer _).symm.trans hv)
        refine ⟨fun hev' => ?_, fun hev' => ?_⟩
        · cases hev.symm.trans hev'
        · exact hok mp hk hahead (PeerEvent.hbeat.inj (hev.symm.trans hev')).1
      · intro hok mp hk hahead hsess
        refine (hok m _ hsome ?_ hahead).2 ?_
        · rw [hpeer, hk]
          rfl
        · rw [hev, hsess]
          rfl
    | nack =>
      obtain rfl := Option.some.inj hd
      refine (hrecv.trans_emits (emits_nackMsg h fun k q hk => ?_)).congr ?_
      · rw [show (received h r cb).outmsgbuf = cb.outmsgbuf from
          (sameSender_allocMsg cb).outmsgbuf] at hk
        have hin : InUse cb q := hown.inUse (.inr (.inl (mem_htblValues.mpr ⟨k, hk⟩)))
        rw [received_msgs h r hin, hrecv.version]
        exact ⟨allocMsg_ne hin, hkept k q hk⟩
      · exact iff_of_true trivial (hother (.inl (by simp only [eventOf, ht])))
    | leave =>
      refine (hrecv.trans (silent_leaveMsg h hd)).emits (hother (.inr ?_))
      simp only [eventOf, ht]
    | ack => exact hdrop hd (by simp only [eventOf, ht])
    | join => exact hdrop hd (by simp only [eventOf, ht])
    | cert => exact hdrop hd (by simp only [eventOf, ht])

/-! ### The other branches -/

theorem emits_ipcSend (h : Host) (sendto : Int) (p : Nat) (cb : RmcCtrlBlock) {n : Int}
    (hn : -1 ≤ n) (hlt : n < 2147483648) :
    Emits cb (ipcSend h sendto n p cb) .data
      ((cb.msgs p).hdrVersion = cb.version ∧ 0 ≤ n ∧ n < 65536) := by
  refine emits_one (x := ⟨.mcast, readBytes (dataFill h cb.self n (cb.msgs p)).buf 0
    (sizeT (n + sizeofHdr)), decide (sendto ≤ 0)⟩) ?_ ?_ (wellFormed_data _ _ hn hlt)
  · unfold ipcSend
    dsimp only
    split <;> rfl
  · unfold ipcSend
    simp only [RmcCtrlBlock.sendto, RmcCtrlBlock.setMsg_self]
    split <;> rfl

theorem emits_ipcBranch (h : Host) (i : IpcInput) (cb : RmcCtrlBlock) :
    Emits cb (ipcBranch h i cb) .data (CleanSend h cb (.branch (.ipc i))) := by
  have halloc := silent_allocMsg { cb with ipcRead := ipcLenMem i cb }
  have hgrow : ∀ (n : Int) (p : Nat) (cb : RmcCtrlBlock), Silent cb (growMsg n p cb)
      ∧ ((growMsg n p cb).msgs p).buf = (cb.msgs p).buf := by
    intro n p cb
    unfold growMsg
    split
    · exact ⟨⟨rfl, rfl⟩, by simp only [RmcCtrlBlock.setMsg_self]⟩
    · exact ⟨Silent.refl cb, rfl⟩
  obtain ⟨hgrow, hbuf⟩ := hgrow (ipcLen h i cb) (allocMsg { cb with ipcRead := ipcLenMem i cb }).2
    (allocMsg { cb with ipcRead := ipcLenMem i cb }).1
  have hrecv : Silent cb (ipcRecv h i cb).1 :=
    ⟨hgrow.version.trans halloc.version, hgrow.sent.trans halloc.sent⟩
  -- the second `recv` writes behind the header
  have hversion : ((ipcRecv h i cb).1.msgs (ipcRecv h i cb).2).hdrVersion = versionAt cb 0 := by
    have hinto : ∀ (r : RecvResult) (m : Mem), r.into m sizeofHdr 0 = m 0 := by
      intro r m
      cases r with
      | err => rfl
      | ok bytes => exact writeBytes_below m bytes (by decide)
    have halloc := allocMsg_version { cb with ipcRead := ipcLenMem i cb }
    simp only [ipcRecv, RmcCtrlBlock.setMsg_self, RmcMsg.hdrVersion, RmcMsg.setBuf, hinto, hbuf]
    exact halloc
  unfold ipcBranch CleanSend
  split
  · rename_i hlen
    dsimp only
    split
    · rename_i hbody
      have hn : -1 ≤ ipcLen h i cb := hbody ▸ RecvResult.neg_one_le_ret _
      have hsend := emits_ipcSend h i.sendto (ipcRecv h i cb).2 (ipcRecv h i cb).1 hn
        (toInt32_lt _)
      rw [hversion, hrecv.version] at hsend
      exact (hrecv.trans_emits hsend).congr ⟨fun hok _ _ => hok, fun hok => hok hlen hbody⟩
    · rename_i hbody
      exact hrecv.emits fun _ hbody' => absurd hbody' hbody
  · rename_i hlen
    exact Silent.emits ⟨rfl, rfl⟩ fun hlen' => absurd hlen' hlen

theorem emits_hbeatBranch (hb : hbeatBranch h cb = some cb') :
    Emits cb cb' .hbeat (CleanSend h cb (.branch .hbeat)) := by
  obtain ⟨w, acks, hw, hcount, hsent, -⟩ := sendHbeat_sent h (some cb.hostname) 0 hb
  have hversion : cb'.version = cb.version := by
    obtain ⟨n, q, cs, buf, nmsgs, f, sent, -, -, rfl⟩ := hbeatBranch_spec hb
    exact (silent_purge _ _).version
  refine emits_one hversion hsent ?_
  rw [wellFormed_hbeat, hbeatOffset, hcount, hw]
  exact and_congr_left' (by rw [← allocMsg_version]; rfl)

theorem emits_daemonExit (h : Host) (cb : RmcCtrlBlock) :
    Emits cb (daemonExit h cb) .leave (CleanSend h cb .exit) := by
  have halloc := silent_allocMsg cb
  refine emits_one (x := ⟨.mcast, readBytes (leaveFill h (allocMsg cb).1.self
    ((allocMsg cb).1.msgs (allocMsg cb).2)).buf 0 (sizeT sizeofHdr), false⟩) halloc.version ?_ ?_
  · simp only [daemonExit, releaseMsg, RmcCtrlBlock.sendto, RmcCtrlBlock.setMsg,
      Function.update_self, halloc.sent]
  · rw [wellFormed_leave, allocMsg_version]
    exact Iff.rfl

theorem emits_nodeStep {op : NodeOp} (hown : Owned cb hand) (hstep : nodeStep h cb op = some cb')
    (hkept : ∀ k q, htblGet cb.outmsgbuf k = some q →
      WellFormed cb.version .data (keptBytes (cb.msgs q))) :
    Emits cb cb' (kindOf h cb op) (CleanSend h cb op) := by
  cases op with
  | branch b =>
    cases b with
    | mcast sender r =>
      obtain ⟨⟨cb₁, flag⟩, hb, rfl⟩ := Option.map_eq_some_iff.mp hstep
      exact emits_mcastBranch hown hb hkept
    | ipc i =>
      obtain rfl := Option.some.inj hstep
      exact emits_ipcBranch h i cb
    | hbeat => exact emits_hbeatBranch hstep
    | ack => exact (silent_ackBranch hstep).emits trivial
  | leave out keys =>
    obtain rfl := Option.some.inj hstep
    exact (silent_leaveWith out keys cb).emits trivial
  | exit =>
    obtain rfl := Option.some.inj hstep
    exact emits_daemonExit h cb

/-! ## §3 Retransmission -/

/-- On the way from `cb` to `cb'`, nothing is stored and what stays stored
keeps its bytes. -/
def Keeps (cb cb' : RmcCtrlBlock) : Prop :=
  ∀ k q, htblGet cb'.outmsgbuf k = some q → htblGet cb.outmsgbuf k = some q
    ∧ (InUse cb q → cb'.msgs q = cb.msgs q)

theorem keeps_purge {cb₁ : RmcCtrlBlock} (hk : Keeps cb cb₁) (bound : UInt32) :
    Keeps cb (purge bound cb₁) := by
  intro k q hq
  rw [htblGet_purge] at hq
  split at hq
  · cases hq
  · obtain ⟨o, b, s, hframe⟩ := purge_frame bound cb₁
    rw [hframe]
    exact hk k q hq

theorem keeps_hbeatBranch (hb : hbeatBranch h cb = some cb') : Keeps cb cb' := by
  obtain ⟨n, q, cs, buf, nmsgs, f, sent, -, hmsgs, rfl⟩ := hbeatBranch_spec hb
  refine keeps_purge ?_ _
  exact fun k q hk => ⟨hk, hmsgs q⟩

theorem keeps_ackBranch (ha : ackBranch cb = some cb') : Keeps cb cb' := by
  unfold ackBranch at ha
  split at ha
  · split at ha
    · cases ha
    split at ha
    · cases ha
    · obtain rfl := Option.some.inj ha
      exact keeps_purge (fun k q hk => ⟨hk, fun _ => rfl⟩) _
  · obtain rfl := Option.some.inj ha
    exact fun k q hk => ⟨hk, fun _ => rfl⟩

theorem keeps_leaveWith (out keys : List UInt32) (cb : RmcCtrlBlock) :
    Keeps cb (leaveWith out keys cb) := by
  obtain ⟨hmsgs, hkept⟩ := leaveWith_kept out keys cb
  exact fun k q hk => ⟨hkept k q hk, fun _ => congrFun hmsgs q⟩

theorem keeps_daemonExit (h : Host) (cb : RmcCtrlBlock) : Keeps cb (daemonExit h cb) := by
  intro k q hk
  refine ⟨?_, fun hin => ?_⟩
  · rw [← (sameSender_allocMsg cb).outmsgbuf]
    exact hk
  · exact (Function.update_of_ne (allocMsg_ne hin) _ _).trans (allocMsg_msgs hin)

/-- A message is stored when it is sent. -/
theorem ipcSend_stores {sendto n : Int} {p : Nat} {k : UInt32} {q : Nat}
    (hk : htblGet (ipcSend h sendto n p cb).outmsgbuf k = some q) :
    htblGet cb.outmsgbuf k = some q
      ∨ p = q ∧ ∃ x, (ipcSend h sendto n p cb).sent = cb.sent ++ [x]
        ∧ x.bytes = keptBytes ((ipcSend h sendto n p cb).msgs p) := by
  unfold ipcSend at hk ⊢
  by_cases hpos : 0 < sendto
  · rw [if_pos hpos] at hk ⊢
    rcases htblGet_put_cases hk with hold | ⟨-, hnew⟩
    · exact .inl hold
    · exact .inr ⟨hnew, _, rfl, by simp only [RmcCtrlBlock.sendto, RmcCtrlBlock.setMsg_self]; rfl⟩
  · rw [if_neg hpos] at hk
    exact .inl hk

theorem ipcBranch_stores (i : IpcInput) (hown : Owned cb hand) {k : UInt32} {q : Nat}
    (hk : htblGet (ipcBranch h i cb).outmsgbuf k = some q) :
    (htblGet cb.outmsgbuf k = some q ∧ (ipcBranch h i cb).msgs q = cb.msgs q)
      ∨ ∃ x ∈ (ipcBranch h i cb).sent.drop cb.sent.length,
          x.bytes = keptBytes ((ipcBranch h i cb).msgs q) := by
  have hinUse : htblGet cb.outmsgbuf k = some q → InUse cb q :=
    fun hk => hown.inUse (.inr (.inl (mem_htblValues.mpr ⟨_, hk⟩)))
  rcases ipcBranch_cases h i cb with ⟨hsame, hmsgs⟩ | ⟨-, -, hsend⟩
  · rw [hsame.outmsgbuf] at hk
    exact .inl ⟨hk, hmsgs q (hinUse hk)⟩
  · rw [hsend] at hk ⊢
    rcases ipcSend_stores hk with hold | ⟨rfl, x, hsent, hbytes⟩
    · rw [(sameSender_ipcRecv h i cb).outmsgbuf] at hold
      obtain ⟨hne, hmsgs⟩ := ipcRecv_msgs h i (hinUse hold)
      exact .inl ⟨hold, (ipcSend_msgs h hne).trans hmsgs⟩
    · rw [(ipcRecv_frame h i cb).2.1] at hsent
      rw [hsent, List.drop_left]
      exact .inr ⟨x, List.mem_singleton.mpr rfl, hbytes⟩

/-- The log holds what is kept for retransmission. -/
structure Logged (s : Emitter) : Prop where
  owned : ∃ hand, Owned s.cb hand
  kept : ∀ k q, htblGet s.cb.outmsgbuf k = some q →
    (MsgType.data, keptBytes (s.cb.msgs q)) ∈ s.emitted

theorem logged_step {s s' : Emitter} {op : NodeOp} (hs : Logged s)
    (hstep : s.step h op = some s') : Logged s' := by
  obtain ⟨cb', hcb, rfl⟩ := Option.map_eq_some_iff.mp hstep
  obtain ⟨hand, hown⟩ := hs.owned
  have hkeep : Keeps s.cb cb' → ∀ k q, htblGet cb'.outmsgbuf k = some q →
      (MsgType.data, keptBytes (cb'.msgs q)) ∈ s.emitted
        ++ (cb'.sent.drop s.cb.sent.length).map fun x => (kindOf h s.cb op, x.bytes) := by
    intro hkeep k q hq
    obtain ⟨hold, hmsgs⟩ := hkeep k q hq
    rw [hmsgs (hown.inUse (.inr (.inl (mem_htblValues.mpr ⟨k, hold⟩))))]
    exact List.mem_append_left _ (hs.kept k q hold)
  cases op with
  | branch b =>
    refine ⟨owned_branch hown hcb, ?_⟩
    cases b with
    | mcast sender r =>
      obtain ⟨⟨cb₁, flag⟩, hb, rfl⟩ := Option.map_eq_some_iff.mp hcb
      refine hkeep fun k q hq => ?_
      rw [(sameSender_mcastBranch h sender r hb).outmsgbuf] at hq
      exact ⟨hq, fun hin => mcastBranch_msgs h sender r hin hb⟩
    | ipc i =>
      obtain rfl := Option.some.inj hcb
      intro k q hq
      rcases ipcBranch_stores i hown hq with ⟨hold, hmsgs⟩ | ⟨x, hx, hbytes⟩
      · rw [hmsgs]
        exact List.mem_append_left _ (hs.kept k q hold)
      · rw [← hbytes]
        exact List.mem_append_right _ (List.mem_map.mpr ⟨x, hx, rfl⟩)
    | hbeat => exact hkeep (keeps_hbeatBranch hcb)
    | ack => exact hkeep (keeps_ackBranch hcb)
  | leave out keys =>
    obtain rfl := Option.some.inj hcb
    exact ⟨owned_leaveWith out keys hown, hkeep (keeps_leaveWith out keys s.cb)⟩
  | exit =>
    obtain rfl := Option.some.inj hcb
    exact ⟨⟨_, owned_daemonExit h hown⟩, hkeep (keeps_daemonExit h s.cb)⟩

/-! ## §4 A step -/

/-- **One step** sends only well-formed datagrams exactly if it is clean. -/
theorem allWellFormed_step_iff {s s' : Emitter} {op : NodeOp} (hs : Logged s)
    (hall : s.AllWellFormed) (hstep : s.step h op = some s') :
    s'.AllWellFormed ↔ CleanSend h s.cb op := by
  obtain ⟨cb', hcb, rfl⟩ := Option.map_eq_some_iff.mp hstep
  obtain ⟨hand, hown⟩ := hs.owned
  have he := emits_nodeStep hown hcb fun k q hk => hall _ (hs.kept k q hk)
  obtain ⟨xs, hsent, hok⟩ := he.sent
  unfold Emitter.AllWellFormed at hall ⊢
  rw [← hok]
  simp only [hsent, List.drop_left, he.version, List.forall_mem_append, List.forall_mem_map]
  exact ⟨fun hnew => hnew.2, fun hnew => ⟨hall, hnew⟩⟩

end Rms.V01
