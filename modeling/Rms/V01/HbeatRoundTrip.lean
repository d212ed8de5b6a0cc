/-
Rms.V01.HbeatRoundTrip — heartbeats from `send_hbeat` to the handler.

The writer and the reader of a heartbeat disagree in three places. The
reader takes the lost counter through a 16-bit conversion. It looks for
the name at the start of the structure and not behind it. And it skips
the name with its terminator, where the writer has put the first ack over
the terminator and has not counted the name among the bytes to send.

So session and flags always survive, everything survives without a name
as long as the lost counter does, and a name never survives unless it is
empty. `hbeat_round_trip_iff` is the exact condition.
-/
import Rms.V01.HbeatTheorems
import Rms.V01.SendTheorems

namespace Rms.V01

open Rms.ByteMem Rms.Util

/-! ## The ack list -/

/-- `n` pairs of big-endian words from `off` on. -/
def pairsAt (m : Mem) (off n : Nat) : List (UInt32 × UInt32) :=
  (List.range n).map fun i => (be32At m (off + 8 * i), be32At m (off + 8 * i + 4))

theorem pairsAt_succ (m : Mem) (off n : Nat) :
    pairsAt m off (n + 1) = (be32At m off, be32At m (off + 4)) :: pairsAt m (off + 8) n := by
  simp only [pairsAt, List.range_succ_eq_map, List.map_cons, List.map_map, Nat.mul_zero,
    Nat.add_zero]
  refine congrArg _ (List.map_congr_left fun i _ => ?_)
  have hi : off + 8 * (i + 1) = off + 8 + 8 * i := by omega
  simp only [Function.comp_apply, Nat.succ_eq_add_one, hi]

theorem pairsAt_congr {m m' : Mem} {off n : Nat}
    (h : ∀ i, off ≤ i → i < off + 8 * n → m i = m' i) : pairsAt m off n = pairsAt m' off n := by
  refine List.map_congr_left fun i hi => ?_
  have hi := List.mem_range.mp hi
  rw [be32At_congr fun j hlo hhi => h j (by omega) (by omega),
    be32At_congr fun j hlo hhi => h j (by omega) (by omega)]

/-- Where the bytes of an ack list lie, its entries are read. -/
theorem pairsAt_of_readBytes {m : Mem} {l : List (UInt32 × UInt32)} :
    ∀ {off : Nat}, readBytes m off (8 * l.length) = l.flatMap (fun a => be32 a.1 ++ be32 a.2) →
      pairsAt m off l.length = l := by
  induction l with
  | nil => exact fun _ => rfl
  | cons a l ih =>
    intro off h
    rw [List.length_cons, Nat.mul_succ, Nat.add_comm, readBytes_add, List.flatMap_cons] at h
    obtain ⟨ha, hl⟩ := List.append_inj h (by simp)
    rw [readBytes_add m off 4 4] at ha
    obtain ⟨ha₁, ha₂⟩ := List.append_inj ha (by simp)
    rw [List.length_cons, pairsAt_succ, be32At_of_readBytes ha₁, be32At_of_readBytes ha₂, ih hl]

/-- The number acknowledged for an id: that of its first entry. -/
def ackOf (acks : List (UInt32 × UInt32)) (id : UInt32) : Option UInt32 :=
  (acks.find? fun a => a.1 = id).map Prod.snd

theorem ackOf_cons (a : UInt32 × UInt32) (acks : List (UInt32 × UInt32)) (id : UInt32) :
    ackOf (a :: acks) id = if a.1 = id then some a.2 else ackOf acks id := by
  unfold ackOf
  rw [List.find?_cons]
  by_cases h : a.1 = id
  · rw [if_pos h, decide_eq_true h]
    rfl
  · rw [if_neg h, decide_eq_false h]

/-- The scan finds the first entry for an id. -/
theorem ackScan_eq (e : Endian) (buf : Mem) (data : Nat) (id : UInt32) (n : Nat) :
    ∀ itr, ackScan e buf data id n itr = ackOf (pairsAt buf (data + 8 * itr) n) id := by
  induction n with
  | zero => exact fun _ => rfl
  | succ n ih =>
    intro itr
    have hid : data + itr * 2 * sizeofLong = data + 8 * itr := by
      simp only [sizeofLong]
      omega
    have hnum : data + (itr * 2 + 1) * sizeofLong = data + 8 * itr + 4 := by
      simp only [sizeofLong]
      omega
    rw [ackScan, ntohl_load32, ntohl_load32, hid, hnum, pairsAt_succ, ih,
      show data + 8 * (itr + 1) = data + 8 * itr + 8 by omega, ackOf_cons]

/-! ## The reader -/

/-- The handler up to its check for a gap: the state, and the member the
heartbeat is from. -/
def hbeatHeard (h : Host) (p : Nat) (cb : RmcCtrlBlock) : RmcCtrlBlock × Nat :=
  let r := hbeatMember h p (cb.setMsg p (hbeatDecode h.endian (cb.msgs p)))
  (hbeatApply h p r, r.2)

theorem hbeatMsg_heard (h : Host) (p : Nat) (cb : RmcCtrlBlock) :
    hbeatMsg h p cb = releaseMsg (hbeatGap h (hbeatHeard h p cb).2 p (hbeatHeard h p cb).1) p :=
  rfl

/-- The lost counter as the handler reads it. -/
def lostRead (e : Endian) (lost : UInt32) : UInt32 :=
  (ntohs e (htonl e lost).toUInt16).toUInt32

/-- The 16-bit conversion takes the lower half of the counter on a
big-endian host and the upper half on a little-endian one. -/
theorem lostRead_toNat (e : Endian) (lost : UInt32) :
    (lostRead e lost).toNat = match e with
      | .big => lost.toNat % 65536
      | .little => lost.toNat / 65536 := by
  cases e with
  | big => simp [lostRead, ntohs, htons, htonl]
  | little =>
    obtain ⟨b₀, b₁, b₂, b₃, rfl⟩ : ∃ b₀ b₁ b₂ b₃, lost = word32 b₀ b₁ b₂ b₃ :=
      ⟨_, _, _, _, (word32_be32 lost).symm⟩
    have h₀ := b₀.toNat_lt
    have h₁ := b₁.toNat_lt
    have h₂ := b₂.toNat_lt
    have h₃ := b₃.toNat_lt
    have hlow : (word32 b₃ b₂ b₁ b₀).toUInt16 = word16 b₁ b₀ := by
      apply UInt16.toNat_inj.mp
      rw [UInt32.toNat_toUInt16, word32_toNat, word16_toNat]
      omega
    simp only [lostRead, ntohs, htons, htonl, bswap32_word32, hlow, bswap16_word16,
      UInt16.toNat_toUInt32, word16_toNat, word32_toNat]
    omega

/-- When the counter survives. -/
def LostFits (e : Endian) (lost : UInt32) : Prop :=
  match e with
  | .big => lost.toNat < 65536
  | .little => lost = 0

theorem lostRead_eq_iff (e : Endian) (lost : UInt32) :
    lostRead e lost = lost ↔ LostFits e lost := by
  rw [← UInt32.toNat_inj, lostRead_toNat]
  cases e with
  | big =>
    simp only [LostFits]
    omega
  | little =>
    simp only [LostFits, ← UInt32.toNat_inj, UInt32.toNat_zero]
    omega

/-- Then the counter begins with a zero byte. -/
theorem LostFits.first_byte {e : Endian} {lost : UInt32} (h : LostFits e lost) :
    UInt8.ofNat (lost.toNat / 16777216) = 0 := by
  have hzero : lost.toNat / 16777216 = 0 := by
    cases e with
    | big =>
      simp only [LostFits] at h
      omega
    | little =>
      simp only [LostFits] at h
      rw [h]
      rfl
  rw [hzero]
  rfl

/-- What the update does to the lost counter and the acknowledgement. -/
theorem hbeatUpdate_spec (e : Endian) {msg : RmcMsg} {f : HbeatFields}
    (hlost : readBytes msg.buf 12 4 = be32 f.lost) (hacks : readBytes msg.buf 24 2 = be16 f.acks)
    (hname : msg.hbeatNamelen e = f.namelen) (selfId : UInt32) (mem : RmcMember) :
    (hbeatUpdate e msg selfId mem).lost = lostRead e f.lost
      ∧ (hbeatUpdate e msg selfId mem).sequenceSync
          = (ackOf (pairsAt msg.buf (sizeofHdr + sizeofHbeat + f.namelen.toNat) f.acks.toNat)
              selfId).getD mem.sequenceSync := by
  have hl : msg.hbeatLost e = htonl e f.lost := by
    rw [RmcMsg.hbeatLost, load32_eq_htonl, be32At_of_readBytes hlost]
  have ha : ntohs e (msg.hbeatAcks e) = f.acks := by
    rw [RmcMsg.hbeatAcks, ntohs_load16]
    exact be16At_of_readBytes hacks
  unfold hbeatUpdate
  simp only
  rw [hl, hname, ha, ackScan_eq]
  split
  · rw [Nat.mul_zero, Nat.add_zero]
    cases ackOf (pairsAt msg.buf (sizeofHdr + sizeofHbeat + f.namelen.toNat) f.acks.toNat)
      selfId with
    | none => exact ⟨rfl, rfl⟩
    | some s => exact ⟨rfl, rfl⟩
  · -- no acks announced
    rename_i hzero
    have hnone : f.acks = 0 := by
      rw [← ha, not_not.mp hzero]
      cases e <;> rfl
    rw [hnone]
    exact ⟨rfl, rfl⟩

/-- The acknowledged number the handler starts from. -/
def priorSync (cb : RmcCtrlBlock) (id : UInt32) : UInt32 :=
  match htblGet cb.members id with
  | none => 0
  | some mp => (cb.mems mp).sequenceSync

/-- The member of a heartbeat, made or found, and then updated. -/
theorem hbeatHeard_spec (h : Host) (p : Nat) (cb : RmcCtrlBlock) :
    ∃ mem, (hbeatHeard h p cb).1.mems (hbeatHeard h p cb).2
        = hbeatUpdate h.endian (hbeatDecode h.endian (cb.msgs p)) cb.self.id mem
      ∧ mem.session = (hbeatDecode h.endian (cb.msgs p)).hbeatSession h.endian
      ∧ mem.sequenceSync = priorSync cb ((cb.msgs p).hdrId h.endian)
      ∧ (htblGet cb.members ((cb.msgs p).hdrId h.endian) = none → mem.hostname
          = (hbeatNewMember h.endian (hbeatDecode h.endian (cb.msgs p))).hostname)
      ∧ (hbeatHeard h p cb).1.msgs p
          = hbeatDecodeTail h.endian (hbeatDecode h.endian (cb.msgs p)) := by
  have hid := (hbeatDecode_header h.endian (cb.msgs p)).2.2
  have hself : (cb.setMsg p (hbeatDecode h.endian (cb.msgs p))).msgs p
      = hbeatDecode h.endian (cb.msgs p) := Function.update_self ..
  unfold hbeatHeard hbeatMember
  rw [hself, hid]
  cases hk : htblGet cb.members ((cb.msgs p).hdrId h.endian) with
  | none =>
    refine ⟨hbeatNewMember h.endian (hbeatDecode h.endian (cb.msgs p)), ?_, rfl, ?_,
      fun _ => rfl, ?_⟩
    · simp only [RmcCtrlBlock.setMsg, hk, hbeatApply, registerMember, RmcCtrlBlock.setMem,
        Function.update_self]
    · rw [priorSync, hk]
      rfl
    · simp only [RmcCtrlBlock.setMsg, hk, hbeatApply, registerMember, RmcCtrlBlock.setMem,
        Function.update_self]
  | some mp =>
    have hprior : priorSync cb ((cb.msgs p).hdrId h.endian) = (cb.mems mp).sequenceSync := by
      rw [priorSync, hk]
    by_cases hs : (hbeatDecode h.endian (cb.msgs p)).hbeatSession h.endian = (cb.mems mp).session
    · refine ⟨cb.mems mp, ?_, hs.symm, hprior.symm, (fun hn => by cases hn), ?_⟩
      · simp only [RmcCtrlBlock.setMsg, hk, hs, ne_eq, not_true_eq_false, if_false, hbeatApply,
          RmcCtrlBlock.setMem, Function.update_self]
      · simp only [RmcCtrlBlock.setMsg, hk, hs, ne_eq, not_true_eq_false, if_false, hbeatApply,
          RmcCtrlBlock.setMem, Function.update_self]
    · refine ⟨hbeatNewSession h.endian (hbeatDecode h.endian (cb.msgs p)) (cb.mems mp), ?_, rfl,
        hprior.symm, (fun hn => by cases hn), ?_⟩
      · simp only [RmcCtrlBlock.setMsg, hk, hs, ne_eq, not_false_eq_true, if_true, hbeatApply,
          RmcCtrlBlock.setMem, Function.update_self]
      · simp only [RmcCtrlBlock.setMsg, hk, hs, ne_eq, not_false_eq_true, if_true, hbeatApply,
          RmcCtrlBlock.setMem, Function.update_self]

/-! ## The round trip -/

theorem cString_nil {m : Mem} {off : Nat} (h : m off = 0) (limit : Nat) :
    cString m off limit = [] := by
  unfold cString
  cases limit - off with
  | zero => rfl
  | succ n => simp [readBytes, List.range_succ_eq_map, h]

/-- Where a heartbeat's own bytes end, the buffer is as it was. -/
theorem received_tail (h : Host) {cb : RmcCtrlBlock} {d : Datagram} {f : HbeatFields}
    {tail : List UInt8} (hd : IsHbeat d f tail) (hf : Fits cb d) {i : Nat}
    (hi : sizeofHdr + sizeofHbeat ≤ i) :
    (hbeatDecode h.endian ((received h (.ok d.bytes) cb).msgs (allocMsg cb).2)).buf i
      = writeBytes ((allocMsg cb).1.msgs (allocMsg cb).2).buf (sizeofHdr + sizeofHbeat) tail i := by
  have hhdr : sizeofHdr ≤ i := Nat.le_trans (Nat.le_add_right _ _) hi
  rw [hbeatDecode_buf h.endian _ (.inr (by simp only [sizeofHdr, sizeofHbeat] at hi; omega)),
    received_above h hf hhdr]
  have hlen := d.bytes_length
  rw [hd.body, List.length_append, f.bytes_length] at hlen
  rcases Nat.lt_or_ge i d.bytes.length with hin | hout
  · have hget : d.bytes[i]? = tail[i - (sizeofHdr + sizeofHbeat)]? := by
      have hcut : d.bytes.drop (sizeofHdr + sizeofHbeat) = tail := by
        rw [Datagram.bytes, hd.body]
        rfl
      rw [← hcut, List.getElem?_drop, Nat.add_sub_cancel' hi]
    simp only [writeBytes, Nat.zero_le, if_true, Nat.sub_zero, hi, hget]
  · rw [writeBytes_above _ _ (by omega), writeBytes_above _ _ (by omega)]

/-- What the handler makes of a heartbeat it received whole. -/
theorem heard_received (h : Host) {cb : RmcCtrlBlock} {d : Datagram} {f : HbeatFields}
    {tail : List UInt8} (hd : IsHbeat d f tail) (hf : Fits cb d) {s : RmcCtrlBlock × Nat}
    (hs : hbeatHeard h (allocMsg cb).2 (received h (.ok d.bytes) cb) = s) :
    (s.1.mems s.2).lost = lostRead h.endian f.lost
      ∧ (s.1.mems s.2).session = f.session
      ∧ (s.1.msgs (allocMsg cb).2).hbeatFlags h.endian = f.flags
      ∧ (s.1.mems s.2).sequenceSync = (ackOf (pairsAt
          (writeBytes ((allocMsg cb).1.msgs (allocMsg cb).2).buf (sizeofHdr + sizeofHbeat) tail)
          (sizeofHdr + sizeofHbeat + f.namelen.toNat) f.acks.toNat) cb.self.id).getD
            (priorSync cb d.id)
      ∧ (htblGet cb.members d.id = none → f.namelen = 0 → (s.1.mems s.2).hostname = noname)
      ∧ (htblGet cb.members d.id = none → f.namelen ≠ 0 →
          UInt8.ofNat (f.lost.toNat / 16777216) = 0 → (s.1.mems s.2).hostname = []) := by
  have hheld := holds_received h hf
  have hat := hbeatAt_received h hd hf
  have htail := fun i => received_tail h hd hf (i := i)
  obtain ⟨hmems, hmembers, -, -⟩ := received_receiver h (.ok d.bytes) cb
  have hself : (received h (.ok d.bytes) cb).self = cb.self := (allocMsg_frame cb).1
  obtain ⟨mem, hmem, hsess, hsync, hhost, hmsg⟩ :=
    hbeatHeard_spec h (allocMsg cb).2 (received h (.ok d.bytes) cb)
  rw [hs] at hmem hmsg
  have hprior : priorSync (received h (.ok d.bytes) cb) d.id = priorSync cb d.id := by
    rw [priorSync, hmembers, hmems, priorSync]
  rw [hheld.id, hprior] at hsync
  rw [hheld.id, hmembers] at hhost
  rw [hself] at hmem
  generalize (received h (.ok d.bytes) cb).msgs (allocMsg cb).2 = msg at *
  obtain ⟨hname, hflags, hsession⟩ := hbeatDecode_fields h.endian hat
  have hlost : readBytes (hbeatDecode h.endian msg).buf 12 4 = be32 f.lost := by
    rw [readBytes_congr fun i _ hhi => hbeatDecode_buf h.endian msg (by omega)]
    exact hat.lost
  have hacks : readBytes (hbeatDecode h.endian msg).buf 24 2 = be16 f.acks := by
    rw [readBytes_congr fun i hlo _ => hbeatDecode_buf h.endian msg (by omega)]
    exact hat.acks
  obtain ⟨hul, hus⟩ := hbeatUpdate_spec h.endian hlost hacks hname cb.self.id mem
  obtain ⟨-, huss, huh, -⟩ := hbeatUpdate_sequence h.endian (hbeatDecode h.endian msg) cb.self.id
    mem
  rw [hmem]
  refine ⟨hul, ?_, ?_, ?_, ?_, ?_⟩
  · rw [huss, hsess, hsession]
  · rw [hmsg, hbeatDecodeTail_flags, hflags]
  · rw [hus, hsync, pairsAt_congr fun i hlo _ => htail i (by omega)]
  · intro hnew hzero
    rw [huh, hhost hnew]
    simp only [hbeatNewMember, rmcastMemberInit, hname, hzero, ne_eq, not_true_eq_false, if_false]
  · intro hnew hne hbyte
    have hfirst : (hbeatDecode h.endian msg).buf sizeofHdr = 0 := by
      rw [← hbyte]
      exact (List.cons.inj hlost).1
    rw [huh, hhost hnew]
    simp only [hbeatNewMember, rmcastMemberInit, hname, hne, ne_eq, not_false_eq_true, if_true]
    exact cString_nil hfirst _

section Sent

variable (self : RmcMember) (hname : Option (List UInt8)) (acks : Option (List (UInt32 × UInt32)))
  (flags : UInt16)

theorem isHbeat_hbeatDgram (version : UInt8) :
    IsHbeat (hbeatDgram version self hname acks flags) (hbeatFields self hname acks flags)
      (hbeatTail hname acks) := by
  refine ⟨rfl, ?_, rfl⟩
  rw [hbeatDgram_body_length]
  exact Nat.mod_le _ _

variable {acks}

/-- The two counts that are sent are those of the name, with its
terminator, and of the ack list. -/
theorem hbeatFields_acks (hfit : hbeatOffset acks < 65536) :
    (hbeatFields self hname acks flags).acks.toNat = (acks.getD []).length := by
  cases acks with
  | none => rfl
  | some l =>
    simp only [hbeatOffset, Option.getD_some, sizeofLong] at hfit
    simp only [hbeatFields, UInt16.toNat_ofNat', Option.getD_some]
    exact Nat.mod_eq_of_lt (by omega)

variable (acks)

theorem hbeatFields_namelen {name : List UInt8} (hlen : name.length ≤ 63) :
    (hbeatFields self (some name) acks flags).namelen.toNat = name.length + 1 := by
  simp only [hbeatFields, UInt16.toNat_ofNat']
  exact Nat.mod_eq_of_lt (by omega)

/-- Without a name the ack list is read where it stands. -/
theorem pairsAt_nameless (buf : Mem) :
    pairsAt (writeBytes buf (sizeofHdr + sizeofHbeat) (hbeatTail none acks))
      (sizeofHdr + sizeofHbeat) (acks.getD []).length = acks.getD [] := by
  apply pairsAt_of_readBytes
  rw [Nat.mul_comm, show (acks.getD []).length * 8 = hbeatOffset acks from rfl,
    ← hbeatTail_length none acks, readBytes_writeBytes, hbeatTail, List.take_of_length_le]
  · rfl
  · rw [Option.getD_none, List.nil_append, ← ackBytes_eq .big, ackBytes_length]
    exact Nat.le_refl _

end Sent

/-- **The heartbeat round trip.** A node sends a heartbeat with an optional
name and an ack list, and another node handles exactly the bytes that
were sent. Name (of a peer that is not registered yet), lost counter,
session, flags and acknowledged number are recovered exactly when the
counter survives its 16-bit conversion and there is no name, or the name
is empty (or not needed) and the ack list, read behind a terminator that
is not there, happens to give the right number. -/
theorem hbeat_round_trip_iff (hS hR : Host) (sender : SockaddrIn) (self : RmcMember)
    (hname : Option (List UInt8)) (acks : Option (List (UInt32 × UInt32))) (flags : UInt16)
    (m : RmcMsg) (cb : RmcCtrlBlock) (s : RmcCtrlBlock × Nat)
    (hchars : ∀ name ∈ hname, name.length ≤ 63)
    (hfit : sizeofHdr + sizeofHbeat + hbeatOffset acks < 65536)
    (hroom : sizeofHdr + sizeofHbeat + hbeatOffset acks
      ≤ ((allocMsg cb).1.msgs (allocMsg cb).2).size)
    (hs : hbeatHeard hR (allocMsg cb).2
      (received hR (.ok (hbeatBytes hS self hname acks flags m)) cb) = s) :
    (mcastBranch hR sender (.ok (hbeatBytes hS self hname acks flags m)) cb).map Prod.fst
        = some (releaseMsg (hbeatGap hR s.2 (allocMsg cb).2 s.1) (allocMsg cb).2)
      ∧ ((htblGet cb.members self.id = none → (s.1.mems s.2).hostname = hname.getD noname)
          ∧ (s.1.mems s.2).lost = self.lost
          ∧ (s.1.mems s.2).session = self.session
          ∧ (s.1.msgs (allocMsg cb).2).hbeatFlags hR.endian = flags
          ∧ (∀ n, ackOf (acks.getD []) cb.self.id = some n → (s.1.mems s.2).sequenceSync = n)
        ↔ LostFits hR.endian self.lost
          ∧ (hname = none
            ∨ (htblGet cb.members self.id = none → hname = some [])
              ∧ ∀ n, ackOf (acks.getD []) cb.self.id = some n →
                (ackOf (pairsAt (writeBytes ((allocMsg cb).1.msgs (allocMsg cb).2).buf
                    (sizeofHdr + sizeofHbeat) (hbeatTail hname acks))
                  (sizeofHdr + sizeofHbeat + ((hname.getD []).length + 1))
                  (acks.getD []).length) cb.self.id).getD (priorSync cb self.id) = n)) := by
  rw [hbeatBytes_eq hS self hname acks flags m (by omega)] at hs ⊢
  have hd := isHbeat_hbeatDgram self hname acks flags (m.buf 0)
  have hf : Fits cb (hbeatDgram (m.buf 0) self hname acks flags) := by
    unfold Fits
    rw [Datagram.bytes_length, hbeatDgram_body_length, ← Nat.add_assoc]
    exact ⟨hroom, by omega⟩
  obtain ⟨hlost, hsess, hflags, hsync, hnoname, hempty⟩ := heard_received hR hd hf hs
  rw [hbeatFields_acks self hname flags (by omega)] at hsync
  constructor
  · have hrecv := receive_hbeat hR sender hd hf
    rw [hbeatMsg_heard, hs] at hrecv
    exact hrecv
  rw [hlost, hsess, hflags, hsync, show (hbeatFields self hname acks flags).lost = self.lost from rfl,
    lostRead_eq_iff]
  cases hname with
  | none =>
    constructor
    · rintro ⟨-, hl, -⟩
      exact ⟨hl, .inl rfl⟩
    · rintro ⟨hl, -⟩
      refine ⟨fun hnew => hnoname hnew rfl, hl, rfl, rfl, fun n hn => ?_⟩
      rw [show (hbeatFields self none acks flags).namelen.toNat = 0 from rfl, Nat.add_zero,
        pairsAt_nameless, hn]
      rfl
  | some name =>
    have hlen := hchars name rfl
    have hnl := hbeatFields_namelen self acks flags hlen
    have hne : (hbeatFields self (some name) acks flags).namelen ≠ 0 := by
      intro hzero
      rw [hzero] at hnl
      exact absurd hnl (Nat.succ_ne_zero _).symm
    rw [hnl]
    constructor
    · rintro ⟨hhost, hl, -, -, hack⟩
      refine ⟨hl, .inr ⟨fun hnew => ?_, hack⟩⟩
      exact congrArg some ((hhost hnew).symm.trans (hempty hnew hne hl.first_byte))
    · rintro ⟨hl, hor⟩
      obtain ⟨hnil, hack⟩ := hor.resolve_left (by simp)
      refine ⟨fun hnew => ?_, hl, rfl, rfl, hack⟩
      rw [hempty hnew hne hl.first_byte]
      exact (Option.some.inj (hnil hnew)).symm

/-- Node 1, which has lost one message. -/
def lostOne : RmcMember := { rmcastMemberInit [104] 1 7 with lost := 1 }

/-- A heartbeat without a name, on little-endian hosts. -/
theorem hbeat_round_trip_iff_nameless :
    ∃ s, hbeatHeard littleHost (allocMsg nodeTwo).2 (received littleHost
        (.ok (hbeatBytes littleHost lostOne none (some [(2, 5)]) 3 (zeroGarbage.msgs 0))) nodeTwo)
        = s
      ∧ (((htblGet nodeTwo.members lostOne.id = none → (s.1.mems s.2).hostname = noname)
          ∧ (s.1.mems s.2).lost = lostOne.lost
          ∧ (s.1.mems s.2).session = lostOne.session
          ∧ (s.1.msgs (allocMsg nodeTwo).2).hbeatFlags .little = 3
          ∧ (∀ n, ackOf [(2, 5)] nodeTwo.self.id = some n → (s.1.mems s.2).sequenceSync = n))
        ↔ LostFits .little lostOne.lost
          ∧ ((none : Option (List UInt8)) = none
            ∨ (htblGet nodeTwo.members lostOne.id = none →
                (none : Option (List UInt8)) = some [])
              ∧ ∀ n, ackOf [(2, 5)] nodeTwo.self.id = some n →
                (ackOf (pairsAt (writeBytes ((allocMsg nodeTwo).1.msgs (allocMsg nodeTwo).2).buf
                    (sizeofHdr + sizeofHbeat) (hbeatTail none (some [(2, 5)])))
                  (sizeofHdr + sizeofHbeat + (0 + 1)) 1) nodeTwo.self.id).getD
                    (priorSync nodeTwo lostOne.id) = n)) := by
  have hroom : sizeofHdr + sizeofHbeat + hbeatOffset (some [(2, 5)])
      ≤ ((allocMsg nodeTwo).1.msgs (allocMsg nodeTwo).2).size := by
    decide +kernel
  exact ⟨_, rfl, (hbeat_round_trip_iff littleHost littleHost anyAddr lostOne none
    (some [(2, 5)]) 3 (zeroGarbage.msgs 0) nodeTwo _ (by simp) (by decide) hroom rfl).2⟩

/-- Node 1 is called `h`, has lost one message and acknowledges number 5 of
node 2. What node 2 makes of its heartbeat: no name, nothing lost,
nothing acknowledged. -/
theorem hbeat_round_trip_fails :
    ∃ s, hbeatHeard littleHost (allocMsg nodeTwo).2 (received littleHost
        (.ok (hbeatBytes littleHost lostOne (some [104]) (some [(2, 5)]) 3 (zeroGarbage.msgs 0)))
        nodeTwo) = s
      ∧ (s.1.mems s.2).hostname = [] ∧ (s.1.mems s.2).lost = 0
      ∧ (s.1.mems s.2).sequenceSync = 0 :=
  ⟨_, rfl, by decide +kernel⟩

end Rms.V01
