/-
Rms.V01.NackTheorems — the NACK exchange between two nodes.

`send_nack` lists numbers behind a count word and puts the id of the
member it asks into the header. The handler on the other side differs in
three ways: it uses the count word as it lies in memory, the count
includes the count word itself, and it answers to the id in the header,
which is its own.

`nackLookups` is the list of keys the handler looks up in `outmsgbuf`.
It consists of the listed numbers, as far as the count goes, and then of
whatever lies in the buffer behind the datagram (`nackLookups_received`).
`nack_exchange_iff` says exactly when this is the set that was listed and
when the answers reach the node that asked, for any list that fits into
the receiver's buffer. The lists that `send_nack` makes do not
(`nackList_eq`): what becomes of them is in `BoundedTheorems`.
-/
import Rms.V01.DataTheorems
import Rms.V01.SendTheorems

namespace Rms.V01

open Rms.ByteMem Rms.Util Rms.Serial

/-! ## The datagram -/

/-- The datagram `send_nack` builds for a list of numbers. -/
def nackDgram (version : UInt8) (mem : RmcMember) (listed : List UInt32) : Datagram :=
  { version := version, type := MsgType.nack.toByte
    length := UInt16.ofNat ((1 + listed.length) * sizeofLong)
    sequence := mem.sequence, id := mem.id
    body := be32 (UInt32.ofNat (1 + listed.length)) ++ listed.flatMap be32 }

/-- The bytes `send_nack` passes to `sendto`. -/
def nackBytes (h : Host) (mem : RmcMember) (m : RmcMsg) (listed : List UInt32) : List UInt8 :=
  readBytes (nackFill h mem m listed).buf 0
    (sizeT (sizeofHdr + (1 + listed.length) * sizeofLong))

theorem sendNack_sent (h : Host) (mp p : Nat) (cb : RmcCtrlBlock) :
    (sendNack h mp p cb).sent = cb.sent
      ++ [⟨.ucast (htonl h.endian (cb.mems mp).id),
          nackBytes h (cb.mems mp) (cb.msgs p) (nackList (cb.mems mp)), false⟩] := by
  simp only [sendNack, RmcCtrlBlock.sendto, RmcCtrlBlock.setMem, RmcCtrlBlock.setMsg,
    Function.update_self, nackBytes]

theorem nackDgram_body_length (version : UInt8) (mem : RmcMember) (listed : List UInt32) :
    (nackDgram version mem listed).body.length = (1 + listed.length) * sizeofLong := by
  simp only [nackDgram, List.length_append, be32_length, flatMap_be32_length, sizeofLong]
  omega

theorem begins_nackFill (h : Host) (mem : RmcMember) (m : RmcMsg) (listed : List UInt32) :
    Begins (nackFill h mem m listed).buf (nackDgram (m.buf 0) mem listed) := by
  simp only [nackFill, RmcMsg.setHdrType, RmcMsg.setHdrLength, RmcMsg.setHdrSequence,
    RmcMsg.setHdrId, RmcMsg.setBuf, store16_htons, store32_htonl, enc32_htonl]
  refine ⟨?_, ?_, ?_, ?_, ?_, ?_⟩
  · rw [writeBytes_below _ _ (by omega), writeBytes_below _ _ (by simp [sizeofHdr]),
      writeBytes_below _ _ (by simp [sizeofHdr]), writeBytes_below _ _ (by omega),
      writeBytes_below _ _ (by omega), writeBytes_below _ _ (by omega)]
    rfl
  · rw [writeBytes_below _ _ (by omega), writeBytes_below _ _ (by simp [sizeofHdr]),
      writeBytes_below _ _ (by simp [sizeofHdr, sizeofLong]), writeBytes_below _ _ (by omega),
      writeBytes_below _ _ (by omega)]
    rfl
  · exact readBytes_writeBytes _ 2 (be16 _)
  · rw [readBytes_writeBytes_disjoint _ _ _ _ _ (.inr (by simp)),
      readBytes_writeBytes_disjoint _ _ _ _ _ (.inl (by simp [sizeofHdr])),
      readBytes_writeBytes_disjoint _ _ _ _ _ (.inl (by simp [sizeofHdr, sizeofLong])),
      readBytes_writeBytes_disjoint _ _ _ _ _ (.inl (by omega))]
    exact readBytes_writeBytes _ 4 (be32 mem.sequence)
  · rw [readBytes_writeBytes_disjoint _ _ _ _ _ (.inr (by simp)),
      readBytes_writeBytes_disjoint _ _ _ _ _ (.inl (by simp [sizeofHdr])),
      readBytes_writeBytes_disjoint _ _ _ _ _ (.inl (by simp [sizeofHdr]))]
    exact readBytes_writeBytes _ 8 (be32 mem.id)
  · rw [readBytes_writeBytes_disjoint _ _ _ _ _ (.inr (by simp [sizeofHdr]))]
    simp only [nackDgram, List.length_append, be32_length]
    rw [readBytes_add, readBytes_be32,
      readBytes_writeBytes_disjoint _ _ _ _ _ (.inr (by simp [sizeofHdr])), sizeofLong,
      readBytes_writeBytes]

/-- The bytes sent are the datagram's. -/
theorem nackBytes_eq (h : Host) (mem : RmcMember) (m : RmcMsg) {listed : List UInt32}
    (hlt : sizeofHdr + (1 + listed.length) * sizeofLong < 4294967296) :
    nackBytes h mem m listed = (nackDgram (m.buf 0) mem listed).bytes := by
  have hsize : sizeT ((sizeofHdr : Int) + (1 + (listed.length : Int)) * (sizeofLong : Nat))
      = sizeofHdr + (1 + listed.length) * sizeofLong := by
    rw [← sizeT_natCast hlt]
    push_cast
    rfl
  have hbytes := begins_iff.mp (begins_nackFill h mem m listed)
  rw [nackDgram_body_length] at hbytes
  rw [nackBytes, hsize, hbytes]

/-! ## The handler -/

/-- The keys the loop of `case RMCAST_MSG_NACK` looks up from `itr` on. -/
def nackLookups (h : Host) (p : Nat) : (rounds : Nat) → (itr : Nat) → RmcCtrlBlock → List UInt32
  | 0, _, _ => []
  | n + 1, itr, cb =>
      ntohl h.endian (load32 h.endian (cb.msgs p).buf (sizeofHdr + itr * sizeofLong))
        :: nackLookups h p n (itr + 1) (nackLoop h p 1 itr cb)

/-- The keys `case RMCAST_MSG_NACK` looks up. -/
def nackMsgLookups (h : Host) (p : Nat) (cb : RmcCtrlBlock) : List UInt32 :=
  nackLookups h p (toInt32 (load32 h.endian (cb.msgs p).buf sizeofHdr)).toNat 1
    { cb with ucastAddr := htonl h.endian ((cb.msgs p).hdrId h.endian) }

/-- One round: the word is converted in place, and sent for if its number
is kept. -/
theorem nackLoop_one (h : Host) (p itr : Nat) (cb : RmcCtrlBlock) :
    (∀ i, sizeofHdr + itr * sizeofLong + 4 ≤ i →
        ((nackLoop h p 1 itr cb).msgs p).buf i = (cb.msgs p).buf i)
      ∧ (nackLoop h p 1 itr cb).outmsgbuf = cb.outmsgbuf
      ∧ (nackLoop h p 1 itr cb).ucastAddr = cb.ucastAddr
      ∧ ∃ xs, (nackLoop h p 1 itr cb).sent = cb.sent ++ xs
        ∧ xs.map Sendto.dest = ((nackLookups h p 1 itr cb).filter
            fun k => (htblGet cb.outmsgbuf k).isSome).map fun _ => .ucast cb.ucastAddr := by
  have habove : ∀ (k : UInt32) (i : Nat), sizeofHdr + itr * sizeofLong + 4 ≤ i →
      store32 h.endian (cb.msgs p).buf (sizeofHdr + itr * sizeofLong) k i
        = (cb.msgs p).buf i := by
    intro k i hi
    rw [store32]
    exact writeBytes_above _ _ (by rw [enc32_length]; exact hi)
  simp only [nackLoop, nackLookups]
  generalize ntohl h.endian (load32 h.endian (cb.msgs p).buf (sizeofHdr + itr * sizeofLong)) = k
  cases hk : htblGet cb.outmsgbuf k with
  | none =>
    simp only [RmcCtrlBlock.setMsg, Function.update_self, RmcMsg.setBuf, hk]
    exact ⟨habove k, trivial, trivial, [], (List.append_nil _).symm, by simp [hk]⟩
  | some q =>
    simp only [RmcCtrlBlock.setMsg, RmcCtrlBlock.sendto, Function.update_self, RmcMsg.setBuf, hk]
    exact ⟨habove k, trivial, trivial, _, rfl, by simp [hk]⟩

/-- The keys looked up are words of the buffer. -/
theorem nackLookups_eq (h : Host) (p n : Nat) :
    ∀ (itr : Nat) (cb : RmcCtrlBlock), nackLookups h p n itr cb
      = wordsAt (cb.msgs p).buf (sizeofHdr + itr * sizeofLong) n := by
  induction n with
  | zero => exact fun _ _ => rfl
  | succ n ih =>
    intro itr cb
    have hnext : sizeofHdr + (itr + 1) * sizeofLong = sizeofHdr + itr * sizeofLong + 4 := by
      simp only [sizeofLong]
      omega
    rw [nackLookups, ntohl_load32, ih, wordsAt_succ, hnext]
    exact congrArg _ (wordsAt_congr fun i hlo _ => (nackLoop_one h p itr cb).1 i hlo)

/-- Every retransmission goes to the address the loop started with, one
for each key that is kept. -/
theorem nackLoop_sent (h : Host) (p n : Nat) :
    ∀ (itr : Nat) (cb : RmcCtrlBlock), ∃ xs, (nackLoop h p n itr cb).sent = cb.sent ++ xs
      ∧ xs.map Sendto.dest = ((nackLookups h p n itr cb).filter
          fun k => (htblGet cb.outmsgbuf k).isSome).map fun _ => .ucast cb.ucastAddr := by
  induction n with
  | zero => exact fun _ cb => ⟨[], (List.append_nil _).symm, rfl⟩
  | succ n ih =>
    intro itr cb
    obtain ⟨-, hout, haddr, xs, hxs, hdest⟩ := nackLoop_one h p itr cb
    obtain ⟨ys, hys, hdest'⟩ := ih (itr + 1) (nackLoop h p 1 itr cb)
    refine ⟨xs ++ ys, ?_, ?_⟩
    · show (nackLoop h p n (itr + 1) (nackLoop h p 1 itr cb)).sent = _
      rw [hys, hxs, List.append_assoc]
    · rw [List.map_append, hdest, hdest', hout, haddr, ← List.map_append, ← List.filter_append]
      rfl

/-- The answers of `case RMCAST_MSG_NACK`, one for each key looked up that
is kept, all to the id in the header. -/
theorem nackMsg_sent (h : Host) (p : Nat) (cb : RmcCtrlBlock) :
    ∃ xs, (nackMsg h p cb).sent = cb.sent ++ xs
      ∧ xs.map Sendto.dest = ((nackMsgLookups h p cb).filter
          fun k => (htblGet cb.outmsgbuf k).isSome).map
            fun _ => .ucast (htonl h.endian ((cb.msgs p).hdrId h.endian)) :=
  nackLoop_sent h p _ 1 { cb with ucastAddr := htonl h.endian ((cb.msgs p).hdrId h.endian) }

/-- Where the answers go. -/
theorem answers_iff (e : Endian) {keys : List UInt32} {outmsgbuf : Htbl Nat} {id asker : UInt32}
    {xs : List Sendto}
    (hxs : xs.map Sendto.dest = (keys.filter fun k => (htblGet outmsgbuf k).isSome).map
      fun _ => .ucast (htonl e id)) :
    (∀ x ∈ xs, x.dest = .ucast (htonl e asker))
      ↔ id = asker ∨ ∀ k ∈ keys, htblGet outmsgbuf k = none := by
  have hdest : (∀ x ∈ xs, x.dest = .ucast (htonl e asker))
      ↔ ∀ t ∈ xs.map Sendto.dest, t = .ucast (htonl e asker) := by
    simp only [List.forall_mem_map]
  rw [hdest, hxs]
  simp only [List.forall_mem_map, List.mem_filter, Dest.ucast.injEq]
  constructor
  · intro h
    by_cases hid : id = asker
    · exact .inl hid
    · refine .inr fun k hk => ?_
      cases hget : htblGet outmsgbuf k with
      | none => rfl
      | some q => exact absurd (htonl_injective e (h k ⟨hk, by rw [hget]; rfl⟩)) hid
  · rintro (rfl | hnone) k ⟨hk, hsome⟩
    · rfl
    · rw [hnone k hk] at hsome
      cases hsome

/-! ## The exchange -/

/-- How many keys are looked up for `n` listed numbers: the count word
counts itself, and is read as an `int` without conversion. -/
def nackCount (e : Endian) (n : Nat) : Nat :=
  (toInt32 (htonl e (UInt32.ofNat (1 + n)))).toNat

/-- The handler looks up the listed numbers, as far as the count goes, and
then what the buffer held before. -/
theorem nackLookups_received (h : Host) (version : UInt8) (mem : RmcMember)
    (listed : List UInt32) {cb : RmcCtrlBlock} (hf : Fits cb (nackDgram version mem listed)) :
    nackMsgLookups h (allocMsg cb).2 (received h (.ok (nackDgram version mem listed).bytes) cb)
      = listed.take (nackCount h.endian listed.length)
        ++ wordsAt ((allocMsg cb).1.msgs (allocMsg cb).2).buf
            (sizeofHdr + (1 + listed.length) * sizeofLong)
            (nackCount h.endian listed.length - listed.length) := by
  have hbody := (holds_received h hf).body
  have hbytes := (nackDgram version mem listed).bytes_length
  have habove := fun i (hi : sizeofHdr ≤ i) => received_above h hf hi
  have hsize : (1 + listed.length) * sizeofLong = 4 + 4 * listed.length := by
    simp only [sizeofLong]
    omega
  simp only [nackMsgLookups, nackLookups_eq]
  generalize ((received h (.ok (nackDgram version mem listed).bytes) cb).msgs
    (allocMsg cb).2).buf = buf at hbody habove ⊢
  rw [nackDgram_body_length, hsize] at hbytes
  rw [nackDgram_body_length, hsize, readBytes_add] at hbody
  obtain ⟨hcount, hlist⟩ := List.append_inj hbody (by simp)
  have hwords : wordsAt buf (sizeofHdr + 4) listed.length = listed := wordsAt_of_readBytes hlist
  rw [load32_eq_htonl, be32At_of_readBytes hcount, hsize,
    show sizeofHdr + 1 * sizeofLong = sizeofHdr + 4 from rfl]
  change wordsAt buf (sizeofHdr + 4) (nackCount h.endian listed.length) = _
  rcases Nat.le_total (nackCount h.endian listed.length) listed.length with hle | hge
  · rw [Nat.sub_eq_zero_of_le hle, ← wordsAt_take buf _ hle, hwords]
    exact (List.append_nil _).symm
  · obtain ⟨k, hk⟩ := Nat.exists_eq_add_of_le hge
    rw [hk, wordsAt_add, hwords, Nat.add_sub_cancel_left, List.take_of_length_le (by omega),
      Nat.add_assoc sizeofHdr]
    refine congrArg _ (wordsAt_congr fun i hlo _ => ?_)
    rw [habove i (by omega)]
    exact writeBytes_above _ _ (by omega)

/-- When a list cut off at `c` and continued by other words is the same
set. -/
theorem same_set_iff {listed stale : List UInt32} {c : Nat}
    (hstale : c ≤ listed.length → stale = []) :
    (∀ k, k ∈ listed.take c ++ stale ↔ k ∈ listed)
      ↔ (∀ k ∈ listed, k ∈ listed.take c) ∧ ∀ k ∈ stale, k ∈ listed := by
  constructor
  · intro h
    refine ⟨fun k hk => ?_, fun k hk => (h k).mp (List.mem_append_right _ hk)⟩
    rcases Nat.le_total c listed.length with hle | hge
    · have hmem := (h k).mpr hk
      rwa [hstale hle, List.append_nil] at hmem
    · rwa [List.take_of_length_le hge]
  · rintro ⟨htake, hs⟩ k
    constructor
    · intro hk
      rcases List.mem_append.mp hk with hk | hk
      · exact List.mem_of_mem_take hk
      · exact hs k hk
    · intro hk
      exact List.mem_append_left _ (htake k hk)

/-- **The NACK exchange.** A node lists numbers in a NACK and another node
handles it. The set of keys that is looked up is the set listed, and all
answers go to the node `asker`, exactly when no listed number is beyond
the count the handler reads, the words it reads beyond the datagram are
listed numbers too, and the header already carries the asker's id or no
listed number is kept. -/
theorem nack_exchange_iff (hR hS : Host) (sender : SockaddrIn) (mem : RmcMember) (m : RmcMsg)
    (listed : List UInt32) (asker : UInt32) {cb : RmcCtrlBlock}
    (hroom : sizeofHdr + (1 + listed.length) * sizeofLong
      ≤ ((allocMsg cb).1.msgs (allocMsg cb).2).size)
    (hlt : sizeofHdr + (1 + listed.length) * sizeofLong < 2147483648) :
    ∃ cb' xs, (mcastBranch hS sender (.ok (nackBytes hR mem m listed)) cb).map Prod.fst = some cb'
      ∧ cb'.sent = cb.sent ++ xs
      ∧ ((∀ k, k ∈ nackMsgLookups hS (allocMsg cb).2
              (received hS (.ok (nackBytes hR mem m listed)) cb) ↔ k ∈ listed)
          ∧ (∀ x ∈ xs, x.dest = .ucast (htonl hS.endian asker))
        ↔ (∀ k ∈ listed, k ∈ listed.take (nackCount hS.endian listed.length))
          ∧ (∀ k ∈ wordsAt ((allocMsg cb).1.msgs (allocMsg cb).2).buf
                (sizeofHdr + (1 + listed.length) * sizeofLong)
                (nackCount hS.endian listed.length - listed.length), k ∈ listed)
          ∧ (mem.id = asker ∨ ∀ k ∈ listed, htblGet cb.outmsgbuf k = none)) := by
  have hbytes := (nackDgram (m.buf 0) mem listed).bytes_length
  have hlen : (nackDgram (m.buf 0) mem listed).length.toNat
      ≤ (nackDgram (m.buf 0) mem listed).body.length := by
    rw [nackDgram_body_length]
    exact Nat.mod_le _ _
  rw [nackDgram_body_length] at hbytes
  have hf : Fits cb (nackDgram (m.buf 0) mem listed) :=
    ⟨by rw [hbytes]; exact hroom, by rw [hbytes]; exact hlt⟩
  have hheld := holds_received hS hf
  have hlook := nackLookups_received hS (m.buf 0) mem listed hf
  have hout : (received hS (.ok (nackDgram (m.buf 0) mem listed).bytes) cb).outmsgbuf
      = cb.outmsgbuf :=
    (sameSender_recvMsg (.ok (nackDgram (m.buf 0) mem listed).bytes) cb).outmsgbuf
  obtain ⟨-, -, -, hsent⟩ := received_receiver hS (.ok (nackDgram (m.buf 0) mem listed).bytes) cb
  obtain ⟨xs, hxs, hdest⟩ := nackMsg_sent hS (allocMsg cb).2
    (received hS (.ok (nackDgram (m.buf 0) mem listed).bytes) cb)
  rw [hout, hheld.id] at hdest
  rw [nackBytes_eq hR mem m (by omega), mcastBranch_whole hS sender hf hlen, dispatch, hheld.type]
  refine ⟨_, xs, rfl, hxs.trans (by rw [hsent]), ?_⟩
  rw [answers_iff hS.endian hdest, hlook, same_set_iff (fun hle => by
    rw [Nat.sub_eq_zero_of_le hle]; rfl), and_assoc]
  -- the keys looked up are the listed ones as soon as the first two hold
  refine and_congr_right fun htake => and_congr_right fun hstale => or_congr_right ?_
  have hset := (same_set_iff (fun hle => by rw [Nat.sub_eq_zero_of_le hle]; rfl)).mpr
    ⟨htake, hstale⟩
  exact forall_congr' fun k => by rw [hset k]

/-! ## The loop of `send_nack` -/

theorem nackScan_eq (t : Htbl Nat) (n : Nat) :
    ∀ itr : UInt32, nackScan t n itr = (span itr n).filter fun k => (htblGet t k).isNone := by
  induction n with
  | zero => intro itr; rfl
  | succ n ih =>
    intro itr
    rw [nackScan, ih, span_succ, List.filter_cons]
    cases htblGet t itr <;> rfl

/-- `send_nack` goes once around the numbers and lists what is not cached. -/
theorem nackList_eq (mem : RmcMember) :
    nackList mem = (span (mem.sequence + 1) 4294967294).filter
      fun k => (htblGet mem.unseqMsgs k).isNone := by
  have hrounds : (mem.sequence - 1 - (mem.sequence + 1)).toNat = 4294967294 := by
    have hone : (1 : UInt32).toNat = 1 := rfl
    have hlt := mem.sequence.toNat_lt
    rw [UInt32.toNat_sub, UInt32.toNat_sub, UInt32.toNat_add, hone]
    omega
  rw [nackList, nackScan_eq, hrounds]

end Rms.V01
