/-
Rms.V01.HbeatRoomTheorems — whether a heartbeat has room.

`send_hbeat` writes the header, the heartbeat structure, the name of the
host, a pair of words for every member of `membersq` if acks are used,
and what is piggybacked. Only the last part is compared with the size of
the buffer. The number of members is up to the network, so the heartbeat
fits exactly if the pairs behind the name do (`hbeat_fits_iff`).

`sendHbeatWrites` lists the stores in their order; `hbeatFill_buf` says
that they make the message. If `membersq` is damaged the loop over it may
end in NULL, and the program with it: the list then ends with the pairs
written up to there.
-/
import Rms.V01.RoomTheorems

namespace Rms.V01

open Rms.ByteMem Rms.Util Rms.Runs

variable {h : Host} {cb cb' : RmcCtrlBlock} {hname pgback : Option (List UInt8)} {flags : UInt16}

/-! ## The stores -/

/-- An offset, and the bytes stored from there on. -/
abbrev Write := Nat × List UInt8

def Write.stop (w : Write) : Nat := w.1 + w.2.length

/-- Where the acks begin: behind the name, over its NUL. -/
def ackOffset (hname : Option (List UInt8)) : Nat :=
  sizeofHdr + sizeofHbeat + (hname.map List.length).getD 0

/-- The stores up to the name. -/
def hbeatHeadWrites (e : Endian) (self : RmcMember) (hname : Option (List UInt8))
    (flags : UInt16) : List Write :=
  [(1, [MsgType.hbeat.toByte]), (4, enc32 e (htonl e self.sequence)),
    (8, enc32 e (htonl e self.id)), (12, enc32 e (htonl e self.lost)),
    (18, enc16 e (htons e flags)), (20, enc32 e (htonl e self.session))]
  ++ match hname with
    | some name => [(16, enc16 e (htons e (UInt16.ofNat (name.length + 1)))),
        (sizeofHdr + sizeofHbeat, name ++ [0])]
    | none => [(16, enc16 e 0)]

/-- The stores of the ack part. -/
def hbeatAckWrites (e : Endian) (hname : Option (List UInt8)) :
    Option (List (UInt32 × UInt32)) → List Write
  | some l => [(ackOffset hname, ackBytes e l), (24, enc16 e (htons e (UInt16.ofNat l.length)))]
  | none => [(24, enc16 e 0)]

/-- The stores behind it: what is piggybacked, if there is room, and the
length. -/
def hbeatTailWrites (e : Endian) (hname : Option (List UInt8)) (nacks : Nat)
    (pgback : Option (List UInt8)) (size : Nat) : List Write :=
  let data := ackOffset hname + nacks * (2 * sizeofLong)
  let offset := nacks * (2 * sizeofLong)
  match pgback with
  | some pg =>
      if (pg.length : Int) < (size : Int) - data then
        [(data, pg), (2, enc16 e (htons e (UInt16.ofNat (sizeofHbeat + (offset + pg.length)))))]
      else [(2, enc16 e (htons e (UInt16.ofNat (sizeofHbeat + offset))))]
  | none => [(26, enc16 e 0), (2, enc16 e (htons e (UInt16.ofNat (sizeofHbeat + offset))))]

/-- The stores of a heartbeat that is sent. -/
def hbeatWrites (e : Endian) (self : RmcMember) (hname : Option (List UInt8))
    (acks : Option (List (UInt32 × UInt32))) (pgback : Option (List UInt8)) (flags : UInt16)
    (size : Nat) : List Write :=
  hbeatHeadWrites e self hname flags ++ hbeatAckWrites e hname acks
    ++ hbeatTailWrites e hname (acks.getD []).length pgback size

/-- The pairs that the loop over `membersq` writes, from `itr` on, up to its
end or to a NULL. -/
def ackPairs (mems : Nat → RmcMember) : (rounds : Nat) → (itr : Int) → Mqueue Nat →
    List (UInt32 × UInt32)
  | 0, _, _ => []
  | n + 1, itr, q =>
      match mqueuePeekAtIndex q itr with
      | some (q, some mp) => ((mems mp).id, (mems mp).sequence) :: ackPairs mems n (itr + 1) q
      | _ => []

/-- The pairs in the next heartbeat. -/
def ackedPairs (cb : RmcCtrlBlock) : List (UInt32 × UInt32) :=
  if cb.hbAck then
    ackPairs cb.mems (UInt16.ofNat (mqueueSize cb.membersq).toNat).toNat 0 cb.membersq
  else []

/-- The stores of `send_hbeat`. The field `acks` holds the number of members
while the pairs are written. -/
def sendHbeatWrites (h : Host) (hname pgback : Option (List UInt8)) (flags : UInt16)
    (cb : RmcCtrlBlock) : List Write :=
  let e := h.endian
  match hbeatAckPart (allocMsg cb).1 with
  | some r => hbeatWrites e cb.self hname r.2 pgback flags (nextSize cb)
  | none => hbeatHeadWrites e cb.self hname flags
      ++ [(24, enc16 e (UInt16.ofNat (mqueueSize cb.membersq).toNat)),
        (ackOffset hname, ackBytes e (ackedPairs cb))]

/-- All of them lie in the buffer. -/
def HbeatFits (h : Host) (hname pgback : Option (List UInt8)) (flags : UInt16)
    (cb : RmcCtrlBlock) : Prop :=
  ∀ w ∈ sendHbeatWrites h hname pgback flags cb, w.stop ≤ nextSize cb

/-- A heartbeat is what its stores make of the buffer. -/
theorem hbeatFill_buf (h : Host) (self : RmcMember) (hname : Option (List UInt8))
    (acks : Option (List (UInt32 × UInt32))) (pgback : Option (List UInt8)) (flags : UInt16)
    (m : RmcMsg) :
    (hbeatFill h self hname acks pgback flags m).1.buf
      = (hbeatWrites h.endian self hname acks pgback flags m.size).foldl
          (fun buf w => writeBytes buf w.1 w.2) m.buf := by
  cases pgback with
  | none => cases hname <;> cases acks <;> rfl
  | some pg =>
    simp only [hbeatWrites, hbeatTailWrites]
    split
    · rename_i hroom
      cases hname <;> cases acks <;> simp only [hbeatFill] <;>
        exact (if_pos hroom) ▸ rfl
    · rename_i hfull
      cases hname <;> cases acks <;> simp only [hbeatFill] <;>
        exact (if_neg hfull) ▸ rfl

/-! ## Where they end -/

/-- The head ends with the name and its NUL. -/
theorem stop_head (e : Endian) (self : RmcMember) (hname : Option (List UInt8)) (flags : UInt16) :
    ∀ w ∈ hbeatHeadWrites e self hname flags, w.stop ≤ ackOffset hname + 1 := by
  cases hname with
  | none => simp [hbeatHeadWrites, Write.stop, ackOffset, sizeofHdr, sizeofHbeat]
  | some name =>
    simp [hbeatHeadWrites, Write.stop, ackOffset, sizeofHdr, sizeofHbeat]
    omega

/-- The tail ends in the buffer, whatever is before it. -/
theorem stop_tail (e : Endian) (hname : Option (List UInt8)) (nacks : Nat)
    (pgback : Option (List UInt8)) {size : Nat} (hsize : 28 ≤ size) :
    ∀ w ∈ hbeatTailWrites e hname nacks pgback size, w.stop ≤ size := by
  cases pgback with
  | none =>
    simp [hbeatTailWrites, Write.stop]
    omega
  | some pg =>
    simp only [hbeatTailWrites]
    split
    · simp [Write.stop]
      omega
    · simp [Write.stop]
      omega

/-- The acks end with their last pair. -/
theorem stop_acks (e : Endian) (hname : Option (List UInt8))
    (acks : Option (List (UInt32 × UInt32))) {size : Nat} (hsize : 28 ≤ size)
    (hname' : ackOffset hname ≤ size) :
    (∀ w ∈ hbeatAckWrites e hname acks, w.stop ≤ size)
      ↔ ackOffset hname + 8 * (acks.getD []).length ≤ size := by
  cases acks with
  | none =>
    simp [hbeatAckWrites, Write.stop]
    omega
  | some l =>
    simp [hbeatAckWrites, Write.stop, ackBytes_length, sizeofLong]
    omega

/-! ## The pairs -/

/-- A loop that ends has written all the pairs. -/
theorem ackPairs_eq (mems : Nat → RmcMember) (n : Nat) :
    ∀ {itr : Int} {q q' : Mqueue Nat} {mps : List Nat},
      mqueuePeeks n itr q = some (q', mps.map some) →
      ackPairs mems n itr q = mps.map fun mp => ((mems mp).id, (mems mp).sequence) := by
  induction n with
  | zero =>
    intro itr q q' mps hpeeks
    have hnil : [] = mps.map some := (Prod.mk.inj (Option.some.inj hpeeks)).2
    obtain rfl := List.map_eq_nil_iff.mp hnil.symm
    rfl
  | succ n ih =>
    intro itr q q' mps hpeeks
    unfold mqueuePeeks at hpeeks
    split at hpeeks
    · cases hpeeks
    · rename_i q₁ c hpeek
      split at hpeeks
      · cases hpeeks
      · rename_i q₂ cs hrest
        have hcons : c :: cs = mps.map some := (Prod.mk.inj (Option.some.inj hpeeks)).2
        cases mps with
        | nil => cases hcons
        | cons mp mps =>
          obtain ⟨rfl, rfl⟩ := List.cons.inj hcons
          simp only [ackPairs, hpeek, List.map_cons, ih hrest]

/-- The list of `send_hbeat`, where it comes to its end. -/
theorem hbeatAckPart_pairs {r : RmcCtrlBlock × Option (List (UInt32 × UInt32))}
    (hr : hbeatAckPart cb = some r) : r.2.getD [] = ackedPairs cb := by
  unfold hbeatAckPart at hr
  unfold ackedPairs
  split at hr
  · rename_i hack
    obtain ⟨r', hlist, rfl⟩ := Option.map_eq_some_iff.mp hr
    unfold hbeatAckList at hlist
    split at hlist
    · cases hlist
    · rename_i q cs hpeeks
      split at hlist
      · cases hlist
      · rename_i mps hmps
        obtain rfl := mapM_id_eq_some hmps
        cases hlist
        rw [if_pos hack, ackPairs_eq cb.mems _ hpeeks]
        rfl
  · rename_i hack
    cases hr
    rw [if_neg hack]
    rfl

theorem ackedPairs_allocMsg (cb : RmcCtrlBlock) : ackedPairs (allocMsg cb).1 = ackedPairs cb := by
  obtain ⟨b, n, f, halloc⟩ := allocMsg_eq cb
  rw [halloc]
  rfl

/-! ## Room -/

/-- A buffer of at least 140 bytes holds everything but the pairs. -/
theorem hbeatFits_iff (hsize : 140 ≤ nextSize cb) (hlen : ∀ name ∈ hname, name.length ≤ 63)
    (pgback : Option (List UInt8)) (flags : UInt16) :
    HbeatFits h hname pgback flags cb
      ↔ ackOffset hname + 8 * (ackedPairs cb).length ≤ nextSize cb := by
  have hoffset : ackOffset hname ≤ 91 := by
    cases hname with
    | none => decide
    | some name =>
      have := hlen name rfl
      simp only [ackOffset, sizeofHdr, sizeofHbeat, Option.map_some, Option.getD_some]
      omega
  have hhead : ∀ w ∈ hbeatHeadWrites h.endian cb.self hname flags, w.stop ≤ nextSize cb := by
    intro w hw
    have := stop_head h.endian cb.self hname flags w hw
    omega
  unfold HbeatFits sendHbeatWrites
  cases hpart : hbeatAckPart (allocMsg cb).1 with
  | none =>
    simp only [List.forall_mem_append, iff_true_intro hhead, true_and]
    simp [Write.stop, ackBytes_length, sizeofLong]
    omega
  | some r =>
    have hpairs := hbeatAckPart_pairs hpart
    rw [ackedPairs_allocMsg] at hpairs
    have htail := stop_tail h.endian hname (r.2.getD []).length pgback
      (by omega : 28 ≤ nextSize cb)
    simp only [hbeatWrites, List.forall_mem_append, iff_true_intro hhead, iff_true_intro htail,
      true_and, and_true]
    rw [stop_acks h.endian hname r.2 (by omega) (by omega), hpairs]

/-- **Room for a heartbeat.** In every state of every run, with the pool in
any order, a heartbeat with a name of at most 63 characters fits its
buffer exactly if the pairs behind the name do. If it is sent, there is a
pair for each member in `membersq`, modulo 2^16. -/
theorem hbeat_fits_iff (h : Host) (g : Garbage) (a : InitArgs) {es : List PoolEvent}
    (hrun : run (recycle h) (rmcastInit g a) es = some cb)
    (hlen : ∀ name ∈ hname, name.length ≤ 63) (pgback : Option (List UInt8)) (flags : UInt16) :
    (HbeatFits h hname pgback flags cb
        ↔ ackOffset hname + 8 * (ackedPairs cb).length ≤ nextSize cb)
      ∧ ∀ cb', sendHbeat h hname pgback flags cb = some cb' →
          (ackedPairs cb).length = ackCount cb % 65536 := by
  have hstock : Stocked ((max 128 a.maxMsgSize).toNat + sizeofHdr) cb :=
    run_invariant_free (fun cb e cb' hs hstep => hs.recycle hstep) (stocked_rmcastInit g a) hrun
  have hsize := nextSize_le hstock
  have hhdr : sizeofHdr = 12 := rfl
  refine ⟨hbeatFits_iff (by omega) hlen pgback flags, ?_⟩
  intro cb' hsend
  obtain ⟨r, hpart, -⟩ := Option.map_eq_some_iff.mp hsend
  have hr : hbeatAckPart (allocMsg cb).1 = some r := hpart
  have hcount := (hbeatAckPart_spec hr).2
  rw [hbeatAckPart_pairs hr, ackedPairs_allocMsg] at hcount
  obtain ⟨b, n, f, halloc⟩ := allocMsg_eq cb
  rw [halloc] at hcount
  exact hcount

/-- `rmcast_init(128, 20, ...)` with acks, on a host with a name of 63
characters. -/
def ackingArgs : InitArgs :=
  { plainArgs with hbAck := true, hostname := List.replicate 63 104 }

/-- The heartbeats of seven nodes. -/
def sevenMembers : List PoolEvent :=
  [2, 3, 4, 5, 6, 7, 8].map fun id => .branch (.mcast (hbeatBy id).1 (.ok (hbeatBy id).2.bytes))

/-- With one pair for each of the seven members. -/
theorem hbeat_fits_iff_seven :
    ∃ cb, run (recycle littleHost) (rmcastInit zeroGarbage ackingArgs) sevenMembers = some cb
      ∧ (ackedPairs cb).length = 7
      ∧ (HbeatFits littleHost (some [104]) none 0 cb
        ↔ ackOffset (some [104]) + 8 * (ackedPairs cb).length ≤ nextSize cb) := by
  have hpairs : (run (recycle littleHost) (rmcastInit zeroGarbage ackingArgs) sevenMembers).map
      (fun cb => (ackedPairs cb).length) = some 7 := by
    decide +kernel
  obtain ⟨cb, hrun, hcb⟩ := Option.map_eq_some_iff.mp hpairs
  exact ⟨cb, hrun, hcb, (hbeat_fits_iff littleHost zeroGarbage ackingArgs hrun (by simp) none 0).1⟩

/-- With seven members the buffer has 140 bytes and the pairs end at 147. -/
theorem hbeat_fits_fails :
    (run (recycle littleHost) (rmcastInit zeroGarbage ackingArgs) sevenMembers).map (fun cb =>
        (nextSize cb, (ackedPairs cb).length,
          ((sendHbeatWrites littleHost (some cb.hostname) none 0 cb).map Write.stop).max?))
      = some (140, 7, some 147) := by
  decide +kernel

end Rms.V01
