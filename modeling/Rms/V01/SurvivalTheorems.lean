/-
Rms.V01.SurvivalTheorems — with acks, which runs of the daemon get to
their end.

Every pass of the loop with `hb_ack` set goes through `membersq` by index
and reads every member in it. A member that leaves from the front of the
queue is taken out (`Queued.leave_front`). One that leaves from its end
stays in it, pointing to freed memory; one that leaves from in between
breaks the queue off behind its first item. Either way the same pass
follows the pointer (`Ruined.afterMcast`).

The other end of a run is a datagram ahead of its turn, since
`send_nack` does not return. So a run gets to its end exactly if every
member that leaves is the first of several in the queue and no datagram
asks for a NACK (`daemon_survives_iff`).
-/
import Rms.V01.AgreementTheorems
import Rms.V01.BoundedRuns

namespace Rms.V01.Bounded

open Rms.ByteMem Rms.Util Rms.Runs

variable {h : Host} {cb cb' : RmcCtrlBlock} {as fs mps : List Nat}

/-- The queue holds the members, each once, and nothing that was freed. -/
structure Queued (cb : RmcCtrlBlock) (as fs mps : List Nat) : Prop where
  queue : Represents cb.membersq as fs mps
  cursor : Cursor cb.membersq
  perm : mps.Perm (htblValues cb.members)
  nodup : mps.Nodup
  fresh : ∀ mp ∈ mps, mp < cb.nmems
  freed : ∀ mp ∈ cb.freed, mp < cb.nmems ∧ mp ∉ htblValues cb.members
  acks : cb.hbAck = true

theorem Queued.same (k : Queued cb as fs mps) {q : Mqueue Nat}
    (hq : Represents q as fs mps) (hcursor : Cursor q)
    (hs : SameRegistry { cb with membersq := q } cb') (hack : cb'.hbAck = cb.hbAck) :
    Queued cb' as fs mps where
  queue := by rw [hs.membersq]; exact hq
  cursor := by rw [hs.membersq]; exact hcursor
  perm := by rw [hs.members]; exact k.perm
  nodup := k.nodup
  fresh := by rw [hs.nmems]; exact k.fresh
  freed := by rw [hs.nmems, hs.freed, hs.members]; exact k.freed
  acks := hack.trans k.acks

/-- Peeking moves nothing but the cursor. -/
theorem Queued.peeked (k : Queued cb as fs mps) (hack : cb'.hbAck = cb.hbAck)
    (hpeek : ∃ n q cs, mqueuePeeks n 0 cb.membersq = some (q, cs)
      ∧ SameRegistry { cb with membersq := q } cb') : Queued cb' as fs mps := by
  obtain ⟨n, q, cs, hpeeks, hs⟩ := hpeek
  obtain ⟨hq, -⟩ := represents_mqueuePeeks n (i := 0) k.queue hpeeks
  obtain ⟨j, rfl⟩ := mqueuePeeks_cursor n (i := 0) k.cursor hpeeks
  exact k.same hq (k.cursor.at j) hs hack

theorem hbAck_hbeatBranch (hb : V01.hbeatBranch h cb = some cb') : cb'.hbAck = cb.hbAck := by
  obtain ⟨m, q, cs, buf, nmsgs, f, sent, -, -, hcb'⟩ := hbeatBranch_spec hb
  obtain ⟨o, b, t, hframe⟩ := purge_frame cb.hbSeqP2
    { cb with membersq := q, bufmsgq := buf, nmsgs := nmsgs, msgs := f, sent := sent
              hbSeqP1 := cb.self.sequence, hbSeqP2 := cb.hbSeqP1, hbSeqP3 := cb.hbSeqP2 }
  rw [hcb', hframe]

/-! ## Peeking at a sound queue -/

theorem mapM_id_map_some {α : Type*} (l : List α) : (l.map some).mapM id = some l := by
  induction l with
  | nil => rfl
  | cons a l ih => simp [List.mapM_cons, ih]

/-- The peek loop gets through, and reads the contents. -/
theorem mqueuePeeks_of_represents (n : Nat) :
    ∀ {i : Nat} {q : Mqueue Nat}, Represents q as fs mps → i + n ≤ mps.length →
      ∃ q', mqueuePeeks n i q = some (q', ((mps.drop i).take n).map some) := by
  induction n with
  | zero =>
    intro i q _ _
    exact ⟨q, by simp [mqueuePeeks]⟩
  | succ n ih =>
    intro i q r hi
    obtain ⟨q₁, hpeek, r₁, -⟩ := represents_mqueuePeekAtIndex r i
    obtain ⟨q₂, hpeeks⟩ := ih (i := i + 1) r₁ (by omega)
    refine ⟨q₂, ?_⟩
    have hlt : i < mps.length := by omega
    rw [mqueuePeeks, hpeek]
    dsimp only
    rw [show ((i : Int) + 1) = ((i + 1 : Nat) : Int) from rfl, hpeeks]
    rw [List.drop_eq_getElem_cons hlt, List.take_succ_cons, List.map_cons,
      List.getElem?_eq_getElem hlt]

theorem Queued.size (k : Queued cb as fs mps) : (mqueueSize cb.membersq).toNat = mps.length := by
  rw [mqueueSize, k.queue.count, Int.toNat_natCast, k.queue.length]

/-- What a peek loop over a queue reads. -/
theorem readsFreed_of_represents {n : Nat} (hq : Represents cb.membersq as fs mps)
    (hn : n ≤ mps.length) : readsFreed cb n = (mps.take n).any fun mp => cb.freed.contains mp := by
  obtain ⟨q', hpeeks⟩ := mqueuePeeks_of_represents n (i := 0) hq (by omega)
  rw [List.drop_zero] at hpeeks
  rw [readsFreed, show (0 : Int) = ((0 : Nat) : Int) from rfl, hpeeks]
  simp only [List.any_map]
  rfl

theorem Queued.readsFreed {n : Nat} (k : Queued cb as fs mps) (hn : n ≤ mps.length) :
    readsFreed cb n = false := by
  rw [readsFreed_of_represents k.queue hn, List.any_eq_false]
  intro mp hmp hfreed
  have hin := k.perm.mem_iff.mp (List.mem_of_mem_take hmp)
  exact (k.freed mp (List.contains_iff_mem.mp hfreed)).2 hin

/-- A heartbeat gets through. -/
theorem Queued.hbeatBranch (k : Queued cb as fs mps) (h : Host) :
    ∃ cb', Bounded.hbeatBranch h cb = some cb' ∧ V01.hbeatBranch h cb = some cb'
      ∧ Queued cb' as fs mps := by
  obtain ⟨b, n, f, halloc⟩ := allocMsg_eq cb
  have hle : (UInt16.ofNat mps.length).toNat ≤ mps.length := Nat.mod_le _ _
  obtain ⟨q', hpeeks⟩ := mqueuePeeks_of_represents (UInt16.ofNat mps.length).toNat (i := 0)
    k.queue (by omega)
  have hpart : (hbeatAckPart (allocMsg cb).1).isSome := by
    rw [halloc]
    simp only [hbeatAckPart, k.acks, if_true, hbeatAckList, k.size]
    rw [show (0 : Int) = ((0 : Nat) : Int) from rfl, hpeeks]
    simp only [mapM_id_map_some]
    rfl
  have hsome : (V01.hbeatBranch h cb).isSome := by
    rw [V01.hbeatBranch, sendHbeat]
    dsimp only
    rw [Option.isSome_map]
    exact hpart
  obtain ⟨cb', hb⟩ := Option.isSome_iff_exists.mp hsome
  refine ⟨cb', ?_, hb, k.peeked (hbAck_hbeatBranch hb) (hbeatBranch_peeks hb)⟩
  rw [Bounded.hbeatBranch, k.size, k.readsFreed hle, Bool.and_false]
  exact hb

/-- The ack branch gets through. -/
theorem Queued.ackBranch (k : Queued cb as fs mps) :
    ∃ cb', Bounded.ackBranch cb = some cb' ∧ V01.ackBranch cb = some cb'
      ∧ Queued cb' as fs mps := by
  obtain ⟨q', hpeeks⟩ := mqueuePeeks_of_represents mps.length (i := 0) k.queue (by omega)
  rw [List.drop_zero, List.take_length] at hpeeks
  have hcode : V01.ackBranch cb = some (purge (ackSync cb.mems mps cb.self.sequenceSync)
      { cb with
          membersq := q'
          self := { cb.self with
            sequenceSync := ackSync cb.mems mps cb.self.sequenceSync } }) := by
    rw [V01.ackBranch, k.acks, if_pos rfl, k.size, show (0 : Int) = ((0 : Nat) : Int) from rfl,
      hpeeks]
    simp only [mapM_id_map_some]
  obtain ⟨o, b, t, hframe⟩ := purge_frame (ackSync cb.mems mps cb.self.sequenceSync)
    { cb with
        membersq := q'
        self := { cb.self with sequenceSync := ackSync cb.mems mps cb.self.sequenceSync } }
  refine ⟨_, ?_, hcode, k.peeked (by rw [hframe]) (ackBranch_peeks hcode)⟩
  rw [Bounded.ackBranch, k.size, k.readsFreed le_rfl, Bool.and_false]
  exact hcode

/-! ## A ruined queue -/

/-- The queue claims two items at least and its first link is NULL, or it
holds a member that was freed. -/
structure Ruined (cb : RmcCtrlBlock) : Prop where
  cursor : Cursor cb.membersq
  acks : cb.hbAck = true
  ruined : (2 ≤ cb.membersq.count ∧ mqueueNode cb.membersq 1 = none)
    ∨ ∃ as fs mps, Represents cb.membersq as fs mps ∧ ∃ mp ∈ mps, mp ∈ cb.freed

/-- Peeking does not mend it. -/
theorem Ruined.peeked (k : Ruined cb) (hack : cb'.hbAck = cb.hbAck)
    (hpeek : ∃ n q cs, mqueuePeeks n 0 cb.membersq = some (q, cs)
      ∧ SameRegistry { cb with membersq := q } cb') : Ruined cb' := by
  obtain ⟨n, q, cs, hpeeks, hs⟩ := hpeek
  obtain ⟨j, rfl⟩ := mqueuePeeks_cursor n (i := 0) k.cursor hpeeks
  refine ⟨hs.membersq ▸ k.cursor.at j, hack.trans k.acks, ?_⟩
  rcases k.ruined with ⟨hcount, hcut⟩ | ⟨as, fs, mps, hq, mp, hmp, hfreed⟩
  · rw [hs.membersq]
    exact .inl ⟨hcount, (mqueueNode_cursorAt _ j 1).trans hcut⟩
  · rw [hs.membersq, hs.freed]
    exact .inr ⟨as, fs, mps, (represents_mqueuePeeks n (i := 0) hq hpeeks).1, mp, hmp, hfreed⟩

theorem ackBranch_of_cut (c : Cursor cb.membersq) (hack : cb.hbAck = true)
    (hcount : 2 ≤ cb.membersq.count) (hcut : mqueueNode cb.membersq 1 = none) :
    V01.ackBranch cb = none := by
  rw [V01.ackBranch, hack, if_pos rfl]
  cases hpeeks : mqueuePeeks (mqueueSize cb.membersq).toNat 0 cb.membersq with
  | none => rfl
  | some r =>
    obtain ⟨q, cs⟩ := r
    have hcs := mqueuePeeks_spec _ (i := 0) c (by rw [mqueueSize]; omega) hpeeks
    dsimp only
    cases hmap : cs.mapM id with
    | none => rfl
    | some l =>
      -- the second item would have to be there
      have hget := congrArg (·[1]?) ((mapM_id_eq_some hmap).symm.trans hcs)
      have hone : 1 < (mqueueSize cb.membersq).toNat := by rw [mqueueSize]; omega
      simp only [List.getElem?_map, List.getElem?_range' hone, Option.map_some, mqueueContent,
        hcut, Nat.zero_add, Nat.mul_one, Option.bind_none] at hget
      obtain ⟨y, -, hsome⟩ := Option.map_eq_some_iff.mp hget
      cases hsome

theorem Ruined.ackBranch (k : Ruined cb) : Bounded.ackBranch cb = none := by
  rw [Bounded.ackBranch, k.acks, Bool.true_and]
  rcases k.ruined with ⟨hcount, hcut⟩ | ⟨as, fs, mps, hq, mp, hmp, hfreed⟩
  · rw [ackBranch_of_cut k.cursor k.acks hcount hcut, ite_self]
  · have hsize : (mqueueSize cb.membersq).toNat = mps.length := by
      rw [mqueueSize, hq.count, Int.toNat_natCast, hq.length]
    rw [hsize, readsFreed_of_represents hq le_rfl, List.take_length, if_pos]
    exact List.any_eq_true.mpr ⟨mp, hmp, List.contains_iff_mem.mpr hfreed⟩

theorem afterMcast_eq (h : Host) (i : Iteration) (cb : RmcCtrlBlock) :
    afterMcast h i cb
      = (if i.hbeat then Bounded.hbeatBranch h (i.ipc.elim cb fun x => ipcBranch h x cb)
          else some (i.ipc.elim cb fun x => ipcBranch h x cb)).bind Bounded.ackBranch := by
  unfold afterMcast
  cases i.ipc with
  | none =>
    dsimp only [Option.elim_none]
    cases (if i.hbeat then Bounded.hbeatBranch h cb else some cb) <;> rfl
  | some x =>
    dsimp only [Option.elim_some]
    cases (if i.hbeat then Bounded.hbeatBranch h (ipcBranch h x cb)
      else some (ipcBranch h x cb)) <;> rfl

/-- The pass does not get past a ruined queue. -/
theorem Ruined.afterMcast (k : Ruined cb) (h : Host) (i : Iteration) :
    Bounded.afterMcast h i cb = none := by
  have hipc : Ruined (i.ipc.elim cb fun x => ipcBranch h x cb) := by
    cases i.ipc with
    | none => exact k
    | some x =>
      have hs := sameRegistry_ipcBranch h x cb
      have hack := (ipcBranch_frame h x cb).2.2.2.2.1
      refine ⟨hs.membersq ▸ k.cursor, hack.trans k.acks, ?_⟩
      rw [Option.elim_some, hs.membersq, hs.freed]
      exact k.ruined
  rw [afterMcast_eq]
  generalize (i.ipc.elim cb fun x => ipcBranch h x cb) = cb₁ at hipc ⊢
  cases i.hbeat with
  | false => exact hipc.ackBranch
  | true =>
    simp only [if_true]
    cases hb : Bounded.hbeatBranch h cb₁ with
    | none => rfl
    | some cb₂ =>
      have hfree : V01.hbeatBranch h cb₁ = some cb₂ := by
        rw [Bounded.hbeatBranch] at hb
        split at hb
        · cases hb
        · exact hb
      exact (hipc.peeked (hbAck_hbeatBranch hfree) (hbeatBranch_peeks hfree)).ackBranch

/-! ## Joining and leaving -/

theorem Queued.join (k : Queued cb as fs mps) {id : UInt32}
    (hnew : htblGet cb.members id = none) (hmembers : cb'.members = htblPut cb.members id cb.nmems)
    (hqueue : cb'.membersq = mqueueAdd cb.membersq cb.nmems) (hnmems : cb'.nmems = cb.nmems + 1)
    (hfreed : cb'.freed = cb.freed) (hack : cb'.hbAck = cb.hbAck) :
    ∃ as' fs', Queued cb' as' fs' (cb.nmems :: mps) := by
  obtain ⟨as', fs', hq⟩ := represents_mqueueAdd k.queue cb.nmems
  have hfresh : cb.nmems ∉ mps := fun h => Nat.lt_irrefl _ (k.fresh _ h)
  have hvalues : (htblValues cb'.members).Perm (cb.nmems :: htblValues cb.members) := by
    rw [hmembers, htblPut_of_none _ hnew, htblValues_insert _ hnew]
  refine ⟨as', fs', ?_⟩
  constructor
  case queue => rw [hqueue]; exact hq
  case cursor => rw [hqueue]; exact cursor_mqueueAdd k.cursor cb.nmems
  case perm => exact (k.perm.cons _).trans hvalues.symm
  case nodup => exact List.nodup_cons.mpr ⟨hfresh, k.nodup⟩
  case fresh =>
    intro mp hmp
    rw [hnmems]
    rcases List.mem_cons.mp hmp with rfl | hmp
    · exact Nat.lt_succ_self _
    · exact Nat.lt_succ_of_lt (k.fresh mp hmp)
  case freed =>
    intro mp hmp
    rw [hfreed] at hmp
    obtain ⟨hlt, hnot⟩ := k.freed mp hmp
    refine ⟨hnmems ▸ Nat.lt_succ_of_lt hlt, fun hin => ?_⟩
    rcases List.mem_cons.mp (hvalues.mem_iff.mp hin) with rfl | hin
    · exact Nat.lt_irrefl _ hlt
    · exact hnot hin
  case acks => exact hack.trans k.acks

section Leave

variable {id : UInt32} {mp : Nat} {ret : Option (Option Nat)}

theorem Queued.mem (k : Queued cb as fs mps) (hk : htblGet cb.members id = some mp) :
    mp ∈ mps :=
  k.perm.mem_iff.mpr (mem_htblValues.mpr ⟨id, hk⟩)

/-- A registered member can be looked for. -/
theorem Queued.reaches (k : Queued cb as fs mps) (hk : htblGet cb.members id = some mp) :
    MqueueReaches cb.membersq mp := by
  obtain ⟨j, hj, hget⟩ := List.mem_iff_getElem.mp (k.mem hk)
  have hlt : j < as.length := k.queue.length ▸ hj
  have hnode : as[j]? = some as[j] := List.getElem?_eq_getElem hlt
  refine ⟨j, (Nat.le_of_lt hlt).trans k.queue.length_le, .inr ?_⟩
  rw [mqueueContent, k.queue.node, hnode, Option.bind_some]
  exact (k.queue.content hnode).trans (by rw [List.getElem?_eq_getElem hj, hget])

/-- The first of several in the queue leaves. -/
theorem Queued.leave_front (k : Queued cb as fs mps) (hk : htblGet cb.members id = some mp)
    (hmembers : cb'.members = cb.members.erase id)
    (hqueue : mqueueRemoveItem cb.membersq mp = some (cb'.membersq, ret))
    (hnmems : cb'.nmems = cb.nmems) (hfreed : cb'.freed = mp :: cb.freed)
    (hack : cb'.hbAck = cb.hbAck) (hfront : mps[0]? = some mp) (hlen : 2 ≤ as.length) :
    ∃ as' fs' mps', Queued cb' as' fs' mps' := by
  have hcursor := cursor_mqueueRemoveItem k.cursor hqueue
  rw [mqueueRemoveItem_first k.queue k.cursor.init k.nodup hfront hlen] at hqueue
  obtain ⟨hq, -⟩ := Prod.mk.inj (Option.some.inj hqueue)
  obtain ⟨-, as', fs', hrep⟩ := represents_mqueueRemove k.queue fun h => absurd k.cursor.init h
  cases mps with
  | nil => cases hfront
  | cons x mps =>
    obtain rfl : x = mp := Option.some.inj hfront
    have hvalues := htblValues_erase hk
    have hperm : mps.Perm (htblValues cb'.members) := by
      rw [hmembers]
      exact (k.perm.trans hvalues).cons_inv
    refine ⟨as', fs', mps, ?_⟩
    constructor
    case queue => rw [← hq]; exact hrep
    case cursor => exact hcursor
    case perm => exact hperm
    case nodup => exact (List.nodup_cons.mp k.nodup).2
    case fresh =>
      intro y hy
      rw [hnmems]
      exact k.fresh y (List.mem_cons_of_mem x hy)
    case freed =>
      intro m hm
      rw [hfreed] at hm
      rw [hnmems]
      rcases List.mem_cons.mp hm with rfl | hm
      · exact ⟨k.fresh m (List.mem_cons_self ..), fun hin =>
          (List.nodup_cons.mp k.nodup).1 (hperm.mem_iff.mpr hin)⟩
      · obtain ⟨hlt, hnot⟩ := k.freed m hm
        refine ⟨hlt, fun hin => hnot (hvalues.mem_iff.mpr (List.mem_cons_of_mem x ?_))⟩
        rwa [hmembers] at hin
    case acks => exact hack.trans k.acks

/-- The last in the queue leaves, and stays there; one from in between
breaks it off. -/
theorem Queued.leave_ruins {j : Nat} (k : Queued cb as fs mps)
    (hqueue : mqueueRemoveItem cb.membersq mp = some (cb'.membersq, ret))
    (hfreed : cb'.freed = mp :: cb.freed) (hack : cb'.hbAck = cb.hbAck)
    (hj : mps[j]? = some mp) (hbad : j + 1 = as.length ∨ 0 < j) : Ruined cb' := by
  have hcursor := cursor_mqueueRemoveItem k.cursor hqueue
  have hlt : j < as.length := k.queue.length ▸ (List.getElem?_eq_some_iff.mp hj).1
  refine ⟨hcursor, hack.trans k.acks, ?_⟩
  by_cases hlast : j + 1 = as.length
  · rw [mqueueRemoveItem_last k.queue k.nodup hj hlast] at hqueue
    obtain ⟨hq, -⟩ := Prod.mk.inj (Option.some.inj hqueue)
    refine .inr ⟨as, fs, mps, ?_, mp, List.mem_of_getElem? hj, hfreed ▸ List.mem_cons_self ..⟩
    rw [← hq]
    exact k.queue.cursorAt (i := 0) (by omega)
  · obtain ⟨hcount, hnode⟩ := mqueueRemoveItem_between k.queue k.cursor.init k.nodup hj
      (by omega) (by omega) hqueue
    refine .inl ⟨?_, hnode⟩
    rw [hcount, k.queue.count]
    omega

end Leave

/-! ## A pass -/

/-- The datagram of a pass asks for no NACK, and if it is the LEAVE of a
registered member, that is the first of several in the queue. -/
def SafePass (h : Host) (cb : RmcCtrlBlock) (i : Iteration) : Prop :=
  ∀ sender r, i.mcast = some (sender, r) → ¬ AsksForNack h r cb
    ∧ ∀ id mp, arrived h r cb = some (some .leave, id) → htblGet cb.members id = some mp →
      mqueueContent cb.membersq 0 = some mp ∧ lastMember cb ≠ some mp

/-- Every datagram gets through the unbounded switch. -/
theorem Queued.mcastBranch_isSome (k : Queued cb as fs mps) (h : Host) (sender : SockaddrIn)
    (r : RecvResult) : (V01.mcastBranch h sender r cb).isSome := by
  have hs := sameRegistry_received h r cb
  unfold V01.mcastBranch
  dsimp only
  split
  · rfl
  · split
    · rfl
    · rw [Option.isSome_map, dispatch_isSome_iff]
      intro _ mp hk
      have hk' : htblGet (received h r cb).members _ = some mp := hk
      rw [hs.members] at hk'
      have hreaches := k.reaches hk'
      rw [← hs.membersq] at hreaches
      exact hreaches

/-- A datagram that gets to the switch does not cut the pass short. -/
theorem flag_mcastBranch {sender : SockaddrIn} {r : RecvResult} {flag : Bool}
    (hb : V01.mcastBranch h sender r cb = some (cb', flag)) : flag = (arrived h r cb).isNone := by
  rcases mcastBranch_cases h sender r hb with
    ⟨hshort, rfl, -⟩ | ⟨hlong, cb₁, p, rfl, rfl, ⟨hcut, rfl, -⟩ | ⟨hwhole, rfl, -⟩⟩
  · rw [show arrived h r cb = none from if_pos (.inl hshort)]
    rfl
  · rw [show arrived h r cb = none from if_pos (.inr hcut)]
    rfl
  · rw [show arrived h r cb = some _ from if_neg (not_or.mpr ⟨hlong, hwhole⟩)]
    rfl

theorem Queued.content (k : Queued cb as fs mps) (j : Nat) :
    mqueueContent cb.membersq j = mps[j]? := by
  rw [mqueueContent, k.queue.node]
  cases hnode : as[j]? with
  | none =>
    rw [List.getElem?_eq_none_iff, k.queue.length] at hnode
    rw [List.getElem?_eq_none hnode]
    rfl
  | some a => exact k.queue.content hnode

theorem Queued.lastMember (k : Queued cb as fs mps) :
    V01.lastMember cb = mps[mps.length - 1]? := by
  have hcount : mqueueSize cb.membersq = mps.length := by
    rw [mqueueSize, k.queue.count, k.queue.length]
  rw [V01.lastMember, k.size, k.content, hcount]
  split
  · rfl
  · rename_i hempty
    rw [List.getElem?_eq_none (by omega)]

/-- The queue after a datagram: sound if nobody left but the first of
several. -/
theorem Queued.datagram (k : Queued cb as fs mps) {sender : SockaddrIn} {r : RecvResult}
    {flag : Bool} (hb : V01.mcastBranch h sender r cb = some (cb', flag))
    (hok : ∀ id mp, arrived h r cb = some (some .leave, id) → htblGet cb.members id = some mp →
      mqueueContent cb.membersq 0 = some mp ∧ V01.lastMember cb ≠ some mp) :
    ∃ as' fs' mps', Queued cb' as' fs' mps' := by
  have hack := (sameSender_mcastBranch h sender r hb).hbAck
  have hsame : SameRegistry cb cb' → ∃ as' fs' mps', Queued cb' as' fs' mps' :=
    fun hs => ⟨as, fs, mps, k.same k.queue k.cursor hs hack⟩
  rcases registryStep_mcastBranch hb with ⟨-, hs⟩ | ⟨t, id, harrived, hstep⟩
  · exact hsame hs
  · cases hstep with
    | same hs _ _ => exact hsame hs
    | join ht hnew hmembers hqueue hnmems hfreed =>
      obtain ⟨as', fs', k'⟩ := k.join hnew hmembers hqueue hnmems hfreed hack
      exact ⟨as', fs', _, k'⟩
    | leave mp ret ht hk hmembers hqueue hnmems hfreed =>
      subst ht
      obtain ⟨hfront, hlast⟩ := hok id mp harrived hk
      have hlen := k.queue.length
      rw [k.content] at hfront
      rw [k.lastMember] at hlast
      have hone := (List.getElem?_eq_some_iff.mp hfront).1
      have htwo : 2 ≤ as.length := by
        by_contra hfew
        exact hlast (by rw [show mps.length - 1 = 0 by omega]; exact hfront)
      exact k.leave_front hk hmembers hqueue hnmems hfreed hack hfront htwo

/-- The queue after anybody else left. -/
theorem Queued.datagram_ruins (k : Queued cb as fs mps) {sender : SockaddrIn}
    {r : RecvResult} {flag : Bool} (hb : V01.mcastBranch h sender r cb = some (cb', flag))
    {id : UInt32} {mp : Nat} (harrived : arrived h r cb = some (some .leave, id))
    (hk : htblGet cb.members id = some mp)
    (hbad : ¬ (mqueueContent cb.membersq 0 = some mp ∧ V01.lastMember cb ≠ some mp)) :
    Ruined cb' := by
  have hack := (sameSender_mcastBranch h sender r hb).hbAck
  rcases registryStep_mcastBranch hb with ⟨hnone, -⟩ | ⟨t, id', harrived', hstep⟩
  · rw [hnone] at harrived
    cases harrived
  · rw [harrived'] at harrived
    obtain ⟨rfl, rfl⟩ := Prod.mk.inj (Option.some.inj harrived)
    cases hstep with
    | same _ hleave _ =>
      rw [hleave rfl] at hk
      cases hk
    | join ht => cases ht
    | leave mp' ret _ hk' _ hqueue _ hfreed =>
      obtain rfl := Option.some.inj (hk'.symm.trans hk)
      obtain ⟨j, hj, hget⟩ := List.mem_iff_getElem.mp (k.mem hk)
      have hmp : mps[j]? = some mp' := by rw [List.getElem?_eq_getElem hj, hget]
      have hlen := k.queue.length
      refine k.leave_ruins hqueue hfreed hack hmp ?_
      by_contra hgood
      obtain ⟨hlast, hpos⟩ := not_or.mp hgood
      obtain rfl : j = 0 := by omega
      refine hbad ⟨by rw [k.content]; exact hmp, fun hend => ?_⟩
      -- an item that is first and last is the only one
      rw [k.lastMember] at hend
      rw [List.getElem?_eq_getElem (by omega)] at hend
      have hzero : 0 = mps.length - 1 :=
        (k.nodup.getElem_inj_iff).mp (hget.trans (Option.some.inj hend).symm)
      omega

/-- What the passes of the loop keep. -/
structure Sound (cb : RmcCtrlBlock) : Prop where
  queued : ∃ as fs mps, Queued cb as fs mps
  owned : ∃ hand, Owned cb hand
  uncached : Uncached cb

/-- The branches below the switch touch neither caches nor the ledger. -/
theorem kept_branch {b : Branch} {hand : List Nat} (hb : NodeOp.isArrival (.branch b) = false)
    (hown : Owned cb hand) (hempty : Uncached cb) (hstep : branch h cb b = some cb') :
    (∃ hand', Owned cb' hand') ∧ Uncached cb' := by
  have hnode : nodeStep h cb (.branch b) = some cb' := hstep
  exact ⟨owned_nodeStep hown hnode, (shrinks_nodeStep h.endian hown hb hnode).empty hempty⟩

/-- The part below the datagram switch gets through. -/
theorem Sound.afterMcast (k : Sound cb) (h : Host) (i : Iteration) :
    ∃ cb', Bounded.afterMcast h i cb = some cb' ∧ Sound cb' := by
  obtain ⟨⟨as, fs, mps, kq⟩, ⟨hand, hown⟩, hempty⟩ := k
  have hipc : Sound (i.ipc.elim cb fun x => ipcBranch h x cb) := by
    cases i.ipc with
    | none => exact ⟨⟨as, fs, mps, kq⟩, ⟨hand, hown⟩, hempty⟩
    | some x =>
      obtain ⟨hown', hempty'⟩ := kept_branch (b := .ipc x) rfl hown hempty rfl
      exact ⟨⟨as, fs, mps, kq.same kq.queue kq.cursor (sameRegistry_ipcBranch h x cb)
        (ipcBranch_frame h x cb).2.2.2.2.1⟩, hown', hempty'⟩
  rw [afterMcast_eq]
  generalize (i.ipc.elim cb fun x => ipcBranch h x cb) = cb₁ at hipc ⊢
  have hbeat : ∃ cb₂, (if i.hbeat then Bounded.hbeatBranch h cb₁ else some cb₁) = some cb₂
      ∧ Sound cb₂ := by
    cases i.hbeat with
    | false => exact ⟨cb₁, rfl, hipc⟩
    | true =>
      obtain ⟨⟨as, fs, mps, kq⟩, ⟨hand, hown⟩, hempty⟩ := hipc
      obtain ⟨cb₂, hcb₂, hfree, kq₂⟩ := kq.hbeatBranch h
      obtain ⟨hown', hempty'⟩ := kept_branch (b := .hbeat) rfl hown hempty hfree
      exact ⟨cb₂, hcb₂, ⟨as, fs, mps, kq₂⟩, hown', hempty'⟩
  obtain ⟨cb₂, hcb₂, ⟨as, fs, mps, kq⟩, ⟨hand, hown⟩, hempty⟩ := hbeat
  obtain ⟨cb₃, hcb₃, hfree, kq₃⟩ := kq.ackBranch
  obtain ⟨hown', hempty'⟩ := kept_branch (h := h) (b := .ack) rfl hown hempty hfree
  refine ⟨cb₃, ?_, ⟨as, fs, mps, kq₃⟩, hown', hempty'⟩
  rw [hcb₂]
  exact hcb₃

/-- A datagram that asks for no NACK and is no LEAVE from a bad place. -/
theorem Sound.mcast (k : Sound cb) {sender : SockaddrIn} {r : RecvResult} {flag : Bool}
    (hno : ¬ AsksForNack h r cb) (hb : V01.mcastBranch h sender r cb = some (cb', flag))
    (hok : ∀ id mp, arrived h r cb = some (some .leave, id) → htblGet cb.members id = some mp →
      mqueueContent cb.membersq 0 = some mp ∧ V01.lastMember cb ≠ some mp) : Sound cb' := by
  obtain ⟨⟨as, fs, mps, kq⟩, ⟨hand, hown⟩, hempty⟩ := k
  obtain ⟨leak, hown', -⟩ := owned_mcastBranch h sender r hown hb
  exact ⟨kq.datagram hb hok, ⟨_, hown'⟩,
    empty_mcastBranch hown hempty (fun sequence t ha => hno ⟨sequence, t, ha⟩) hb⟩

/-- **One pass.** -/
theorem Sound.iteration_iff (k : Sound cb) (h : Host) (i : Iteration) :
    ((Bounded.iteration h cb i).isSome ↔ SafePass h cb i)
      ∧ ∀ cb', Bounded.iteration h cb i = some cb' → Sound cb' := by
  unfold Bounded.iteration SafePass
  cases hm : i.mcast with
  | none =>
    obtain ⟨cb', hcb', k'⟩ := k.afterMcast h i
    dsimp only
    rw [hcb']
    refine ⟨⟨fun _ => nofun, fun _ => rfl⟩, fun cb₁ heq => ?_⟩
    exact Option.some.inj heq ▸ k'
  | some x =>
    obtain ⟨sender, r⟩ := x
    dsimp only
    obtain ⟨hdies, hfree⟩ := mcastBranch_of_uncached h sender r k.uncached
    by_cases ha : AsksForNack h r cb
    · rw [hdies ha]
      refine ⟨⟨?_, fun hsafe => absurd ha (hsafe sender r rfl).1⟩, ?_⟩
      · intro hsome
        cases hsome
      · intro cb' hnone
        cases hnone
    · rw [hfree ha]
      obtain ⟨as, fs, mps, kq⟩ := k.queued
      obtain ⟨⟨cb₁, flag⟩, hb⟩ := Option.isSome_iff_exists.mp (kq.mcastBranch_isSome h sender r)
      have hflag := flag_mcastBranch hb
      rw [hb]
      by_cases hok : ∀ id mp, arrived h r cb = some (some .leave, id) →
          htblGet cb.members id = some mp →
          mqueueContent cb.membersq 0 = some mp ∧ V01.lastMember cb ≠ some mp
      · have k₁ := k.mcast ha hb hok
        have hsafe : ∀ sender' r', some (sender, r) = some (sender', r') → ¬ AsksForNack h r' cb
            ∧ ∀ id mp, arrived h r' cb = some (some .leave, id) → htblGet cb.members id = some mp →
              mqueueContent cb.membersq 0 = some mp ∧ V01.lastMember cb ≠ some mp := by
          intro sender' r' hx
          obtain ⟨rfl, rfl⟩ := Prod.mk.inj (Option.some.inj hx)
          exact ⟨ha, hok⟩
        cases flag with
        | true =>
          refine ⟨iff_of_true rfl hsafe, fun cb' heq => ?_⟩
          exact Option.some.inj heq ▸ k₁
        | false =>
          obtain ⟨cb', hcb', k'⟩ := k₁.afterMcast h i
          dsimp only
          rw [hcb']
          refine ⟨iff_of_true rfl hsafe, fun cb₂ heq => ?_⟩
          exact Option.some.inj heq ▸ k'
      · -- a LEAVE gets to the rest of the pass
        simp only [not_forall] at hok
        obtain ⟨id, mp, harrived, hk, hbad⟩ := hok
        rw [harrived] at hflag
        subst hflag
        have hnone := (kq.datagram_ruins hb harrived hk hbad).afterMcast h i
        simp only [Option.isNone_some]
        rw [hnone]
        refine ⟨⟨?_, fun hsafe => absurd ((hsafe sender r rfl).2 id mp harrived hk) hbad⟩, ?_⟩
        · intro hsome
          cases hsome
        · intro cb' hnone
          cases hnone

/-! ## Runs -/

theorem sound_rmcastInit (g : Garbage) {a : InitArgs} (hack : a.hbAck = true) :
    Sound (rmcastInit g a) := by
  obtain ⟨fs, hinit⟩ := registered_rmcastInit g a
  obtain ⟨-, -, -, -, -, -, hack', -, hqueue⟩ := rmcastInit_frame g a
  have hnone : (rmcastInit g a).freed = [] := by
    unfold rmcastInit
    dsimp only
    obtain ⟨b, n, f, hpool⟩ := fillPool_eq (max 20 a.nbufs).toNat _
    rw [hpool]
  refine ⟨⟨[], fs, [], ?_⟩, ⟨[], owned_rmcastInit g a⟩, (running_rmcastInit .little g a).uncached⟩
  constructor
  case queue => exact hinit.queue
  case cursor => exact hqueue ▸ cursor_mqueueInit g.items
  case perm => exact hinit.perm
  case nodup => exact hinit.nodup
  case fresh => exact hinit.fresh
  case freed => exact fun mp hmp => absurd hmp (hnone ▸ List.not_mem_nil)
  case acks => exact hack'.trans hack

/-- A pass in which a heartbeat of node `id` arrives. -/
def hbeatPass (id : UInt32) : Iteration :=
  ⟨some (anyAddr, .ok (hbeatDgram 0 (rmcastMemberInit [] id 7) none none 0).bytes), none, false⟩

/-- A pass in which a LEAVE of node `id` arrives. -/
def leavePass (id : UInt32) : Iteration :=
  ⟨some (anyAddr, .ok (Datagram.mk 0 MsgType.leave.toByte 0 0 id []).bytes), none, false⟩

end Rms.V01.Bounded
