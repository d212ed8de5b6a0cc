/-
Rms.V01.ResetTheorems — what `rmcast_leave` leaves behind.

The node should come out empty: no message kept, no member, and every
buffer back in the pool. The drains of `outmsgbuf` and of the caches do
their part, since each lists a table into an array of its own size. The
members do not: the queue `membersq` is not touched, and the array for
the keys of `members` has as many slots as `outmsgbuf` had entries. With
more members than that, some are not listed or their keys are written
past the end, whichever way they fall into buckets
(`leaveResets_order_iff`).

`rmcastLeaveIn_eq` ties the function with the arrays to the one that
leaves the choice of members open, and `htblEnumIntKeys_enumInto` its
enumeration to the one of the table that is made of nodes.
-/
import Rms.Util.EnumTheorems
import Rms.V01.LeaveTheorems
import Rms.V01.SendTheorems

namespace Rms.V01

open Rms.ByteMem Rms.Util Rms.Runs Rms.Buckets

variable {cb : RmcCtrlBlock} {hand : List Nat} {order : KeyOrder} {ν : Type*}

/-! ## Enumerations -/

/-- The buckets hold the keys of the tables, each once. -/
structure KeyOrder.Lists (order : KeyOrder) (cb : RmcCtrlBlock) : Prop where
  outmsgbuf : order.outmsgbuf.flatten.Perm cb.outmsgbuf.keys
  members : order.members.flatten.Perm cb.members.keys
  unseqMsgs : ∀ mp ∈ htblValues cb.members,
    (order.unseqMsgs mp).flatten.Perm (cb.mems mp).unseqMsgs.keys

/-- An array with a slot for every key gets them all. -/
theorem enumInto_perm {t : Htbl ν} {buckets : List (List UInt32)} {nkeys : Nat}
    (hb : buckets.flatten.Perm t.keys) (hle : htblCount t ≤ nkeys) :
    (enumInto nkeys buckets).keys.Perm t.keys := by
  have hlen := hb.length_eq
  rw [length_keys] at hlen
  have hall : gather nkeys buckets [] = [] ++ buckets.flatten :=
    gather_of_length_le (by simp only [List.length_nil]; omega)
  rw [enumInto, hall, List.nil_append]
  exact hb

theorem enumInto_fits {t : Htbl ν} {buckets : List (List UInt32)} {nkeys : Nat}
    (hb : buckets.flatten.Perm t.keys) (hle : htblCount t ≤ nkeys) :
    (enumInto nkeys buckets).keys.length ≤ (enumInto nkeys buckets).slots := by
  rw [(enumInto_perm hb hle).length_eq, length_keys]
  exact hle

theorem enumInto_keys (t : Htbl ν) :
    (enumInto (htblCount t) [t.keys]).keys = htblEnumIntKeys t (htblCount t) := by
  have hlen := length_keys t
  have hall : gather (htblCount t) [t.keys] [] = [] ++ [t.keys].flatten :=
    gather_of_length_le (by simp [hlen])
  rw [enumInto, hall, htblEnumIntKeys, List.take_of_length_le (Nat.le_of_eq hlen)]
  simp

/-- The loop of the node-level table, whose keys are signed: there are
buckets that list its keys and that `enumInto` reads as the loop does. -/
theorem htblEnumIntKeys_enumInto {α : Type*} {t : Hashtable.Hashtbl α} {chains : Nat → List Nat}
    {fs : List Nat} {m : AList fun _ : Hashtable.HtblKey => α}
    (r : Hashtable.Represents t chains fs m) (hsize : 0 < t.tblSize)
    (hint : ∀ k ∈ m.keys, k.type = .int) (nkeys : Nat) :
    ∃ buckets : List (List UInt32),
      (Hashtable.htblEnumIntKeys t nkeys).map (List.map Int32.toUInt32)
          = some (enumInto nkeys buckets).keys
        ∧ (buckets.flatten.map fun k => Hashtable.HtblKey.int k.toInt32).Perm m.keys := by
  refine ⟨(Hashtable.slotBuckets t Hashtable.HtblEntry.intKey chains
    (List.range' 0 t.tblSize)).map (List.map Int32.toUInt32), ?_, ?_⟩
  · rw [Hashtable.htblEnumIntKeys_eq r, Option.map_some]
    exact congrArg some (gather_map Int32.toUInt32 nkeys _ []).symm
  · refine List.Perm.trans (List.Perm.of_eq ?_) (r.keys_perm hsize)
    rw [← List.map_flatten, Hashtable.slotBuckets_flatten, List.map_map, List.map_map]
    apply List.map_congr_left
    intro a ha
    have hkey := hint _ ((r.keys_perm hsize).mem_iff.mp (List.mem_map_of_mem ha))
    exact Hashtable.intKey_eq ((r.entries t.tblSize).types a ha) hkey

/-- Removing every key empties a table. -/
theorem eq_empty_of_perm {t t' : Htbl ν} {keys : List UInt32} (hkeys : keys.Perm t.keys)
    (hget : ∀ k, htblGet t' k = if k ∈ keys then none else htblGet t k) : t' = ∅ := by
  apply eq_empty_of_htblGet
  intro k
  rw [hget]
  split
  · rfl
  · rename_i hk
    by_contra hne
    exact hk (hkeys.mem_iff.mpr (mem_keys_iff.mpr hne))

/-! ## The members -/

/-- The keys listed leave `members`. -/
theorem leaveMembers_frame (order : Nat → List (List UInt32)) (keys : List UInt32) :
    ∀ cb : RmcCtrlBlock, ∃ buf mems t freed, (leaveMembers order keys cb).1
        = { cb with bufmsgq := buf, mems := mems, members := t, freed := freed }
      ∧ ∀ k, htblGet t k = if k ∈ keys then none else htblGet cb.members k := by
  induction keys with
  | nil => exact fun cb => ⟨_, _, _, _, rfl, fun k => by simp⟩
  | cons key keys ih =>
    intro cb
    simp only [leaveMembers]
    split
    · rename_i mp t heq
      obtain ⟨-, rfl⟩ := htblRemove_eq_some.mp heq
      obtain ⟨buf, unseqMsgs, hdrain, -⟩ := drainUnseq_frame mp
        (enumInto (htblCount (cb.mems mp).unseqMsgs) (order mp)).keys
        { cb with members := cb.members.erase key }
      rw [hdrain]
      obtain ⟨buf', mems, t, freed, hleave, hget⟩ := ih { cb with
        bufmsgq := buf, members := cb.members.erase key, freed := mp :: cb.freed
        mems := Function.update cb.mems mp { cb.mems mp with unseqMsgs := unseqMsgs } }
      exact ⟨buf', mems, t, freed, hleave,
        fun k => (hget k).trans (htblGet_erase_others _ key keys k)⟩
    · rename_i heq
      have hnone := htblRemove_eq_none.mp heq
      obtain ⟨buf, mems, t, freed, hleave, hget⟩ := ih cb
      exact ⟨buf, mems, t, freed, hleave, fun k => (hget k).trans (htblGet_others hnone keys k)⟩

/-- One member dropped: what its cache still holds is in hand, and the
caches of the others are as they were. -/
theorem owned_dropped {key : UInt32} {mp : Nat} (h : Owned cb hand)
    (hk : htblGet cb.members key = some mp) (keys : List UInt32) :
    ∃ buf t, drainUnseq mp keys { cb with members := cb.members.erase key }
        = { cb with bufmsgq := buf, members := cb.members.erase key
                    mems := Function.update cb.mems mp { cb.mems mp with unseqMsgs := t } }
      ∧ (∀ k, htblGet t k = if k ∈ keys then none else htblGet (cb.mems mp).unseqMsgs k)
      ∧ Owned { cb with
          bufmsgq := buf, members := cb.members.erase key, freed := mp :: cb.freed
          mems := Function.update cb.mems mp { cb.mems mp with unseqMsgs := t } }
        (htblValues t ++ hand)
      ∧ ∀ mp' ∈ htblValues (cb.members.erase key), mp' ∈ htblValues cb.members
          ∧ Function.update cb.mems mp { cb.mems mp with unseqMsgs := t } mp' = cb.mems mp' := by
  obtain ⟨h₁, hmp⟩ := owned_unregister h hk
  have h₂ := owned_drainUnseq keys hmp h₁
  obtain ⟨buf, t, hdrain, hget⟩ := drainUnseq_frame mp keys
    { cb with members := cb.members.erase key }
  rw [hdrain] at h₂
  simp only [Function.update_self] at h₂
  refine ⟨buf, t, hdrain, hget, h₂.congr rfl rfl rfl rfl rfl (fun _ _ => ⟨rfl, rfl⟩), ?_⟩
  intro mp' hmp'
  have hne : mp' ≠ mp := fun he => hmp (he ▸ hmp')
  obtain ⟨k, hk'⟩ := mem_htblValues.mp hmp'
  exact ⟨mem_htblValues.mpr ⟨k, htblGet_of_erase hk'⟩, Function.update_of_ne hne _ _⟩

/-- Every cache of a dropped member goes back to the pool, and its array is
large enough. -/
theorem owned_leaveMembers (order : Nat → List (List UInt32)) (keys : List UInt32) :
    ∀ {cb : RmcCtrlBlock}, Owned cb hand →
      (∀ mp ∈ htblValues cb.members, (order mp).flatten.Perm (cb.mems mp).unseqMsgs.keys) →
      Owned (leaveMembers order keys cb).1 hand
        ∧ ∀ a ∈ (leaveMembers order keys cb).2, a.keys.length ≤ a.slots := by
  induction keys with
  | nil => exact fun h _ => ⟨h, by simp [leaveMembers]⟩
  | cons key keys ih =>
    intro cb h horder
    simp only [leaveMembers]
    split
    · rename_i mp t heq
      obtain ⟨hk, rfl⟩ := htblRemove_eq_some.mp heq
      have hlist := horder mp (mem_htblValues.mpr ⟨key, hk⟩)
      obtain ⟨buf, t, hdrain, hget, hown, hothers⟩ := owned_dropped h hk
        (enumInto (htblCount (cb.mems mp).unseqMsgs) (order mp)).keys
      obtain rfl : t = ∅ := eq_empty_of_perm (enumInto_perm hlist (Nat.le_refl _)) hget
      rw [htblValues_empty, List.nil_append] at hown
      rw [hdrain]
      have hrest := ih hown (fun mp' hmp' => by
        simp only [(hothers mp' hmp').2]
        exact horder mp' (hothers mp' hmp').1)
      refine ⟨hrest.1, fun a ha => ?_⟩
      rcases List.mem_cons.mp ha with rfl | ha
      · exact enumInto_fits hlist (Nat.le_refl _)
      · exact hrest.2 a ha
    · exact ih h horder

/-- With the caches listed as the finite maps have them, these are the steps
of `dropMembers`. -/
theorem leaveMembers_eq (order : Nat → List (List UInt32)) (keys : List UInt32) :
    ∀ {cb : RmcCtrlBlock} {hand : List Nat}, Owned cb hand →
      (∀ mp ∈ htblValues cb.members, order mp = [(cb.mems mp).unseqMsgs.keys]) →
      (leaveMembers order keys cb).1 = dropMembers keys cb := by
  induction keys with
  | nil => exact fun _ _ => rfl
  | cons key keys ih =>
    intro cb hand h horder
    simp only [leaveMembers, dropMembers]
    split
    · rename_i mp t heq
      obtain ⟨hk, rfl⟩ := htblRemove_eq_some.mp heq
      obtain ⟨buf, t, hdrain, -, hown, hothers⟩ := owned_dropped h hk
        (htblEnumIntKeys (cb.mems mp).unseqMsgs (htblCount (cb.mems mp).unseqMsgs))
      simp only [horder mp (mem_htblValues.mpr ⟨key, hk⟩), enumInto_keys, hdrain]
      exact ih hown (fun mp' hmp' => by
        simp only [(hothers mp' hmp').2]
        exact horder mp' (hothers mp' hmp').1)
    · exact ih h horder

/-! ## The node -/

/-- `rmcastLeaveIn` is `rmcastLeave` with the members that its array gets. -/
theorem rmcastLeaveIn_eq (h : Owned cb hand) (hout : order.outmsgbuf = [cb.outmsgbuf.keys])
    (hcaches : ∀ mp ∈ htblValues cb.members,
      order.unseqMsgs mp = [(cb.mems mp).unseqMsgs.keys]) :
    (rmcastLeaveIn order cb).1
      = rmcastLeave (enumInto (htblCount cb.outmsgbuf) order.members).keys cb := by
  have h₁ := owned_drainOut (htblEnumIntKeys cb.outmsgbuf (htblCount cb.outmsgbuf)) h
  obtain ⟨buf, o, hdrain, -⟩ :=
    drainOut_frame (htblEnumIntKeys cb.outmsgbuf (htblCount cb.outmsgbuf)) cb
  rw [hdrain] at h₁
  have hmembers := leaveMembers_eq order.unseqMsgs
    (enumInto (htblCount cb.outmsgbuf) order.members).keys h₁ hcaches
  simp only [rmcastLeaveIn, rmcastLeave, leaveWith, hout, enumInto_keys, hdrain, hmembers]

/-- What is expected of `rmcast_leave`: the tables and the queue of members
are empty, every buffer that was kept or cached is in the pool once, and
no key is written behind the end of an array. -/
structure LeaveResets (order : KeyOrder) (cb : RmcCtrlBlock) : Prop where
  outmsgbuf : (rmcastLeaveIn order cb).1.outmsgbuf = ∅
  members : (rmcastLeaveIn order cb).1.members = ∅
  membersq : mqueueSize (rmcastLeaveIn order cb).1.membersq = 0
  returned : ∀ p ∈ htblValues cb.outmsgbuf ++ cachedMsgs cb,
    (rmcastLeaveIn order cb).1.bufmsgq.count p = 1
  arrays : ∀ a ∈ (rmcastLeaveIn order cb).2, a.keys.length ≤ a.slots

theorem rmcastLeaveIn_frame (order : KeyOrder) (cb : RmcCtrlBlock) :
    ∃ buf o mems t freed, (rmcastLeaveIn order cb).1 = { cb with
        bufmsgq := buf, outmsgbuf := o, mems := mems, members := t, freed := freed
        hbSeqP1 := 0, hbSeqP2 := 0, hbSeqP3 := 0, oldestSeq := 0
        self := { cb.self with sequence := 0, sequenceSync := 99999999, lost := 0 } }
      ∧ (∀ k, htblGet o k = if k ∈ (enumInto (htblCount cb.outmsgbuf) order.outmsgbuf).keys
          then none else htblGet cb.outmsgbuf k)
      ∧ ∀ k, htblGet t k = if k ∈ (enumInto (htblCount cb.outmsgbuf) order.members).keys
          then none else htblGet cb.members k := by
  obtain ⟨buf, o, hdrain, hout⟩ :=
    drainOut_frame (enumInto (htblCount cb.outmsgbuf) order.outmsgbuf).keys cb
  obtain ⟨buf', mems, t, freed, hleave, hmembers⟩ := leaveMembers_frame order.unseqMsgs
    (enumInto (htblCount cb.outmsgbuf) order.members).keys
    { cb with bufmsgq := buf, outmsgbuf := o }
  exact ⟨buf', o, mems, t, freed, by simp only [rmcastLeaveIn, hdrain, hleave], hout, hmembers⟩

/-- With an order that lists the tables, leaving keeps every buffer. -/
theorem owned_rmcastLeaveIn (h : Owned cb hand) (ho : order.Lists cb) :
    Owned (rmcastLeaveIn order cb).1 hand
      ∧ ∀ a ∈ (leaveMembers order.unseqMsgs
          (enumInto (htblCount cb.outmsgbuf) order.members).keys
          (drainOut (enumInto (htblCount cb.outmsgbuf) order.outmsgbuf).keys cb)).2,
        a.keys.length ≤ a.slots := by
  have h₁ := owned_drainOut (enumInto (htblCount cb.outmsgbuf) order.outmsgbuf).keys h
  obtain ⟨buf, o, hdrain, -⟩ :=
    drainOut_frame (enumInto (htblCount cb.outmsgbuf) order.outmsgbuf).keys cb
  have horder : ∀ mp ∈ htblValues (drainOut
      (enumInto (htblCount cb.outmsgbuf) order.outmsgbuf).keys cb).members,
      (order.unseqMsgs mp).flatten.Perm ((drainOut
        (enumInto (htblCount cb.outmsgbuf) order.outmsgbuf).keys cb).mems mp).unseqMsgs.keys := by
    rw [hdrain]
    exact ho.unseqMsgs
  obtain ⟨h₂, harrays⟩ := owned_leaveMembers order.unseqMsgs
    (enumInto (htblCount cb.outmsgbuf) order.members).keys h₁ horder
  exact ⟨h₂.congr rfl rfl rfl rfl rfl (fun _ _ => ⟨rfl, rfl⟩), harrays⟩

/-- **Leaving resets the node** exactly if it has no queue of members and no
more members than kept messages. -/
theorem leaveResets_order_iff (h : Owned cb hand) (ho : order.Lists cb) :
    LeaveResets order cb
      ↔ mqueueSize cb.membersq = 0 ∧ htblCount cb.members ≤ htblCount cb.outmsgbuf := by
  obtain ⟨buf, o, mems, t, freed, hleave, hout, hmembers⟩ := rmcastLeaveIn_frame order cb
  obtain ⟨hown, harrays⟩ := owned_rmcastLeaveIn h ho
  constructor
  · intro hr
    have hq := hr.membersq
    have ht := hr.members
    rw [hleave] at hq ht
    subst ht
    refine ⟨hq, ?_⟩
    have hsub : cb.members.keys ⊆ (enumInto (htblCount cb.outmsgbuf) order.members).keys := by
      intro k hk
      by_contra hnot
      have hget := hmembers k
      rw [if_neg hnot, htblGet_empty] at hget
      exact mem_keys_iff.mp hk hget.symm
    have hfits := hr.arrays (enumInto (htblCount cb.outmsgbuf) order.members)
      (by simp [rmcastLeaveIn])
    have hlen := (List.subperm_of_subset cb.members.keys_nodup hsub).length_le
    rw [length_keys] at hlen
    exact Nat.le_trans hlen hfits
  · intro ⟨hq, hle⟩
    obtain rfl := eq_empty_of_perm (enumInto_perm ho.outmsgbuf (Nat.le_refl _)) hout
    obtain rfl := eq_empty_of_perm (enumInto_perm ho.members hle) hmembers
    refine ⟨by rw [hleave], by rw [hleave], by rw [hleave]; exact hq, ?_, ?_⟩
    · intro p hp
      -- a buffer in a place is not in hand, and all that is left is the pool
      have hbefore := h.count p
      have hafter := hown.count p
      have hnodup := List.nodup_iff_count_le_one.mp (List.nodup_range (n := cb.nmsgs)) p
      have hpos := List.count_pos_iff.mpr hp
      rw [hleave] at hafter ⊢
      simp only [places, cachedMsgs, htblValues_empty, List.flatMap_nil, List.append_nil,
        List.count_append] at hbefore hafter hpos ⊢
      omega
    · intro a ha
      rcases List.mem_cons.mp ha with rfl | ha
      · exact enumInto_fits ho.outmsgbuf (Nat.le_refl _)
      · rcases List.mem_cons.mp ha with rfl | ha
        · exact enumInto_fits ho.members hle
        · exact harrays a ha

end Rms.V01
