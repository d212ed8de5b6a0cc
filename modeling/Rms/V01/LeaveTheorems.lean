/-
Rms.V01.LeaveTheorems — buffers and messages when a node leaves.

`rmcast_leave` sends nothing and writes to no message. It gives the kept
messages back to the pool, and the cached ones of the members it drops,
so the ownership of buffers goes on over it.
-/
import Rms.V01.Leave
import Rms.V01.PoolTheorems

namespace Rms.V01

open Rms.ByteMem Rms.Util

variable {cb : RmcCtrlBlock} {hand : List Nat}

/-! ## Ownership -/

theorem owned_drainOut (keys : List UInt32) :
    ∀ {cb : RmcCtrlBlock}, Owned cb hand → Owned (drainOut keys cb) hand := by
  induction keys with
  | nil => exact fun h => h
  | cons k keys ih =>
    intro cb h
    simp only [drainOut]
    split
    · rename_i p t heq
      obtain ⟨hget, rfl⟩ := htblRemove_eq_some.mp heq
      exact ih (owned_releaseKept h hget)
    · exact ih h

/-- What a dropped member had cached goes to the pool, except for keys that
its enumeration missed. -/
theorem owned_dropMembers (keys : List UInt32) :
    ∀ {cb : RmcCtrlBlock} {hand : List Nat}, Owned cb hand →
      ∃ hand', Owned (dropMembers keys cb) hand' := by
  induction keys with
  | nil => exact fun h => ⟨_, h⟩
  | cons k keys ih =>
    intro cb hand h
    simp only [dropMembers]
    split
    · rename_i mp t heq
      obtain ⟨hk, rfl⟩ := htblRemove_eq_some.mp heq
      obtain ⟨h₁, hmp⟩ := owned_unregister h hk
      have h₂ := owned_drainUnseq (htblEnumIntKeys (cb.mems mp).unseqMsgs
        (htblCount (cb.mems mp).unseqMsgs)) hmp h₁
      exact ih (h₂.congr rfl rfl rfl rfl rfl (fun _ _ => ⟨rfl, rfl⟩))
    · exact ih h

theorem owned_leaveWith (out keys : List UInt32) (h : Owned cb hand) :
    ∃ hand', Owned (leaveWith out keys cb) hand' := by
  obtain ⟨hand', h'⟩ := owned_dropMembers keys (owned_drainOut out h)
  exact ⟨hand', h'.congr rfl rfl rfl rfl rfl (fun _ _ => ⟨rfl, rfl⟩)⟩

theorem owned_daemonExit (host : Host) (h : Owned cb hand) : Owned (daemonExit host cb) hand :=
  owned_releaseMsg (owned_sendto (owned_setMsg (owned_allocMsg h) _ _) _ _ _ _)

/-! ## What leaving changes -/

/-- The keys listed leave `outmsgbuf`. -/
theorem drainOut_frame (keys : List UInt32) :
    ∀ cb : RmcCtrlBlock, ∃ buf t, drainOut keys cb = { cb with bufmsgq := buf, outmsgbuf := t }
      ∧ ∀ k, htblGet t k = if k ∈ keys then none else htblGet cb.outmsgbuf k := by
  induction keys with
  | nil => exact fun cb => ⟨_, _, rfl, fun k => by simp⟩
  | cons key keys ih =>
    intro cb
    simp only [drainOut]
    split
    · rename_i p t heq
      obtain ⟨-, rfl⟩ := htblRemove_eq_some.mp heq
      obtain ⟨buf, t, hdrain, hget⟩ :=
        ih (releaseMsg { cb with outmsgbuf := cb.outmsgbuf.erase key } p)
      exact ⟨buf, t, hdrain, fun k => (hget k).trans (htblGet_erase_others _ key keys k)⟩
    · rename_i heq
      have hnone := htblRemove_eq_none.mp heq
      obtain ⟨buf, t, hdrain, hget⟩ := ih cb
      exact ⟨buf, t, hdrain, fun k => (hget k).trans (htblGet_others hnone keys k)⟩

theorem dropMembers_frame (keys : List UInt32) :
    ∀ cb : RmcCtrlBlock, ∃ buf mems t freed, dropMembers keys cb
      = { cb with bufmsgq := buf, mems := mems, members := t, freed := freed } := by
  induction keys with
  | nil => exact fun cb => ⟨_, _, _, _, rfl⟩
  | cons key keys ih =>
    intro cb
    simp only [dropMembers]
    split
    · rename_i mp t _
      obtain ⟨buf, unseqMsgs, hdrain, -⟩ := drainUnseq_frame mp
        (htblEnumIntKeys (cb.mems mp).unseqMsgs (htblCount (cb.mems mp).unseqMsgs))
        { cb with members := t }
      rw [hdrain]
      exact ih _
    · exact ih cb

theorem leaveWith_frame (out keys : List UInt32) (cb : RmcCtrlBlock) :
    ∃ buf o mems t freed, leaveWith out keys cb = { cb with
        bufmsgq := buf, outmsgbuf := o, mems := mems, members := t, freed := freed
        hbSeqP1 := 0, hbSeqP2 := 0, hbSeqP3 := 0, oldestSeq := 0
        self := { cb.self with sequence := 0, sequenceSync := 99999999, lost := 0 } }
      ∧ ∀ k q, htblGet o k = some q → htblGet cb.outmsgbuf k = some q := by
  obtain ⟨buf, o, hdrain, hget⟩ := drainOut_frame out cb
  obtain ⟨buf', mems, t, freed, hdrop⟩ :=
    dropMembers_frame keys { cb with bufmsgq := buf, outmsgbuf := o }
  refine ⟨buf', o, mems, t, freed, by simp only [leaveWith, hdrain, hdrop], ?_⟩
  intro k q hk
  rw [hget] at hk
  split at hk
  · cases hk
  · exact hk

/-- Leaving writes to no message and keeps none that was not kept. -/
theorem leaveWith_kept (out keys : List UInt32) (cb : RmcCtrlBlock) :
    (leaveWith out keys cb).msgs = cb.msgs
      ∧ ∀ k q, htblGet (leaveWith out keys cb).outmsgbuf k = some q →
          htblGet cb.outmsgbuf k = some q := by
  obtain ⟨buf, o, mems, t, freed, hleave, hkept⟩ := leaveWith_frame out keys cb
  rw [hleave]
  exact ⟨rfl, hkept⟩

end Rms.V01
