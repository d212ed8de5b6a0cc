/-
Rms.V01.RetentionTheorems — what a sender with acks drops too early.

With `hb_ack` set, two branches purge `outmsgbuf`. The ack branch means
to take the least `sequence_sync` of all members as its bound, but its
comparison guards an empty statement, so the bound is the
`sequence_sync` of the last member of the queue (`ackBound`). A
heartbeat purges by age and looks at no acknowledgement at all.

`Retains` is what a step should do: drop a number only if every member
has acknowledged it, and never move `oldest_seq` past the next number.
`AckSafe` is the condition on the state before a step under which it does
(`retains_branch_iff`).
-/
import Rms.V01.WindowTheorems
import Rms.V01.RegistryTheorems

namespace Rms.V01

open Rms.ByteMem Rms.Util Rms.Runs

/-! ## The members and their acknowledgements -/

/-- A member in `membersq`. -/
def MemberOf (cb : RmcCtrlBlock) (mp : Nat) : Prop :=
  ∃ i : Nat, (i : Int) < mqueueSize cb.membersq ∧ mqueueContent cb.membersq i = some mp

/-- The last member in `membersq`. -/
def lastMember (cb : RmcCtrlBlock) : Option Nat :=
  if 0 < mqueueSize cb.membersq then
    mqueueContent cb.membersq ((mqueueSize cb.membersq).toNat - 1)
  else none

/-- What the ack branch takes for acknowledged: the number of the last
member, or the old one if there is no member. -/
def ackBound (cb : RmcCtrlBlock) : UInt32 :=
  match lastMember cb with
  | some mp => (cb.mems mp).sequenceSync
  | none => cb.self.sequenceSync

/-- Every member has acknowledged the number before `bound`. -/
def Acknowledged (cb : RmcCtrlBlock) (bound : UInt32) : Prop :=
  ∀ mp, MemberOf cb mp → bound.toNat ≤ (cb.mems mp).sequenceSync.toNat + 1

/-- A step drops a number only if every member has acknowledged it, and
`oldest_seq` stays within the numbers used. -/
def Retains (cb cb' : RmcCtrlBlock) : Prop :=
  (∀ k, (htblGet cb.outmsgbuf k).isSome → htblGet cb'.outmsgbuf k = none →
    ∀ mp, MemberOf cb mp → k ≤ (cb.mems mp).sequenceSync)
  ∧ cb'.oldestSeq ≤ cb'.self.sequence

/-- When a branch drops nothing too early: a heartbeat purges nothing, or
only what every member has acknowledged; the ack branch purges nothing, or
its last member has acknowledged no number that was not used and every
member is as far as the last one. -/
def AckSafe (cb : RmcCtrlBlock) : Branch → Prop
  | .hbeat => cb.hbSeqP2 ≤ cb.oldestSeq ∨ Acknowledged cb cb.hbSeqP2
  | .ack => ackBound cb ≤ cb.oldestSeq
      ∨ (ackBound cb ≤ cb.self.sequence ∧ Acknowledged cb (ackBound cb))
  | _ => True

/-- The client's messages do not use up the numbers. -/
def NoWrap (cb : RmcCtrlBlock) : Branch → Prop
  | .ipc _ => cb.self.sequence.toNat + 1 < 4294967296
  | _ => True

instance (cb : RmcCtrlBlock) : ∀ b, Decidable (NoWrap cb b)
  | .ipc _ => inferInstanceAs (Decidable (cb.self.sequence.toNat + 1 < 4294967296))
  | .mcast _ _ => isTrue trivial
  | .hbeat => isTrue trivial
  | .ack => isTrue trivial

/-- What holds along a run: the window, a sound cursor, and acks in use. -/
structure Acking (cb : RmcCtrlBlock) : Prop where
  window : Window cb
  cursor : Cursor cb.membersq
  hbAck : cb.hbAck = true

/-! ## Purges -/

/-- A purge drops nothing too early exactly if it drops nothing, or its
bound was used and every member has acknowledged the number before it. -/
theorem retains_purge_iff {cb cb₁ : RmcCtrlBlock} (w : Window cb)
    (hout : cb₁.outmsgbuf = cb.outmsgbuf) (hold : cb₁.oldestSeq = cb.oldestSeq)
    (hseq : cb₁.self.sequence = cb.self.sequence) (bound : UInt32) :
    Retains cb (purge bound cb₁)
      ↔ bound ≤ cb.oldestSeq ∨ (bound ≤ cb.self.sequence ∧ Acknowledged cb bound) := by
  by_cases hle : bound ≤ cb.oldestSeq
  · rw [purge_of_le (by rw [hold]; exact hle)]
    refine ⟨fun _ => .inl hle, fun _ => ⟨?_, ?_⟩⟩
    · intro k hk hnone
      rw [hout] at hnone
      simp [hnone] at hk
    · rw [hold, hseq]
      exact w.oldest
  · have hlt : cb.oldestSeq < bound := UInt32.not_le.mp hle
    have hnext : (purge bound cb₁).oldestSeq = bound :=
      purge_oldestSeq (by rw [hold]; exact UInt32.le_of_lt hlt)
    have hself : (purge bound cb₁).self.sequence = cb.self.sequence := by
      obtain ⟨o, q, s, hframe⟩ := purge_frame bound cb₁
      rw [hframe]
      exact hseq
    rw [Retains, hnext, hself]
    constructor
    · rintro ⟨hdrop, hbound⟩
      refine .inr ⟨hbound, fun mp hmp => ?_⟩
      -- the last number dropped is the one before the bound
      have hpred : (bound - 1).toNat = bound.toNat - 1 := by
        have hone : (1 : UInt32) ≤ bound := by
          rw [UInt32.lt_iff_toNat_lt] at hlt
          rw [UInt32.le_iff_toNat_le]
          exact Nat.succ_le_of_lt (Nat.lt_of_le_of_lt (Nat.zero_le _) hlt)
        exact UInt32.toNat_sub_of_le _ _ hone
      rw [UInt32.lt_iff_toNat_lt] at hlt
      rw [UInt32.le_iff_toNat_le] at hbound
      have hkept : (htblGet cb.outmsgbuf (bound - 1)).isSome := by
        rw [w.keys, UInt32.le_iff_toNat_le, UInt32.lt_iff_toNat_lt, hpred]
        omega
      have hgone : htblGet (purge bound cb₁).outmsgbuf (bound - 1) = none := by
        rw [htblGet_purge, hold, if_pos]
        rw [UInt32.le_iff_toNat_le, UInt32.lt_iff_toNat_lt, hpred]
        omega
      have hsync := UInt32.le_iff_toNat_le.mp (hdrop _ hkept hgone mp hmp)
      omega
    · rintro (hno | ⟨hbound, hacked⟩)
      · exact absurd hno hle
      · refine ⟨fun k hk hnone mp hmp => ?_, hbound⟩
        rw [htblGet_purge, hold, hout] at hnone
        split at hnone
        · rename_i hin
          have hsync := hacked mp hmp
          have hlast := UInt32.lt_iff_toNat_lt.mp hin.2
          rw [UInt32.le_iff_toNat_le]
          omega
        · simp [hnone] at hk

/-! ## The ack branch -/

/-- Every round assigns, so the last one counts. -/
theorem ackSync_eq (mems : Nat → RmcMember) (mps : List Nat) :
    ∀ sync, ackSync mems mps sync
      = match mps.getLast? with
        | some mp => (mems mp).sequenceSync
        | none => sync := by
  induction mps with
  | nil =>
    intro sync
    rfl
  | cons mp mps ih =>
    intro sync
    rw [ackSync, ih]
    cases mps with
    | nil => rfl
    | cons mp' mps => rfl

/-- The bound of the ack branch is the number of the last member. -/
theorem ackBranch_spec {cb cb' : RmcCtrlBlock} (c : Cursor cb.membersq) (hack : cb.hbAck = true)
    (h : ackBranch cb = some cb') :
    ∃ i, cb' = purge (ackBound cb)
      { cb with membersq := cursorAt cb.membersq i
                self := { cb.self with sequenceSync := ackBound cb } } := by
  unfold ackBranch at h
  rw [if_pos hack] at h
  split at h
  · cases h
  rename_i q cs hpeeks
  split at h
  · cases h
  rename_i mps hmps
  obtain ⟨i, rfl⟩ := mqueuePeeks_cursor _ (i := 0) c hpeeks
  have hbound : ackSync cb.mems mps cb.self.sequenceSync = ackBound cb := by
    rw [ackSync_eq, ackBound]
    have hlast : lastMember cb = mps.getLast? := by
      unfold lastMember
      by_cases hsize : 0 < mqueueSize cb.membersq
      · have hcs := mqueuePeeks_spec _ (i := 0) c (by
          show ((0 + (mqueueSize cb.membersq).toNat : Nat) : Int) ≤ mqueueSize cb.membersq
          omega) hpeeks
        rw [mapM_id_eq_some hmps] at hcs
        have hget := congrArg List.getLast? hcs
        obtain ⟨n, hn⟩ : ∃ n, (mqueueSize cb.membersq).toNat = n + 1 :=
          ⟨(mqueueSize cb.membersq).toNat - 1, by omega⟩
        rw [hn, List.range'_1_concat, List.map_append, List.map_singleton,
          List.getLast?_append_of_ne_nil _ (by simp), List.getLast?_map] at hget
        rw [if_pos hsize, hn]
        cases hmem : mps.getLast? with
        | none =>
          rw [hmem] at hget
          cases hget
        | some mp =>
          rw [hmem] at hget
          simpa using hget.symm
      · have hlen := mqueuePeeks_length hpeeks
        rw [mapM_id_eq_some hmps, List.length_map] at hlen
        have hnil : mps = [] := List.length_eq_zero_iff.mp (by omega)
        rw [if_neg hsize, hnil]
        rfl
    rw [hlast]
  refine ⟨i, ?_⟩
  rw [← hbound]
  exact (Option.some.inj h).symm

/-! ## Steps -/

theorem RegistryStep.cursor {t : Option MsgType} {id : UInt32} {cb cb' : RmcCtrlBlock}
    (h : RegistryStep t id cb cb') (c : Cursor cb.membersq) : Cursor cb'.membersq := by
  cases h with
  | same hs hleave hhbeat =>
    rw [hs.membersq]
    exact c
  | join ht hnew hmembers hqueue hnmems hfreed =>
    rw [hqueue]
    exact cursor_mqueueAdd c _
  | leave mp r ht hk hmembers hqueue hnmems hfreed => exact cursor_mqueueRemoveItem c hqueue

theorem cursor_mcastBranch {h : Host} {sender : SockaddrIn} {r : RecvResult}
    {cb cb' : RmcCtrlBlock} {flag : Bool} (c : Cursor cb.membersq)
    (hb : mcastBranch h sender r cb = some (cb', flag)) : Cursor cb'.membersq := by
  rcases registryStep_mcastBranch hb with ⟨-, hs⟩ | ⟨t, id, -, hstep⟩
  · rw [hs.membersq]
    exact c
  · exact hstep.cursor c

/-- The client's messages drop nothing. -/
theorem ipcBranch_keeps {h : Host} {i : IpcInput} {cb : RmcCtrlBlock} {k : UInt32}
    (hk : (htblGet cb.outmsgbuf k).isSome) : htblGet (ipcBranch h i cb).outmsgbuf k ≠ none := by
  have hrecv := (sameSender_ipcRecv h i cb).outmsgbuf
  have hsame : (htblGet (ipcRecv h i cb).1.outmsgbuf k).isSome := by
    rw [hrecv]
    exact hk
  intro hnone
  rcases ipcBranch_cases h i cb with ⟨hs, -⟩ | ⟨-, -, hsend⟩
  · rw [hs.outmsgbuf] at hnone
    simp [hnone] at hk
  · rw [hsend, ipcSend] at hnone
    simp only at hnone
    split at hnone
    · simp only [RmcCtrlBlock.sendto, RmcCtrlBlock.setMsg] at hnone
      cases hseq : htblGet (ipcRecv h i cb).1.outmsgbuf (ipcRecv h i cb).1.self.sequence with
      | some d =>
        rw [htblPut_of_some _ hseq] at hnone
        simp [hnone] at hsame
      | none =>
        rw [htblPut_of_none _ hseq, htblGet_insert] at hnone
        split at hnone
        · cases hnone
        · simp [hnone] at hsame
    · simp only [RmcCtrlBlock.sendto, RmcCtrlBlock.setMsg] at hnone
      simp [hnone] at hsame

theorem retains_branch_iff {h : Host} {cb cb' : RmcCtrlBlock} {b : Branch} (k : Acking cb)
    (hwrap : NoWrap cb b) (hb : branch h cb b = some cb') : Retains cb cb' ↔ AckSafe cb b := by
  cases b with
  | mcast sender r =>
    obtain ⟨⟨cb₁, flag⟩, hm, rfl⟩ := Option.map_eq_some_iff.mp hb
    have hsame := sameSender_mcastBranch h sender r hm
    refine ⟨fun _ => trivial, fun _ => ⟨?_, (k.window.congr hsame).oldest⟩⟩
    intro key hkey hnone
    rw [hsame.outmsgbuf] at hnone
    simp [hnone] at hkey
  | ipc i =>
    obtain rfl := Option.some.inj hb
    exact ⟨fun _ => trivial, fun _ => ⟨fun key hkey hnone => absurd hnone (ipcBranch_keeps hkey),
      (k.window.ipcBranch hwrap h i).oldest⟩⟩
  | hbeat =>
    obtain ⟨n, q, cs, buf, nmsgs, f, sent, -, -, rfl⟩ := hbeatBranch_spec hb
    refine (retains_purge_iff k.window ?_ ?_ ?_ cb.hbSeqP2).trans (or_congr_right ?_)
    · rfl
    · rfl
    · rfl
    · exact and_iff_right k.window.p2_le_sequence
  | ack =>
    obtain ⟨i, rfl⟩ := ackBranch_spec k.cursor k.hbAck hb
    refine retains_purge_iff k.window ?_ ?_ ?_ (ackBound cb) <;> rfl

theorem acking_branch {h : Host} {cb cb' : RmcCtrlBlock} {b : Branch} (k : Acking cb)
    (hwrap : NoWrap cb b) (hkeep : Retains cb cb') (hb : branch h cb b = some cb') :
    Acking cb' := by
  cases b with
  | mcast sender r =>
    obtain ⟨⟨cb₁, flag⟩, hm, rfl⟩ := Option.map_eq_some_iff.mp hb
    have hsame := sameSender_mcastBranch h sender r hm
    exact ⟨k.window.congr hsame, cursor_mcastBranch k.cursor hm, hsame.hbAck.trans k.hbAck⟩
  | ipc i =>
    obtain rfl := Option.some.inj hb
    refine ⟨k.window.ipcBranch hwrap h i, ?_, (ipcBranch_frame h i cb).2.2.2.2.1.trans k.hbAck⟩
    rw [(ipcBranch_receiver h i cb).2.2.1]
    exact k.cursor
  | hbeat =>
    have hwindow := k.window.hbeatBranch hb
    obtain ⟨n, q, cs, buf, nmsgs, f, sent, hpeeks, -, hcb'⟩ := hbeatBranch_spec hb
    obtain ⟨i, rfl⟩ := mqueuePeeks_cursor n (i := 0) k.cursor hpeeks
    obtain ⟨o, b, t, hframe⟩ := purge_frame cb.hbSeqP2
      { cb with membersq := cursorAt cb.membersq i, bufmsgq := buf, nmsgs := nmsgs, msgs := f
                sent := sent, hbSeqP1 := cb.self.sequence, hbSeqP2 := cb.hbSeqP1
                hbSeqP3 := cb.hbSeqP2 }
    rw [hframe] at hcb'
    subst hcb'
    exact ⟨hwindow, k.cursor.at i, k.hbAck⟩
  | ack =>
    have hsafe := (retains_branch_iff k hwrap hb).mp hkeep
    obtain ⟨i, hcb'⟩ := ackBranch_spec k.cursor k.hbAck hb
    have w₁ : Window { cb with
        membersq := cursorAt cb.membersq i
        self := { cb.self with sequenceSync := ackBound cb } } :=
      ⟨k.window.keys, k.window.oldest, k.window.p1, k.window.p2, k.window.p3⟩
    have w₂ : Window (purge (ackBound cb) _) := w₁.purge (hsafe.imp_right And.left)
    rw [← hcb'] at w₂
    obtain ⟨o, b, t, hframe⟩ := purge_frame (ackBound cb)
      { cb with membersq := cursorAt cb.membersq i
                self := { cb.self with sequenceSync := ackBound cb } }
    rw [hframe] at hcb'
    subst hcb'
    exact ⟨w₂, k.cursor.at i, k.hbAck⟩

theorem acking_rmcastInit (g : Garbage) {a : InitArgs} (hack : a.hbAck = true) :
    Acking (rmcastInit g a) := by
  obtain ⟨-, -, -, -, -, -, hinit, -, hqueue⟩ := rmcastInit_frame g a
  refine ⟨window_rmcastInit g a, ?_, hinit.trans hack⟩
  rw [hqueue]
  exact cursor_mqueueInit g.items

/-! ## An example -/

/-- `rmcast_init` as in `plainArgs`, with acks. -/
def ackArgs : InitArgs := { plainArgs with hbAck := true }

/-- A heartbeat of node `id`, which acknowledges what `acks` says. -/
def hbeatFrom (id : UInt32) (acks : Option (List (UInt32 × UInt32))) : Branch :=
  .mcast anyAddr (.ok (hbeatDgram 0 (rmcastMemberInit [] id 7) none acks 0).bytes)

/-- Nodes 2 and 3 join, three messages are sent, and node 2 acknowledges
number 2; node 3 has acknowledged nothing. -/
def oneAhead : List Branch :=
  [hbeatFrom 2 none, .ack, hbeatFrom 3 none, .ack, .ipc (.whole .little [10]), .ack,
   .ipc (.whole .little [11]), .ack, .ipc (.whole .little [12]), .ack, hbeatFrom 2 (some [(1, 2)])]

end Rms.V01
