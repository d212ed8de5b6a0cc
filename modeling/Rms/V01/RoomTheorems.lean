/-
Rms.V01.RoomTheorems — whether the client's message has room.

A message of the client is read into a pooled buffer behind the header.
If it is longer than `rmcb->bufsize` the buffer is made larger first. The
test compares the payload with a size that includes the header, and with
the size of buffers made from now on, while the pool may still hold older
and smaller ones. So there is room exactly if the message is long enough
for the buffer to grow, or fits the buffer that comes out of the pool
(`payload_fits_iff`). Whatever the order in which buffers come out, a
payload of at most `max_msg_size` bytes has room.

`recycle` lets the pool be reordered between the branches of the daemon,
so nothing here depends on its being a stack.
-/
import Rms.V01.IsolationTheorems
import Rms.V01.SessionTheorems
import Rms.V01.WindowTheorems

namespace Rms.V01

open Rms.ByteMem Rms.Util Rms.Runs

variable {h : Host} {cb cb' : RmcCtrlBlock} {hand : List Nat} {P : Nat → Prop}

/-! ## A pool in any order -/

/-- A branch of the loop, or another order of the pool. -/
inductive PoolEvent where
  | branch (b : Branch)
  | reorder (pool : List Nat)

def recycle (h : Host) (cb : RmcCtrlBlock) : PoolEvent → Option RmcCtrlBlock
  | .branch b => branch h cb b
  | .reorder pool => if pool.Perm cb.bufmsgq then some { cb with bufmsgq := pool } else none

/-- The size of the buffer that the client's message is read into. -/
def chosenSize (h : Host) (i : IpcInput) (cb : RmcCtrlBlock) : Nat :=
  ((ipcRecv h i cb).1.msgs (ipcRecv h i cb).2).size

/-- The size of the buffer that comes out of the pool next. -/
def nextSize (cb : RmcCtrlBlock) : Nat := ((allocMsg cb).1.msgs (allocMsg cb).2).size

/-- If a message of the client is read, it fits its buffer. -/
def PayloadFits (h : Host) (cb : RmcCtrlBlock) : PoolEvent → Prop
  | .branch (.ipc i) => 0 < (i.len.limit sizeofLong).ret →
      (sizeofHdr : Int) + ipcLen h i cb ≤ chosenSize h i cb
  | _ => True

/-- If a message of the client is read, it is longer than `bufsize` or fits
the next buffer. -/
def LongOrFits (h : Host) (cb : RmcCtrlBlock) : PoolEvent → Prop
  | .branch (.ipc i) => 0 < (i.len.limit sizeofLong).ret →
      (cb.bufsize : Int) < ipcLen h i cb ∨ (sizeofHdr : Int) + ipcLen h i cb ≤ nextSize cb
  | _ => True

/-- If a message of the client is read, it is longer than `bufsize` or at
most `n` bytes long. -/
def LongOrShort (n : Nat) (h : Host) (cb : RmcCtrlBlock) : PoolEvent → Prop
  | .branch (.ipc i) => 0 < (i.len.limit sizeofLong).ret →
      (cb.bufsize : Int) < ipcLen h i cb ∨ ipcLen h i cb ≤ n
  | _ => True

/-! ## Sizes along a run -/

theorem SizesIn.purge (hs : SizesIn P cb) (bound : UInt32) : SizesIn P (purge bound cb) := by
  obtain ⟨o, b, s, hframe⟩ := purge_frame bound cb
  rw [hframe]
  exact ⟨hs.bufsize, hs.size⟩

theorem hbeatFill_size (h : Host) (self : RmcMember) (hname : Option (List UInt8))
    (acks : Option (List (UInt32 × UInt32))) (pgback : Option (List UInt8)) (flags : UInt16)
    (m : RmcMsg) : (hbeatFill h self hname acks pgback flags m).1.size = m.size := by
  unfold hbeatFill
  cases hname <;> cases acks <;> cases pgback <;> dsimp only <;> (try split) <;> rfl

theorem SizesIn.hbeatBranch (hs : SizesIn P cb) (hb : hbeatBranch h cb = some cb') :
    SizesIn P cb' := by
  unfold V01.hbeatBranch sendHbeat at hb
  obtain ⟨r, hr, rfl⟩ := Option.map_eq_some_iff.mp hb
  obtain ⟨⟨q, hq⟩, -⟩ := hbeatAckPart_spec hr
  have halloc : SizesIn P r.1 := by
    rw [hq]
    exact ⟨hs.allocMsg.bufsize, hs.allocMsg.size⟩
  have hemit := halloc.setMsg (hbeatFill_size h r.1.self (some cb.hostname) r.2 none 0
    (r.1.msgs (V01.allocMsg cb).2))
  refine SizesIn.purge ?_ _
  exact ⟨hemit.bufsize, hemit.size⟩

theorem SizesIn.growMsg (hs : SizesIn P cb) {n : Int} (p : Nat)
    (hgrow : (cb.bufsize : Int) < n → P (n.toNat * 3 / 2)) : SizesIn P (growMsg n p cb) := by
  unfold V01.growMsg
  split
  · rename_i hlong
    refine ⟨hgrow hlong, fun q hq => ?_⟩
    by_cases hqp : q = p
    · subst hqp
      simp only [RmcCtrlBlock.setMsg, Function.update_self]
      exact hgrow hlong
    · simp only [RmcCtrlBlock.setMsg, Function.update_of_ne hqp]
      exact hs.size q hq
  · exact hs

theorem allocMsg_bufsize (cb : RmcCtrlBlock) : (allocMsg cb).1.bufsize = cb.bufsize := by
  obtain ⟨b, n, f, halloc⟩ := allocMsg_eq cb
  rw [halloc]

theorem SizesIn.ipcRecv (hs : SizesIn P cb) (i : IpcInput)
    (hgrow : ∀ n : Nat, cb.bufsize < n → P (n * 3 / 2)) : SizesIn P (ipcRecv h i cb).1 := by
  have hs₀ : SizesIn P { cb with ipcRead := ipcLenMem i cb } := ⟨hs.bufsize, hs.size⟩
  have hgrown : SizesIn P (V01.growMsg (ipcLen h i cb)
      (V01.allocMsg { cb with ipcRead := ipcLenMem i cb }).2
      (V01.allocMsg { cb with ipcRead := ipcLenMem i cb }).1) := by
    refine hs₀.allocMsg.growMsg _ fun hlong => hgrow _ ?_
    rw [allocMsg_bufsize] at hlong
    dsimp only at hlong
    omega
  exact hgrown.setMsg rfl

theorem SizesIn.ipcSend (hs : SizesIn P cb) (sendto ipcRead : Int) (p : Nat) :
    SizesIn P (ipcSend h sendto ipcRead p cb) := by
  have hsend := hs.setMsg (p := p) (m := dataFill h cb.self ipcRead (cb.msgs p)) rfl
  unfold V01.ipcSend
  dsimp only
  split
  · exact ⟨hsend.bufsize, hsend.size⟩
  · exact ⟨hsend.bufsize, hsend.size⟩

theorem SizesIn.ipcBranch (hs : SizesIn P cb) (i : IpcInput)
    (hgrow : ∀ n : Nat, cb.bufsize < n → P (n * 3 / 2)) : SizesIn P (ipcBranch h i cb) := by
  have hrecv : SizesIn P (V01.ipcRecv h i cb).1 := hs.ipcRecv i hgrow
  unfold V01.ipcBranch
  split
  · dsimp only
    split
    · exact hrecv.ipcSend i.sendto (ipcLen h i cb) (V01.ipcRecv h i cb).2
    · exact hrecv
  · exact ⟨hs.bufsize, hs.size⟩

/-- What every event keeps: the ledger of buffers, and no buffer smaller
than the first ones. -/
structure Stocked (n : Nat) (cb : RmcCtrlBlock) : Prop where
  owned : ∃ hand, Owned cb hand
  sizes : SizesIn (n ≤ ·) cb

theorem Stocked.branch {n : Nat} {b : Branch} (hs : Stocked n cb)
    (hb : branch h cb b = some cb') : Stocked n cb' := by
  obtain ⟨⟨hand, hown⟩, hsizes⟩ := hs
  refine ⟨owned_branch hown hb, ?_⟩
  cases b with
  | mcast sender r =>
    obtain ⟨⟨cb₁, flag⟩, hm, rfl⟩ := Option.map_eq_some_iff.mp hb
    exact hsizes.mcastBranch hm
  | ipc i =>
    obtain rfl := Option.some.inj hb
    refine hsizes.ipcBranch i fun k hk => ?_
    have hmin : n ≤ cb.bufsize := hsizes.bufsize
    omega
  | hbeat => exact hsizes.hbeatBranch hb
  | ack =>
    obtain ⟨q, sync, o, b, s, rfl⟩ := ackBranch_eq hb
    exact ⟨hsizes.bufsize, hsizes.size⟩

theorem Stocked.recycle {n : Nat} {e : PoolEvent} (hs : Stocked n cb)
    (hstep : recycle h cb e = some cb') : Stocked n cb' := by
  cases e with
  | branch b => exact hs.branch hstep
  | reorder pool =>
    obtain ⟨⟨hand, hown⟩, hsizes⟩ := hs
    simp only [V01.recycle] at hstep
    split at hstep
    · rename_i hperm
      obtain rfl := Option.some.inj hstep
      refine ⟨⟨hand, hown.registered, ?_⟩, hsizes.bufsize, hsizes.size⟩
      exact ((hperm.append_right _).append_right _).trans hown.ledger
    · cases hstep

theorem stocked_rmcastInit (g : Garbage) (a : InitArgs) :
    Stocked ((max 128 a.maxMsgSize).toNat + sizeofHdr) (rmcastInit g a) := by
  have hsizes := roomy_rmcastInit g a
  exact ⟨⟨[], owned_rmcastInit g a⟩, hsizes.bufsize, hsizes.size⟩

/-! ## The buffer of a message -/

theorem nextSize_le {n : Nat} (hs : Stocked n cb) : n ≤ nextSize cb := by
  obtain ⟨⟨hand, hown⟩, hsizes⟩ := hs
  exact hsizes.allocMsg.size _ hown.allocMsg_lt

theorem growMsg_size (n : Int) (p : Nat) (cb : RmcCtrlBlock) :
    ((growMsg n p cb).msgs p).size
      = if (cb.bufsize : Int) < n then n.toNat * 3 / 2 else (cb.msgs p).size := by
  unfold growMsg
  split
  · rw [RmcCtrlBlock.setMsg_self]
  · rfl

theorem chosenSize_eq (h : Host) (i : IpcInput) (cb : RmcCtrlBlock) :
    chosenSize h i cb
      = if (cb.bufsize : Int) < ipcLen h i cb then (ipcLen h i cb).toNat * 3 / 2
        else nextSize cb := by
  have hnext : nextSize { cb with ipcRead := ipcLenMem i cb } = nextSize cb := by
    unfold nextSize allocMsg
    dsimp only
    split <;> rfl
  have hchosen : chosenSize h i cb
      = ((growMsg (ipcLen h i cb) (allocMsg { cb with ipcRead := ipcLenMem i cb }).2
          (allocMsg { cb with ipcRead := ipcLenMem i cb }).1).msgs
            (allocMsg { cb with ipcRead := ipcLenMem i cb }).2).size := by
    unfold chosenSize ipcRecv
    simp only [RmcCtrlBlock.setMsg_self]
    rfl
  rw [hchosen, growMsg_size, allocMsg_bufsize, ← hnext]
  rfl

/-- **Room for the payload.** In every run, with the pool in any order,
every message of the client that is read fits its buffer, exactly if each
is longer than `bufsize` or fits the buffer that comes out of the pool.
Payloads of at most `max_msg_size` bytes fit in any case. -/
theorem payload_fits_iff (h : Host) (g : Garbage) (a : InitArgs) (es : List PoolEvent) :
    (Guarded (recycle h) (PayloadFits h) (rmcastInit g a) es
      ↔ Guarded (recycle h) (LongOrFits h) (rmcastInit g a) es)
    ∧ (Guarded (recycle h) (LongOrShort (max 128 a.maxMsgSize).toNat h) (rmcastInit g a) es
      → Guarded (recycle h) (PayloadFits h) (rmcastInit g a) es) := by
  have hhdr : sizeofHdr = 12 := rfl
  have hstock := stocked_rmcastInit g a
  generalize hn : (max 128 a.maxMsgSize).toNat = n at hstock ⊢
  have hmin : 128 ≤ n := by omega
  -- a message beyond `bufsize` is long enough for the half it grows by to cover the header
  have hone : ∀ cb e, Stocked (n + sizeofHdr) cb → (PayloadFits h cb e ↔ LongOrFits h cb e) := by
    intro cb e hs
    have hbuf : n + sizeofHdr ≤ cb.bufsize := hs.sizes.bufsize
    cases e with
    | reorder pool => exact Iff.rfl
    | branch b =>
      cases b with
      | ipc i =>
        simp only [PayloadFits, LongOrFits, chosenSize_eq]
        split
        · rename_i hlong
          simp only [hlong, true_or, implies_true, iff_true]
          omega
        · rename_i hshort
          simp only [hshort, false_or]
      | mcast sender r => exact Iff.rfl
      | hbeat => exact Iff.rfl
      | ack => exact Iff.rfl
  have hkeep : ∀ cb e cb', Stocked (n + sizeofHdr) cb → recycle h cb e = some cb' →
      Stocked (n + sizeofHdr) cb' := fun cb e cb' hs hstep => hs.recycle hstep
  constructor
  · refine guarded_congr (I := Stocked (n + sizeofHdr)) (fun cb e _ hs _ _ => hone cb e hs)
      (fun cb e cb' hs _ _ hstep => hkeep cb e cb' hs hstep) hstock
      (guarded_of_forall (fun _ _ => trivial) es _)
  · intro hshort
    refine (guarded_congr (I := Stocked (n + sizeofHdr)) (fun cb e _ hs hlen _ => ?_)
      (fun cb e cb' hs _ _ hstep => hkeep cb e cb' hs hstep) hstock hshort).mpr
      (guarded_of_forall (fun _ _ => trivial) es _)
    simp only [iff_true]
    rw [hone cb e hs]
    have hroom := nextSize_le hs
    cases e with
    | reorder pool => trivial
    | branch b =>
      cases b with
      | ipc i =>
        intro hread
        rcases hlen hread with hlong | hle
        · exact .inl hlong
        · right
          omega
      | mcast sender r => trivial
      | hbeat => trivial
      | ack => trivial

/-- The client sends this many zero bytes. -/
def sends (n : Nat) : PoolEvent := .branch (.ipc (.whole .little (List.replicate n 0)))

/-- With buffers of 128 + 12 bytes, 129 bytes do not fit. And after 200
bytes, for which a buffer grew, 250 bytes are read into one that did not. -/
theorem payload_fits_fails :
    ¬ PayloadFits littleHost (rmcastInit zeroGarbage plainArgs) (sends 129)
      ∧ ∃ cb, run (recycle littleHost) (rmcastInit zeroGarbage plainArgs) [sends 200] = some cb
        ∧ ¬ PayloadFits littleHost cb (sends 250) := by
  have hfirst : ((0 : Int) < ((IpcInput.whole .little (List.replicate 129 0)).len.limit
        sizeofLong).ret)
      ∧ chosenSize littleHost (.whole .little (List.replicate 129 0))
        (rmcastInit zeroGarbage plainArgs) = 140
      ∧ ipcLen littleHost (.whole .little (List.replicate 129 0))
        (rmcastInit zeroGarbage plainArgs) = 129 := by decide +kernel
  have hrun : (run (recycle littleHost) (rmcastInit zeroGarbage plainArgs) [sends 200]).map
      (fun cb => (decide ((0 : Int) < ((IpcInput.whole .little (List.replicate 250 0)).len.limit
          sizeofLong).ret),
        chosenSize littleHost (.whole .little (List.replicate 250 0)) cb,
        ipcLen littleHost (.whole .little (List.replicate 250 0)) cb))
      = some (true, 140, 250) := by decide +kernel
  obtain ⟨cb, hcb, heq⟩ := Option.map_eq_some_iff.mp hrun
  simp only [Prod.mk.injEq, decide_eq_true_eq] at heq
  have hhdr : (sizeofHdr : Int) = 12 := rfl
  refine ⟨fun hfits => ?_, cb, hcb, fun hfits => ?_⟩
  · have hle := hfits hfirst.1
    rw [hfirst.2.1, hfirst.2.2] at hle
    omega
  · have hle := hfits heq.1
    rw [heq.2.1, heq.2.2] at hle
    omega

end Rms.V01
