/-
Rms.V01.DaemonTheorems — what the handlers leave alone.

The daemon of one node is a sender and a receiver at once. The datagram
switch works on the receiver's half: members, their caches, the client's
stream. `SameSender` says that the sender's half did not move, and every
case of the switch has it (`sameSender_mcastBranch`).

A handler writes only into the buffer it was given and into buffers it
takes from the pool. A buffer that is `InUse` (created, and not free)
therefore keeps its bytes while a datagram is handled
(`mcastBranch_msgs`); this is what makes a message stored for later
readable later.
-/
import Rms.V01.Daemon

namespace Rms.V01

open Rms.ByteMem Rms.Util

/-! ## The sender's half -/

/-- A datagram for the group. -/
def toGroup (x : Sendto) : Bool := x.dest == .mcast

/-- Everything that numbering, sending and keeping messages depends on, and
what the group was sent. -/
structure SameSender (cb cb' : RmcCtrlBlock) : Prop where
  outmsgbuf : cb'.outmsgbuf = cb.outmsgbuf
  oldestSeq : cb'.oldestSeq = cb.oldestSeq
  hbSeqP1 : cb'.hbSeqP1 = cb.hbSeqP1
  hbSeqP2 : cb'.hbSeqP2 = cb.hbSeqP2
  hbSeqP3 : cb'.hbSeqP3 = cb.hbSeqP3
  hbAck : cb'.hbAck = cb.hbAck
  hostname : cb'.hostname = cb.hostname
  ipcRead : cb'.ipcRead = cb.ipcRead
  sequence : cb'.self.sequence = cb.self.sequence
  sequenceSync : cb'.self.sequenceSync = cb.self.sequenceSync
  id : cb'.self.id = cb.self.id
  session : cb'.self.session = cb.self.session
  group : cb'.sent.filter toGroup = cb.sent.filter toGroup

theorem SameSender.refl (cb : RmcCtrlBlock) : SameSender cb cb := by
  constructor <;> rfl

theorem SameSender.trans {a b c : RmcCtrlBlock} (h₁ : SameSender a b) (h₂ : SameSender b c) :
    SameSender a c where
  outmsgbuf := h₂.outmsgbuf.trans h₁.outmsgbuf
  oldestSeq := h₂.oldestSeq.trans h₁.oldestSeq
  hbSeqP1 := h₂.hbSeqP1.trans h₁.hbSeqP1
  hbSeqP2 := h₂.hbSeqP2.trans h₁.hbSeqP2
  hbSeqP3 := h₂.hbSeqP3.trans h₁.hbSeqP3
  hbAck := h₂.hbAck.trans h₁.hbAck
  hostname := h₂.hostname.trans h₁.hostname
  ipcRead := h₂.ipcRead.trans h₁.ipcRead
  sequence := h₂.sequence.trans h₁.sequence
  sequenceSync := h₂.sequenceSync.trans h₁.sequenceSync
  id := h₂.id.trans h₁.id
  session := h₂.session.trans h₁.session
  group := h₂.group.trans h₁.group

/-- All that `alloc_msg` can write. -/
theorem allocMsg_eq (cb : RmcCtrlBlock) :
    ∃ b n f, (allocMsg cb).1 = { cb with bufmsgq := b, nmsgs := n, msgs := f } := by
  unfold allocMsg
  split <;> exact ⟨_, _, _, rfl⟩

theorem sameSender_allocMsg (cb : RmcCtrlBlock) : SameSender cb (allocMsg cb).1 := by
  unfold allocMsg
  split <;> constructor <;> rfl

theorem sameSender_releaseMsg (cb : RmcCtrlBlock) (p : Nat) : SameSender cb (releaseMsg cb p) := by
  constructor <;> rfl

theorem filter_unicast (sent : List Sendto) (addr : UInt32) (bytes : List UInt8) (failed : Bool) :
    (sent ++ [(⟨.ucast addr, bytes, failed⟩ : Sendto)]).filter toGroup = sent.filter toGroup := by
  simp [toGroup]

theorem sameSender_sendNack (h : Host) (mp p : Nat) (cb : RmcCtrlBlock) :
    SameSender cb (sendNack h mp p cb) := by
  constructor
  case group => exact filter_unicast _ _ _ _
  all_goals rfl

theorem sameSender_releaseCached (h : Host) (mp n : Nat) :
    ∀ cb : RmcCtrlBlock, SameSender cb (releaseCached h mp n cb) := by
  induction n with
  | zero => exact SameSender.refl
  | succ n ih =>
    intro cb
    simp only [releaseCached]
    split
    · exact SameSender.refl cb
    · refine SameSender.trans ?_ (ih _)
      constructor <;> rfl

theorem sameSender_dataAhead (h : Host) (mp p : Nat) (cb : RmcCtrlBlock) :
    SameSender cb (dataAhead h mp p cb) := by
  refine SameSender.trans ?_ (sameSender_releaseMsg _ _)
  refine SameSender.trans ?_ (sameSender_sendNack _ _ _ _)
  refine SameSender.trans ?_ (sameSender_allocMsg _)
  constructor <;> rfl

theorem sameSender_dataMsg (h : Host) (sender : SockaddrIn) (p : Nat) (cb : RmcCtrlBlock) :
    SameSender cb (dataMsg h sender p cb) := by
  unfold dataMsg
  split
  · exact sameSender_releaseMsg cb p
  · split
    · split
      · exact sameSender_dataAhead _ _ _ _
      · exact sameSender_releaseMsg cb p
    · refine SameSender.trans ?_ (sameSender_releaseCached h _ _ _)
      constructor <;> rfl

theorem sameSender_hbeatMember (h : Host) (p : Nat) (cb : RmcCtrlBlock) :
    SameSender cb (hbeatMember h p cb).1 := by
  unfold hbeatMember
  split
  · constructor <;> rfl
  · split
    · constructor <;> rfl
    · exact SameSender.refl cb

theorem sameSender_hbeatGap (h : Host) (mp p : Nat) (cb : RmcCtrlBlock) :
    SameSender cb (hbeatGap h mp p cb) := by
  unfold hbeatGap
  split
  · split
    · exact sameSender_sendNack _ _ _ _
    · exact SameSender.refl cb
  · exact SameSender.refl cb

theorem sameSender_hbeatMsg (h : Host) (p : Nat) (cb : RmcCtrlBlock) :
    SameSender cb (hbeatMsg h p cb) := by
  refine SameSender.trans ?_ (sameSender_releaseMsg _ _)
  refine SameSender.trans ?_ (sameSender_hbeatGap _ _ _ _)
  refine SameSender.trans (b := cb.setMsg p (hbeatDecode h.endian (cb.msgs p))) ?_ ?_
  · constructor <;> rfl
  · refine SameSender.trans (sameSender_hbeatMember h p _) ?_
    constructor <;> rfl

theorem sameSender_nackLoop (h : Host) (p n : Nat) :
    ∀ (itr : Nat) (cb : RmcCtrlBlock), SameSender cb (nackLoop h p n itr cb) := by
  induction n with
  | zero => intro _ cb; exact SameSender.refl cb
  | succ n ih =>
    intro itr cb
    simp only [nackLoop]
    refine SameSender.trans ?_ (ih _ _)
    split
    · constructor
      case group => exact filter_unicast _ _ _ _
      all_goals rfl
    · constructor <;> rfl

theorem sameSender_nackMsg (h : Host) (p : Nat) (cb : RmcCtrlBlock) :
    SameSender cb (nackMsg h p cb) := by
  refine SameSender.trans ?_ (sameSender_nackLoop h p _ _ _)
  constructor <;> rfl

/-- The drain moves buffers from one member's cache to the pool: the keys
listed leave the cache, and nothing else changes. -/
theorem drainUnseq_frame (mp : Nat) (keys : List UInt32) :
    ∀ cb : RmcCtrlBlock, ∃ buf t, drainUnseq mp keys cb
        = { cb with bufmsgq := buf
                    mems := Function.update cb.mems mp { cb.mems mp with unseqMsgs := t } }
      ∧ ∀ k, htblGet t k = if k ∈ keys then none else htblGet (cb.mems mp).unseqMsgs k := by
  induction keys with
  | nil =>
    intro cb
    refine ⟨cb.bufmsgq, (cb.mems mp).unseqMsgs, ?_, fun k => by simp⟩
    rw [Function.update_eq_self mp cb.mems]
    rfl
  | cons key keys ih =>
    intro cb
    simp only [drainUnseq]
    split
    · rename_i p t heq
      obtain ⟨-, rfl⟩ := htblRemove_eq_some.mp heq
      obtain ⟨buf, t, hdrain, hget⟩ := ih (releaseMsg (cb.setMem mp { cb.mems mp with
        unseqMsgs := (cb.mems mp).unseqMsgs.erase key }) p)
      refine ⟨buf, t, ?_, ?_⟩
      · rw [hdrain]
        simp only [releaseMsg, RmcCtrlBlock.setMem, Function.update_idem, Function.update_self]
      · intro k
        rw [hget, ← htblGet_erase_others]
        simp only [releaseMsg, RmcCtrlBlock.setMem, Function.update_self]
    · rename_i heq
      have hnone := htblRemove_eq_none.mp heq
      obtain ⟨buf, t, hdrain, hget⟩ := ih cb
      exact ⟨buf, t, hdrain, fun k => (hget k).trans (htblGet_others hnone keys k)⟩

/-- A LEAVE moves buffers and takes a member out of the registry. -/
theorem leaveMsg_frame (h : Host) (p : Nat) {cb cb' : RmcCtrlBlock}
    (hl : leaveMsg h p cb = some cb') :
    ∃ buf mems t q freed, cb' = { cb with
      bufmsgq := buf, mems := mems, members := t, membersq := q, freed := freed } := by
  unfold leaveMsg at hl
  split at hl
  · obtain rfl := Option.some.inj hl
    exact ⟨_, _, _, _, _, rfl⟩
  · rename_i mp t _
    obtain ⟨buf, unseqMsgs, hdrain, -⟩ := drainUnseq_frame mp
      (htblEnumIntKeys (cb.mems mp).unseqMsgs (htblCount (cb.mems mp).unseqMsgs))
      { cb with members := t }
    simp only [hdrain] at hl
    split at hl
    · simp at hl
    · obtain rfl := Option.some.inj hl
      exact ⟨_, _, _, _, _, rfl⟩

theorem sameSender_leaveMsg (h : Host) (p : Nat) {cb cb' : RmcCtrlBlock}
    (hl : leaveMsg h p cb = some cb') : SameSender cb cb' := by
  obtain ⟨buf, mems, t, q, freed, rfl⟩ := leaveMsg_frame h p hl
  constructor <;> rfl

theorem sameSender_dispatch (h : Host) (sender : SockaddrIn) (p : Nat) {cb cb' : RmcCtrlBlock}
    (hd : dispatch h sender p cb = some cb') : SameSender cb cb' := by
  unfold dispatch at hd
  split at hd
  · exact Option.some.inj hd ▸ sameSender_dataMsg h sender p cb
  · exact Option.some.inj hd ▸ sameSender_hbeatMsg h p cb
  · exact Option.some.inj hd ▸ sameSender_nackMsg h p cb
  · exact sameSender_leaveMsg h p hd
  · exact Option.some.inj hd ▸ sameSender_releaseMsg cb p

theorem sameSender_recvMsg (r : RecvResult) (cb : RmcCtrlBlock) :
    SameSender cb (recvMsg r cb).1 := by
  refine SameSender.trans (sameSender_allocMsg cb) ?_
  constructor <;> rfl

/-- What a step of the datagram branch can be. -/
theorem mcastBranch_cases (h : Host) (sender : SockaddrIn) (r : RecvResult)
    {cb cb' : RmcCtrlBlock} {flag : Bool} (hb : mcastBranch h sender r cb = some (cb', flag)) :
    ((recvMsg r cb).2.2 < sizeofHdr ∧ flag = true
        ∧ cb' = releaseMsg (recvMsg r cb).1 (recvMsg r cb).2.1)
    ∨ (¬ (recvMsg r cb).2.2 < sizeofHdr
        ∧ ∃ cb₁ p, p = (recvMsg r cb).2.1
          ∧ cb₁ = (recvMsg r cb).1.setMsg p (hdrDecode h.endian ((recvMsg r cb).1.msgs p))
          ∧ (((recvMsg r cb).2.2 < ((cb₁.msgs p).hdrLength h.endian).toNat + sizeofHdr
                ∧ flag = true ∧ cb' = cb₁)
            ∨ (¬ (recvMsg r cb).2.2 < ((cb₁.msgs p).hdrLength h.endian).toNat + sizeofHdr
                ∧ flag = false ∧ dispatch h sender p cb₁ = some cb'))) := by
  unfold mcastBranch at hb
  simp only at hb
  split at hb
  · rename_i hshort
    simp only [Option.some.injEq, Prod.mk.injEq] at hb
    exact .inl ⟨hshort, hb.2.symm, hb.1.symm⟩
  · rename_i hlong
    refine .inr ⟨hlong, _, _, rfl, rfl, ?_⟩
    split at hb
    · rename_i hshort
      simp only [Option.some.injEq, Prod.mk.injEq] at hb
      exact .inl ⟨hshort, hb.2.symm, hb.1.symm⟩
    · rename_i hlong'
      obtain ⟨cb₂, hd, heq⟩ := Option.map_eq_some_iff.mp hb
      simp only [Prod.mk.injEq] at heq
      exact .inr ⟨hlong', heq.2.symm, heq.1 ▸ hd⟩

/-- Handling a datagram leaves the sender's half alone. -/
theorem sameSender_mcastBranch (h : Host) (sender : SockaddrIn) (r : RecvResult)
    {cb cb' : RmcCtrlBlock} {flag : Bool} (hb : mcastBranch h sender r cb = some (cb', flag)) :
    SameSender cb cb' := by
  have hr := sameSender_recvMsg r cb
  rcases mcastBranch_cases h sender r hb with
    ⟨-, -, rfl⟩ | ⟨-, cb₁, p, -, rfl, ⟨-, -, rfl⟩ | ⟨-, -, hd⟩⟩
  · exact hr.trans (sameSender_releaseMsg _ _)
  · exact hr.trans (by constructor <;> rfl)
  · refine hr.trans (SameSender.trans ?_ (sameSender_dispatch h sender p hd))
    constructor <;> rfl

/-! ## Buffers in use -/

/-- A buffer that was created and is not free. -/
def InUse (cb : RmcCtrlBlock) (q : Nat) : Prop := q < cb.nmsgs ∧ q ∉ cb.bufmsgq

theorem allocMsg_ne {cb : RmcCtrlBlock} {q : Nat} (hq : InUse cb q) : q ≠ (allocMsg cb).2 := by
  obtain ⟨hlt, hnot⟩ := hq
  unfold allocMsg
  split
  · rename_i p rest heq
    intro he
    exact hnot (by rw [heq, he]; exact List.mem_cons_self ..)
  · exact Nat.ne_of_lt hlt

theorem allocMsg_msgs {cb : RmcCtrlBlock} {q : Nat} (hq : InUse cb q) :
    (allocMsg cb).1.msgs q = cb.msgs q := by
  have hne := allocMsg_ne hq
  unfold allocMsg at hne ⊢
  split
  · rfl
  · rename_i heq
    rw [heq] at hne
    exact Function.update_of_ne hne _ _

theorem inUse_allocMsg {cb : RmcCtrlBlock} {q : Nat} (hq : InUse cb q) :
    InUse (allocMsg cb).1 q := by
  obtain ⟨hlt, hnot⟩ := hq
  unfold allocMsg
  split
  · rename_i p rest heq
    rw [heq] at hnot
    exact ⟨hlt, fun h => hnot (List.mem_cons_of_mem p h)⟩
  · exact ⟨Nat.lt_succ_of_lt hlt, hnot⟩

theorem sendNack_msgs (h : Host) (mp : Nat) {p q : Nat} (cb : RmcCtrlBlock) (hne : q ≠ p) :
    (sendNack h mp p cb).msgs q = cb.msgs q :=
  Function.update_of_ne hne _ _

theorem releaseCached_msgs (h : Host) (mp n : Nat) :
    ∀ cb : RmcCtrlBlock, (releaseCached h mp n cb).msgs = cb.msgs := by
  induction n with
  | zero => intro cb; rfl
  | succ n ih =>
    intro cb
    simp only [releaseCached]
    split
    · rfl
    · rw [ih]
      rfl

theorem dataAhead_msgs (h : Host) (mp p : Nat) {q : Nat} {cb : RmcCtrlBlock} (hq : InUse cb q) :
    (dataAhead h mp p cb).msgs q = cb.msgs q := by
  have hq' : InUse (cacheMsg h mp p cb) q := hq
  exact (sendNack_msgs h mp _ (allocMsg_ne hq')).trans (allocMsg_msgs hq')

theorem dataMsg_msgs (h : Host) (sender : SockaddrIn) {p q : Nat} {cb : RmcCtrlBlock}
    (hq : InUse cb q) : (dataMsg h sender p cb).msgs q = cb.msgs q := by
  unfold dataMsg
  split
  · rfl
  · rename_i mp _
    split
    · split
      · exact dataAhead_msgs h mp p hq
      · rfl
    · exact congrFun (releaseCached_msgs h mp _ _) q

theorem hbeatMember_msgs (h : Host) (p : Nat) (cb : RmcCtrlBlock) :
    (hbeatMember h p cb).1.msgs = cb.msgs := by
  unfold hbeatMember
  split
  · rfl
  · split <;> rfl

theorem hbeatMsg_msgs (h : Host) {p q : Nat} (cb : RmcCtrlBlock) (hne : q ≠ p) :
    (hbeatMsg h p cb).msgs q = cb.msgs q := by
  have hgap : ∀ (mp : Nat) (cb : RmcCtrlBlock), (hbeatGap h mp p cb).msgs q = cb.msgs q := by
    intro mp cb
    unfold hbeatGap
    split
    · split
      · exact sendNack_msgs h mp cb hne
      · rfl
    · rfl
  refine (hgap _ _).trans ((Function.update_of_ne hne _ _).trans ?_)
  exact (congrFun (hbeatMember_msgs h p _) q).trans (Function.update_of_ne hne _ _)

theorem nackLoop_msgs (h : Host) {p q : Nat} (hne : q ≠ p) (n : Nat) :
    ∀ (itr : Nat) (cb : RmcCtrlBlock), (nackLoop h p n itr cb).msgs q = cb.msgs q := by
  induction n with
  | zero => intro _ _; rfl
  | succ n ih =>
    intro itr cb
    simp only [nackLoop]
    rw [ih]
    split <;> exact Function.update_of_ne hne _ _

theorem leaveMsg_msgs (h : Host) (p : Nat) {cb cb' : RmcCtrlBlock}
    (hl : leaveMsg h p cb = some cb') : cb'.msgs = cb.msgs := by
  obtain ⟨buf, mems, t, q, freed, rfl⟩ := leaveMsg_frame h p hl
  rfl

theorem dispatch_msgs (h : Host) (sender : SockaddrIn) {p q : Nat} {cb cb' : RmcCtrlBlock}
    (hq : InUse cb q) (hne : q ≠ p) (hd : dispatch h sender p cb = some cb') :
    cb'.msgs q = cb.msgs q := by
  unfold dispatch at hd
  split at hd
  · exact Option.some.inj hd ▸ dataMsg_msgs h sender hq
  · exact Option.some.inj hd ▸ hbeatMsg_msgs h cb hne
  · exact Option.some.inj hd ▸ nackLoop_msgs h hne _ _ _
  · rw [leaveMsg_msgs h p hd]
  · exact Option.some.inj hd ▸ rfl

/-- Handling a datagram keeps the bytes of every buffer in use. -/
theorem mcastBranch_msgs (h : Host) (sender : SockaddrIn) (r : RecvResult)
    {cb cb' : RmcCtrlBlock} {flag : Bool} {q : Nat} (hq : InUse cb q)
    (hb : mcastBranch h sender r cb = some (cb', flag)) : cb'.msgs q = cb.msgs q := by
  have hne := allocMsg_ne hq
  have hrecv : (recvMsg r cb).1.msgs q = cb.msgs q :=
    (Function.update_of_ne hne _ _).trans (allocMsg_msgs hq)
  rcases mcastBranch_cases h sender r hb with
    ⟨-, -, rfl⟩ | ⟨-, cb₁, p, rfl, rfl, ⟨-, -, rfl⟩ | ⟨-, -, hd⟩⟩
  · exact hrecv
  · exact (Function.update_of_ne hne _ _).trans hrecv
  · have hq' : InUse ((recvMsg r cb).1.setMsg (recvMsg r cb).2.1
        (hdrDecode h.endian ((recvMsg r cb).1.msgs (recvMsg r cb).2.1))) q := inUse_allocMsg hq
    exact (dispatch_msgs h sender hq' hne hd).trans
      ((Function.update_of_ne hne _ _).trans hrecv)

/-! ## Initialisation -/

/-- Filling the pool touches nothing else. -/
theorem fillPool_eq (k : Nat) :
    ∀ cb : RmcCtrlBlock,
      ∃ b n f, fillPool k cb = { cb with bufmsgq := b, nmsgs := n, msgs := f } := by
  induction k with
  | zero =>
    intro cb
    exact ⟨_, _, _, rfl⟩
  | succ k ih =>
    intro cb
    exact ih (releaseMsg (newMsg cb).1 (newMsg cb).2)

/-- What follows the switch: the branch for the client, the heartbeat and the
acks. -/
theorem afterMcast_eq (h : Host) (i : Iteration) (cb : RmcCtrlBlock) :
    afterMcast h i cb
      = (if i.hbeat then hbeatBranch h (i.ipc.elim cb fun x => ipcBranch h x cb)
          else some (i.ipc.elim cb fun x => ipcBranch h x cb)).bind ackBranch := by
  unfold afterMcast
  cases i.ipc with
  | none =>
    dsimp only [Option.elim_none]
    cases (if i.hbeat then hbeatBranch h cb else some cb) <;> rfl
  | some x =>
    dsimp only [Option.elim_some]
    cases (if i.hbeat then hbeatBranch h (ipcBranch h x cb) else some (ipcBranch h x cb)) <;> rfl

end Rms.V01
