/-
Rms.V01.RegistryTheorems — who joins and who leaves.

The members a node knows are in the table `members` and in the queue
`membersq`. Only two cases of the datagram switch touch them: the
heartbeat of an unknown peer registers it, and a LEAVE of a member takes
it out. `RegistryStep` says so for every datagram, and is what every
later argument about the registry starts from.
-/
import Rms.V01.HbeatTheorems
import Rms.Util.MqueueTheorems

namespace Rms.V01

open Rms.ByteMem Rms.Util

/-! ## Steps that leave the registry alone -/

structure SameRegistry (cb cb' : RmcCtrlBlock) : Prop where
  members : cb'.members = cb.members
  membersq : cb'.membersq = cb.membersq
  nmems : cb'.nmems = cb.nmems
  freed : cb'.freed = cb.freed

theorem SameRegistry.refl (cb : RmcCtrlBlock) : SameRegistry cb cb := ⟨rfl, rfl, rfl, rfl⟩

theorem SameRegistry.trans {a b c : RmcCtrlBlock} (h₁ : SameRegistry a b)
    (h₂ : SameRegistry b c) : SameRegistry a c where
  members := h₂.members.trans h₁.members
  membersq := h₂.membersq.trans h₁.membersq
  nmems := h₂.nmems.trans h₁.nmems
  freed := h₂.freed.trans h₁.freed

theorem sameRegistry_allocMsg (cb : RmcCtrlBlock) : SameRegistry cb (allocMsg cb).1 := by
  obtain ⟨b, n, f, halloc⟩ := allocMsg_eq cb
  rw [halloc]
  exact ⟨rfl, rfl, rfl, rfl⟩

theorem sameRegistry_releaseMsg (cb : RmcCtrlBlock) (p : Nat) :
    SameRegistry cb (releaseMsg cb p) := ⟨rfl, rfl, rfl, rfl⟩

theorem sameRegistry_sendNack (h : Host) (mp p : Nat) (cb : RmcCtrlBlock) :
    SameRegistry cb (sendNack h mp p cb) := ⟨rfl, rfl, rfl, rfl⟩

theorem sameRegistry_received (h : Host) (r : RecvResult) (cb : RmcCtrlBlock) :
    SameRegistry cb (received h r cb) :=
  (sameRegistry_allocMsg cb).trans ⟨rfl, rfl, rfl, rfl⟩

theorem sameRegistry_releaseCached (h : Host) (mp n : Nat) :
    ∀ cb : RmcCtrlBlock, SameRegistry cb (releaseCached h mp n cb) := by
  induction n with
  | zero => exact SameRegistry.refl
  | succ n ih =>
    intro cb
    simp only [releaseCached]
    split
    · exact SameRegistry.refl cb
    · refine SameRegistry.trans ?_ (ih _)
      exact ⟨rfl, rfl, rfl, rfl⟩

theorem sameRegistry_dataAhead (h : Host) (mp p : Nat) (cb : RmcCtrlBlock) :
    SameRegistry cb (dataAhead h mp p cb) := by
  have hcache : SameRegistry cb (cacheMsg h mp p cb) := ⟨rfl, rfl, rfl, rfl⟩
  have halloc := sameRegistry_allocMsg (cacheMsg h mp p cb)
  have hnack := sameRegistry_sendNack h mp (allocMsg (cacheMsg h mp p cb)).2
    (allocMsg (cacheMsg h mp p cb)).1
  exact ((hcache.trans halloc).trans hnack).trans (sameRegistry_releaseMsg _ _)

theorem sameRegistry_dataMsg (h : Host) (sender : SockaddrIn) (p : Nat) (cb : RmcCtrlBlock) :
    SameRegistry cb (dataMsg h sender p cb) := by
  unfold dataMsg
  split
  · exact sameRegistry_releaseMsg cb p
  · split
    · split
      · exact sameRegistry_dataAhead _ _ _ _
      · exact sameRegistry_releaseMsg cb p
    · refine SameRegistry.trans ?_ (sameRegistry_releaseCached h _ _ _)
      exact ⟨rfl, rfl, rfl, rfl⟩

theorem sameRegistry_hbeatGap (h : Host) (mp p : Nat) (cb : RmcCtrlBlock) :
    SameRegistry cb (hbeatGap h mp p cb) := by
  unfold hbeatGap
  split
  · split
    · exact sameRegistry_sendNack h mp p cb
    · exact SameRegistry.refl cb
  · exact SameRegistry.refl cb

theorem sameRegistry_nackLoop (h : Host) (p n : Nat) :
    ∀ (itr : Nat) (cb : RmcCtrlBlock), SameRegistry cb (nackLoop h p n itr cb) := by
  induction n with
  | zero =>
    intro _ cb
    exact SameRegistry.refl cb
  | succ n ih =>
    intro itr cb
    simp only [nackLoop]
    refine SameRegistry.trans ?_ (ih _ _)
    split <;> exact ⟨rfl, rfl, rfl, rfl⟩

theorem sameRegistry_nackMsg (h : Host) (p : Nat) (cb : RmcCtrlBlock) :
    SameRegistry cb (nackMsg h p cb) := by
  refine SameRegistry.trans ?_ (sameRegistry_nackLoop h p _ _ _)
  exact ⟨rfl, rfl, rfl, rfl⟩

theorem sameRegistry_drainUnseq (mp : Nat) (keys : List UInt32) (cb : RmcCtrlBlock) :
    SameRegistry cb (drainUnseq mp keys cb) := by
  obtain ⟨buf, t, hdrain, -⟩ := drainUnseq_frame mp keys cb
  rw [hdrain]
  exact ⟨rfl, rfl, rfl, rfl⟩

/-! ## Every step -/

/-- What a datagram of type `t` from `id` can do to the registry. -/
inductive RegistryStep (t : Option MsgType) (id : UInt32) (cb cb' : RmcCtrlBlock) : Prop
  | same (hs : SameRegistry cb cb') (hleave : t = some .leave → htblGet cb.members id = none)
      (hhbeat : t = some .hbeat → ∃ mp, htblGet cb.members id = some mp)
  | join (ht : t = some .hbeat) (hnew : htblGet cb.members id = none)
      (hmembers : cb'.members = htblPut cb.members id cb.nmems)
      (hqueue : cb'.membersq = mqueueAdd cb.membersq cb.nmems)
      (hnmems : cb'.nmems = cb.nmems + 1) (hfreed : cb'.freed = cb.freed)
  | leave (mp : Nat) (r : Option (Option Nat)) (ht : t = some .leave)
      (hk : htblGet cb.members id = some mp) (hmembers : cb'.members = cb.members.erase id)
      (hqueue : mqueueRemoveItem cb.membersq mp = some (cb'.membersq, r))
      (hnmems : cb'.nmems = cb.nmems) (hfreed : cb'.freed = mp :: cb.freed)

theorem RegistryStep.before {t : Option MsgType} {id : UInt32} {cb₀ cb cb' : RmcCtrlBlock}
    (h₀ : SameRegistry cb₀ cb) (h : RegistryStep t id cb cb') : RegistryStep t id cb₀ cb' := by
  cases h with
  | same hs hleave hhbeat =>
    exact .same (h₀.trans hs) (h₀.members ▸ hleave) (h₀.members ▸ hhbeat)
  | join ht hnew hmembers hqueue hnmems hfreed =>
    rw [h₀.members] at hnew hmembers
    rw [h₀.nmems] at hmembers hqueue hnmems
    rw [h₀.membersq] at hqueue
    exact .join ht hnew hmembers hqueue hnmems (hfreed.trans h₀.freed)
  | leave mp r ht hk hmembers hqueue hnmems hfreed =>
    rw [h₀.members] at hk hmembers
    rw [h₀.membersq] at hqueue
    exact .leave mp r ht hk hmembers hqueue (hnmems.trans h₀.nmems) (h₀.freed ▸ hfreed)

theorem RegistryStep.after {t : Option MsgType} {id : UInt32} {cb cb' cb'' : RmcCtrlBlock}
    (h : RegistryStep t id cb cb') (h' : SameRegistry cb' cb'') : RegistryStep t id cb cb'' := by
  cases h with
  | same hs hleave hhbeat => exact .same (hs.trans h') hleave hhbeat
  | join ht hnew hmembers hqueue hnmems hfreed =>
    exact .join ht hnew (h'.members.trans hmembers) (h'.membersq.trans hqueue)
      (h'.nmems.trans hnmems) (h'.freed.trans hfreed)
  | leave mp r ht hk hmembers hqueue hnmems hfreed =>
    rw [← h'.membersq] at hqueue
    exact .leave mp r ht hk (h'.members.trans hmembers) hqueue (h'.nmems.trans hnmems)
      (h'.freed.trans hfreed)

theorem registryStep_hbeatMember (h : Host) (p : Nat) (cb : RmcCtrlBlock) :
    RegistryStep (some .hbeat) ((cb.msgs p).hdrId h.endian) cb (hbeatMember h p cb).1 := by
  have hsame : ∀ {cb' : RmcCtrlBlock} {mp : Nat}, SameRegistry cb cb' →
      htblGet cb.members ((cb.msgs p).hdrId h.endian) = some mp →
      RegistryStep (some .hbeat) ((cb.msgs p).hdrId h.endian) cb cb' :=
    fun hs hk => .same hs (fun ht => by cases ht) fun _ => ⟨_, hk⟩
  unfold hbeatMember
  split
  · rename_i hk
    exact .join rfl hk rfl rfl rfl rfl
  · rename_i mp hk
    split
    · exact hsame ⟨rfl, rfl, rfl, rfl⟩ hk
    · exact hsame (SameRegistry.refl cb) hk

theorem registryStep_hbeatMsg (h : Host) (p : Nat) (cb : RmcCtrlBlock) :
    RegistryStep (some .hbeat) ((cb.msgs p).hdrId h.endian) cb (hbeatMsg h p cb) := by
  have hrest : ∀ r : RmcCtrlBlock × Nat,
      SameRegistry r.1 (releaseMsg (hbeatGap h r.2 p (hbeatApply h p r)) p) := by
    intro r
    have happly : SameRegistry r.1 (hbeatApply h p r) := ⟨rfl, rfl, rfl, rfl⟩
    exact (happly.trans (sameRegistry_hbeatGap h r.2 p _)).trans (sameRegistry_releaseMsg _ p)
  have hdecode : SameRegistry cb (cb.setMsg p (hbeatDecode h.endian (cb.msgs p))) :=
    ⟨rfl, rfl, rfl, rfl⟩
  have hmember := registryStep_hbeatMember h p (cb.setMsg p (hbeatDecode h.endian (cb.msgs p)))
  rw [RmcCtrlBlock.setMsg_self, (hbeatDecode_header h.endian (cb.msgs p)).2.2] at hmember
  rw [hbeatMsg_eq]
  exact (hmember.before hdecode).after (hrest _)

theorem registryStep_leaveMsg {h : Host} {p : Nat} {cb cb' : RmcCtrlBlock}
    (hl : leaveMsg h p cb = some cb') :
    RegistryStep (some .leave) ((cb.msgs p).hdrId h.endian) cb cb' := by
  unfold leaveMsg at hl
  split at hl
  · rename_i hnone
    obtain rfl := Option.some.inj hl
    exact .same (SameRegistry.refl _) (fun _ => htblRemove_eq_none.mp hnone) fun ht => by cases ht
  · rename_i mp t hsome
    obtain ⟨hk, rfl⟩ := htblRemove_eq_some.mp hsome
    have hdrain := sameRegistry_drainUnseq mp (htblEnumIntKeys (cb.mems mp).unseqMsgs
      (htblCount (cb.mems mp).unseqMsgs))
      { cb with members := cb.members.erase ((cb.msgs p).hdrId h.endian) }
    simp only at hl
    split at hl
    · cases hl
    · rename_i q r hremove
      obtain rfl := Option.some.inj hl
      rw [hdrain.membersq] at hremove
      exact .leave mp r rfl hk hdrain.members hremove hdrain.nmems
        (congrArg (mp :: ·) hdrain.freed)

theorem registryStep_dispatch {h : Host} {sender : SockaddrIn} {p : Nat} {cb cb' : RmcCtrlBlock}
    (hd : dispatch h sender p cb = some cb') :
    RegistryStep (MsgType.ofByte (cb.msgs p).hdrType) ((cb.msgs p).hdrId h.endian) cb cb' := by
  have hother : ∀ {t : Option MsgType}, t ≠ some .leave → t ≠ some .hbeat →
      SameRegistry cb cb' → RegistryStep t ((cb.msgs p).hdrId h.endian) cb cb' :=
    fun hl hh hs => .same hs (fun ht => absurd ht hl) fun ht => absurd ht hh
  unfold dispatch at hd
  split at hd
  · rename_i ht
    obtain rfl := Option.some.inj hd
    rw [ht]
    exact hother (by decide) (by decide) (sameRegistry_dataMsg h sender p cb)
  · rename_i ht
    obtain rfl := Option.some.inj hd
    rw [ht]
    exact registryStep_hbeatMsg h p cb
  · rename_i ht
    obtain rfl := Option.some.inj hd
    rw [ht]
    exact hother (by decide) (by decide) (sameRegistry_nackMsg h p cb)
  · rename_i ht
    rw [ht]
    exact registryStep_leaveMsg hd
  · rename_i hdata hhbeat hnack hleave
    obtain rfl := Option.some.inj hd
    exact hother hleave hhbeat (sameRegistry_releaseMsg cb p)

/-- The type and the id of a datagram, as the switch sees them; `none` if it
is too short to get there. -/
def arrived (h : Host) (r : RecvResult) (cb : RmcCtrlBlock) :
    Option (Option MsgType × UInt32) :=
  let m := (received h r cb).msgs (recvMsg r cb).2.1
  if (recvMsg r cb).2.2 < sizeofHdr
      ∨ (recvMsg r cb).2.2 < (m.hdrLength h.endian).toNat + sizeofHdr then none
  else some (MsgType.ofByte m.hdrType, m.hdrId h.endian)

theorem registryStep_mcastBranch {h : Host} {sender : SockaddrIn} {r : RecvResult}
    {cb cb' : RmcCtrlBlock} {flag : Bool} (hb : mcastBranch h sender r cb = some (cb', flag)) :
    (arrived h r cb = none ∧ SameRegistry cb cb')
      ∨ ∃ t id, arrived h r cb = some (t, id) ∧ RegistryStep t id cb cb' := by
  have hrecv := sameRegistry_received h r cb
  rcases mcastBranch_cases h sender r hb with
    ⟨hshort, -, rfl⟩ | ⟨hlong, cb₁, p, rfl, rfl, ⟨hcut, -, rfl⟩ | ⟨hwhole, -, hd⟩⟩
  · refine .inl ⟨if_pos (.inl hshort), ?_⟩
    exact ⟨hrecv.members, hrecv.membersq, hrecv.nmems, hrecv.freed⟩
  · exact .inl ⟨if_pos (.inr hcut), hrecv⟩
  · refine .inr ⟨_, _, if_neg (not_or.mpr ⟨hlong, hwhole⟩), ?_⟩
    exact (registryStep_dispatch hd).before hrecv

end Rms.V01
