/-
Rms.V01.FramingTheorems — the stream from the daemon to its client.

The daemon writes two kinds of records on `ipc_sock`. A message in
sequence goes out behind a `struct ipc_metadata`; a message released from
the cache goes out behind a bare length. The client knows only the first
kind, so a released message takes the first bytes of what follows for the
rest of its head, and nothing behind it is read correctly any more.

`readsBack_iff` says that the client reads a stream back exactly when it
holds records of the first kind only: the bytes do not suffice otherwise.
`framing_iff` turns this into a condition on the run that wrote them.
-/
import Rms.V01.HbeatTheorems
import Rms.V01.SendTheorems
import Rms.V01.TruncationTheorems
import Rms.Lib.Runs

namespace Rms.V01

open Rms.ByteMem Rms.Util Rms.Runs

/-! ## Records -/

/-- The bytes of the records, one after the other. -/
def ipcStream (rs : List IpcRecord) : List UInt8 :=
  rs.flatMap fun r => r.head ++ r.payload

/-- A message behind a `struct ipc_metadata` that says its length. -/
structure Direct (e : Endian) (r : IpcRecord) : Prop where
  head : ∃ addr, r.head = ipcMetadata e (UInt32.ofNat r.payload.length) addr
  short : r.payload.length < 65536

/-- A message behind its length. -/
structure Released (e : Endian) (r : IpcRecord) : Prop where
  head : r.head = enc32 e (UInt32.ofNat r.payload.length)
  short : r.payload.length < 65536

theorem Direct.head_length {e : Endian} {r : IpcRecord} (h : Direct e r) :
    r.head.length = sizeofIpcMetadata := by
  obtain ⟨addr, haddr⟩ := h.head
  rw [haddr, ipcMetadata_length]

theorem Released.head_length {e : Endian} {r : IpcRecord} (h : Released e r) :
    r.head.length = sizeofLong := by
  rw [h.head, enc32_length]
  rfl

theorem Released.not_direct {e : Endian} {r : IpcRecord} (h : Released e r) : ¬ Direct e r := by
  intro hd
  have hlen := h.head_length.symm.trans hd.head_length
  exact absurd hlen (by decide)

/-! ## Reading -/

/-- One call reads one record of the first kind. -/
theorem recv_direct (e : Endian) {r : IpcRecord} (h : Direct e r) {len : Int}
    (hlen : (r.payload.length : Int) ≤ len) (rest : List UInt8) (d : Int) :
    ∃ addr, rmcastTimedRecvfrom e true 1 len ⟨r.head ++ r.payload ++ rest, d⟩
      = some (⟨r.payload.length, r.payload, addr⟩, ⟨rest, d⟩) := by
  obtain ⟨addr, haddr⟩ := h.head
  have hshort := h.short
  have hcall := recv_message e ⟨r.payload, addr, by omega⟩ (by omega : 0 ≤ len) rest d
  simp only [IpcMessage.bytes, IpcMessage.cut, Int.min_eq_right hlen, if_pos hlen,
    Int.toNat_natCast, List.take_length] at hcall
  exact ⟨addr.bytes, haddr ▸ hcall⟩

/-- The records of the first kind are read back one by one. -/
theorem recvCalls_direct (e : Endian) {rs : List IpcRecord} :
    ∀ {lens : List Int} (d : Int), (∀ r ∈ rs, Direct e r) →
      List.Forall₂ (fun len r => ((IpcRecord.payload r).length : Int) ≤ len) lens rs →
      ∃ out c, recvCalls e lens ⟨ipcStream rs, d⟩ = some (out, c) ∧ c.stream = []
        ∧ out.map (fun x => (x.ret, x.data))
          = rs.map fun r => ((r.payload.length : Int), r.payload) := by
  induction rs with
  | nil =>
    intro lens d _ hlens
    cases hlens
    exact ⟨[], ⟨[], d⟩, rfl, rfl, rfl⟩
  | cons r rs ih =>
    intro lens d hd hlens
    cases hlens with
    | cons hlen hlens =>
      obtain ⟨addr, hcall⟩ := recv_direct e (hd r (List.mem_cons_self ..)) hlen (ipcStream rs) d
      obtain ⟨out, c, hcalls, hc, hout⟩ :=
        ih d (fun r' hr' => hd r' (List.mem_cons_of_mem _ hr')) hlens
      refine ⟨⟨r.payload.length, r.payload, addr⟩ :: out, c, ?_, hc, ?_⟩
      · rw [recvCalls, show ipcStream (r :: rs) = r.head ++ r.payload ++ ipcStream rs from rfl,
          hcall]
        simp only [hcalls]
      · rw [List.map_cons, List.map_cons, hout]

/-- A call takes a metadata structure and what it returns from the stream. -/
theorem recv_consumes {e : Endian} {len : Int} {c c' : ClientSock} {r : Received}
    (h : rmcastTimedRecvfrom e true 1 len c = some (r, c')) :
    sizeofIpcMetadata + r.data.length + c'.stream.length ≤ c.stream.length := by
  unfold rmcastTimedRecvfrom at h
  rw [if_neg (by decide), if_pos (by decide)] at h
  split at h
  · cases h
  · rename_i rcvd rest hrcvd
    have hmeta := (recvExact_length hrcvd).2
    unfold recvData at h
    split at h
    · split at h
      · cases h
      · rename_i data rest' hdata
        have hlen := recvExact_length hdata
        cases h
        simp only at hlen ⊢
        omega
    · split at h
      · cases h
      · rename_i data rest' hdata
        have hlen := recvExact_length hdata
        simp only at h
        split at h
        · cases h
        · rename_i more rest'' hmore
          have hlen' := (recvExact_length hmore).2
          cases h
          simp only at hlen ⊢
          omega

theorem recvCalls_consumes {e : Endian} {lens : List Int} :
    ∀ {c c' : ClientSock} {out : List Received}, recvCalls e lens c = some (out, c') →
      (out.map fun x => sizeofIpcMetadata + x.data.length).sum + c'.stream.length
        ≤ c.stream.length := by
  induction lens with
  | nil =>
    intro c c' out h
    cases h
    simp
  | cons len lens ih =>
    intro c c' out h
    unfold recvCalls at h
    split at h
    · cases h
    · rename_i r c₁ hcall
      have hone := recv_consumes hcall
      split at h
      · cases h
      · rename_i rs c₂ hcalls
        have hrest := ih hcalls
        cases h
        rw [List.map_cons, List.sum_cons]
        omega

/-- The client reads back what was handed over, whatever the sizes of its
buffers, as long as the messages fit. -/
def ReadsBack (e : Endian) (rs : List IpcRecord) : Prop :=
  ∀ (lens : List Int) (d : Int),
    List.Forall₂ (fun len r => ((IpcRecord.payload r).length : Int) ≤ len) lens rs →
    ∃ out c, recvCalls e lens ⟨ipcStream rs, d⟩ = some (out, c) ∧ c.stream = []
      ∧ out.map (fun x => (x.ret, x.data)) = rs.map fun r => ((r.payload.length : Int), r.payload)

/-- The bytes of a stream of both kinds of records, against what it takes
to read them all. -/
theorem ipcStream_length_le {e : Endian} {rs : List IpcRecord}
    (h : ∀ r ∈ rs, Direct e r ∨ Released e r) :
    (ipcStream rs).length ≤ (rs.map fun r => sizeofIpcMetadata + r.payload.length).sum
      ∧ ((∃ r ∈ rs, ¬ Direct e r) →
        (ipcStream rs).length < (rs.map fun r => sizeofIpcMetadata + r.payload.length).sum) := by
  induction rs with
  | nil => exact ⟨Nat.le_refl _, by simp⟩
  | cons r rs ih =>
    obtain ⟨hle, hlt⟩ := ih fun r' hr' => h r' (List.mem_cons_of_mem _ hr')
    have hstream : (ipcStream (r :: rs)).length
        = r.head.length + r.payload.length + (ipcStream rs).length := by
      simp only [ipcStream, List.flatMap_cons, List.length_append]
    rw [hstream, List.map_cons, List.sum_cons]
    rcases h r (List.mem_cons_self ..) with hd | hr
    · have hhead := hd.head_length
      refine ⟨by omega, ?_⟩
      rintro ⟨r', hr', hnd⟩
      rcases List.mem_cons.mp hr' with rfl | hr'
      · exact absurd hd hnd
      · have := hlt ⟨r', hr', hnd⟩
        omega
    · have hhead := hr.head_length
      simp only [sizeofLong, sizeofIpcMetadata] at hhead hle ⊢
      exact ⟨by omega, fun _ => by omega⟩

/-- A stream is read back exactly when no record on it was released from
the cache. -/
theorem readsBack_iff {e : Endian} {rs : List IpcRecord}
    (h : ∀ r ∈ rs, Direct e r ∨ Released e r) : ReadsBack e rs ↔ ∀ r ∈ rs, Direct e r := by
  constructor
  · intro hread
    by_contra hnot
    push Not at hnot
    have hlens : List.Forall₂ (fun len r => ((IpcRecord.payload r).length : Int) ≤ len)
        (rs.map fun r => (r.payload.length : Int)) rs := by
      rw [List.forall₂_map_left_iff]
      exact List.forall₂_same.mpr fun r _ => le_refl _
    obtain ⟨out, c, hcalls, -, hout⟩ := hread _ 0 hlens
    have hneed := recvCalls_consumes hcalls
    have hsum : (out.map fun x => sizeofIpcMetadata + x.data.length)
        = rs.map fun r => sizeofIpcMetadata + r.payload.length := by
      have hdata := congrArg (List.map fun x : Int × List UInt8 =>
        sizeofIpcMetadata + x.2.length) hout
      simpa only [List.map_map, Function.comp_def] using hdata
    rw [hsum] at hneed
    have hlt := (ipcStream_length_le h).2 hnot
    simp only at hneed
    omega
  · intro hd lens d hlens
    exact recvCalls_direct e d hd hlens

/-! ## Writing -/

theorem payload_short (e : Endian) (m : RmcMsg) : (m.payload e).length < 65536 := by
  rw [RmcMsg.payload, readBytes_length]
  exact (m.hdrLength e).toNat_lt

/-- The release loop writes records of the second kind, and none exactly if
nothing is cached under the number it starts with. -/
theorem releaseCached_records (h : Host) (mp n : Nat) :
    ∀ cb : RmcCtrlBlock, ∃ rs, (releaseCached h mp n cb).ipcOut = cb.ipcOut ++ rs
      ∧ (∀ r ∈ rs, Released h.endian r)
      ∧ (rs = [] ↔ n = 0 ∨ htblGet (cb.mems mp).unseqMsgs (cb.mems mp).sequence = none) := by
  induction n with
  | zero => exact fun cb => ⟨[], (List.append_nil _).symm, by simp, by simp⟩
  | succ n ih =>
    intro cb
    unfold releaseCached
    simp only
    cases hrem : htblRemove (cb.mems mp).unseqMsgs (cb.mems mp).sequence with
    | none => exact ⟨[], (List.append_nil _).symm, by simp, by simp [htblRemove_eq_none.mp hrem]⟩
    | some pt =>
      obtain ⟨p, t⟩ := pt
      have hget := (htblRemove_eq_some.mp hrem).1
      simp only
      obtain ⟨rs, hrs, hrel, -⟩ := ih ((deliver h
        (enc32 h.endian ((cb.msgs p).hdrLength h.endian).toUInt32) p cb).setMem mp
          { cb.mems mp with unseqMsgs := t, sequence := (cb.mems mp).sequence + 1 })
      refine ⟨⟨enc32 h.endian ((cb.msgs p).hdrLength h.endian).toUInt32,
        (cb.msgs p).payload h.endian, (cb.msgs p).hdrSequence h.endian,
        (cb.msgs p).hdrId h.endian⟩ :: rs, ?_, ?_, ?_⟩
      · rw [hrs]
        simp only [deliver, RmcCtrlBlock.setMem, sendLoop_payload, List.append_assoc,
          List.singleton_append]
      · intro r hr
        rcases List.mem_cons.mp hr with rfl | hr
        · exact ⟨by rw [← payload_length], payload_short _ _⟩
        · exact hrel r hr
      · simp [hget]

/-- The message in buffer `p` is due although its number is cached. -/
def DueCached (h : Host) (p : Nat) (cb : RmcCtrlBlock) : Prop :=
  ∃ mp, htblGet cb.members ((cb.msgs p).hdrId h.endian) = some mp
    ∧ (cb.mems mp).sequence + 1 = (cb.msgs p).hdrSequence h.endian
    ∧ htblGet (cb.mems mp).unseqMsgs ((cb.msgs p).hdrSequence h.endian) ≠ none

/-- The records of a message in sequence: its own, and then those
released. -/
theorem dataInSequence_records (h : Host) (sender : SockaddrIn) (mp p : Nat) (cb : RmcCtrlBlock) :
    ∃ r rs, (dataInSequence h sender mp p cb).ipcOut = cb.ipcOut ++ r :: rs ∧ Direct h.endian r
      ∧ (∀ r ∈ rs, Released h.endian r)
      ∧ (rs = [] ↔ htblGet (cb.mems mp).unseqMsgs ((cb.mems mp).sequence + 1) = none) := by
  obtain ⟨rs, hrs, hrel, hnil⟩ := releaseCached_records h mp (htblCount (cb.mems mp).unseqMsgs)
    ((deliver h (ipcMetadata h.endian ((cb.msgs p).hdrLength h.endian).toUInt32 sender) p
      cb).setMem mp { cb.mems mp with sequence := (cb.mems mp).sequence + 1 })
  refine ⟨⟨ipcMetadata h.endian ((cb.msgs p).hdrLength h.endian).toUInt32 sender,
    (cb.msgs p).payload h.endian, (cb.msgs p).hdrSequence h.endian,
    (cb.msgs p).hdrId h.endian⟩, rs, ?_, ⟨⟨sender, by rw [← payload_length]⟩, payload_short _ _⟩,
    hrel, ?_⟩
  · rw [dataInSequence, hrs]
    simp only [deliver, RmcCtrlBlock.setMem, sendLoop_payload, List.append_assoc,
      List.singleton_append]
  · rw [hnil]
    simp only [RmcCtrlBlock.setMem, Function.update_self]
    constructor
    · rintro (hzero | hnone)
      · cases hget : htblGet (cb.mems mp).unseqMsgs ((cb.mems mp).sequence + 1) with
        | none => rfl
        | some q =>
          have := htblCount_erase hget
          omega
      · exact hnone
    · exact .inr

/-- What a step adds to the stream: records of both kinds, and only of the
first kind unless `cached` holds. -/
def Adds (e : Endian) (cached : Prop) (cb cb' : RmcCtrlBlock) : Prop :=
  ∃ rs, cb'.ipcOut = cb.ipcOut ++ rs ∧ (∀ r ∈ rs, Direct e r ∨ Released e r)
    ∧ ((∀ r ∈ rs, Direct e r) ↔ ¬ cached)

theorem Adds.nothing {e : Endian} {cached : Prop} {cb cb' : RmcCtrlBlock} (hn : ¬ cached)
    (h : cb'.ipcOut = cb.ipcOut) : Adds e cached cb cb' :=
  ⟨[], h.trans (List.append_nil _).symm, by simp, by simp [hn]⟩

/-- `case RMCAST_MSG_DATA`. -/
theorem dataMsg_adds (h : Host) (sender : SockaddrIn) (p : Nat) (cb : RmcCtrlBlock) :
    Adds h.endian (DueCached h p cb) cb (dataMsg h sender p cb) := by
  unfold dataMsg
  cases hk : htblGet cb.members ((cb.msgs p).hdrId h.endian) with
  | none =>
    refine .nothing ?_ rfl
    rintro ⟨mp, hmp, -⟩
    rw [hk] at hmp
    cases hmp
  | some mp =>
    simp only
    have hother : ∀ {cb' : RmcCtrlBlock},
        (cb.mems mp).sequence + 1 ≠ (cb.msgs p).hdrSequence h.endian →
        cb'.ipcOut = cb.ipcOut → Adds h.endian (DueCached h p cb) cb cb' := by
      intro cb' hne hout
      refine .nothing ?_ hout
      rintro ⟨mp', hmp', hdue, -⟩
      rw [hk] at hmp'
      obtain rfl := Option.some.inj hmp'
      exact hne hdue
    by_cases hdue : (cb.mems mp).sequence + 1 = (cb.msgs p).hdrSequence h.endian
    · rw [if_neg (not_not.mpr hdue)]
      obtain ⟨r, rs, hout, hdir, hrel, hnil⟩ := dataInSequence_records h sender mp p cb
      rw [hdue] at hnil
      refine ⟨r :: rs, hout, ?_, ?_⟩
      · intro r' hr'
        rcases List.mem_cons.mp hr' with rfl | hr'
        · exact .inl hdir
        · exact .inr (hrel r' hr')
      · constructor
        · rintro hall ⟨mp', hmp', -, hsome⟩
          rw [hk] at hmp'
          obtain rfl := Option.some.inj hmp'
          cases rs with
          | nil => exact hsome (hnil.mp rfl)
          | cons r' rs =>
            exact (hrel r' (List.mem_cons_self ..)).not_direct
              (hall r' (List.mem_cons_of_mem _ (List.mem_cons_self ..)))
        · intro hnot
          have hempty : rs = [] := by
            rw [hnil]
            by_contra hsome
            exact hnot ⟨mp, hk, hdue, hsome⟩
          intro r' hr'
          rw [hempty, List.mem_singleton] at hr'
          exact hr' ▸ hdir
    · rw [if_pos hdue]
      split
      · exact hother hdue (dataAhead_spec h mp p cb).2.2.1
      · exact hother hdue rfl

/-! ## The other handlers -/

theorem hbeatMsg_ipcOut (h : Host) (p : Nat) (cb : RmcCtrlBlock) :
    (hbeatMsg h p cb).ipcOut = cb.ipcOut := by
  have hmember : ∀ cb : RmcCtrlBlock, (hbeatMember h p cb).1.ipcOut = cb.ipcOut := by
    intro cb
    unfold hbeatMember
    split
    · rfl
    · split <;> rfl
  rw [hbeatMsg_eq]
  exact (hbeatGap_receiver h _ p _).2.2.1.trans (hmember _)

theorem nackLoop_ipcOut (h : Host) (p n : Nat) :
    ∀ (itr : Nat) (cb : RmcCtrlBlock), (nackLoop h p n itr cb).ipcOut = cb.ipcOut := by
  induction n with
  | zero => exact fun _ _ => rfl
  | succ n ih =>
    intro itr cb
    simp only [nackLoop]
    rw [ih]
    split <;> rfl

theorem leaveMsg_ipcOut (h : Host) {p : Nat} {cb cb' : RmcCtrlBlock}
    (hl : leaveMsg h p cb = some cb') : cb'.ipcOut = cb.ipcOut := by
  obtain ⟨buf, mems, t, q, freed, rfl⟩ := leaveMsg_frame h p hl
  rfl

/-- Only DATA is handed to the client. -/
theorem dispatch_adds (h : Host) (sender : SockaddrIn) {p : Nat} {cb cb' : RmcCtrlBlock}
    (hd : dispatch h sender p cb = some cb') :
    Adds h.endian (MsgType.ofByte (cb.msgs p).hdrType = some .data ∧ DueCached h p cb) cb cb' := by
  unfold dispatch at hd
  split at hd
  · rename_i htype
    cases hd
    simpa only [htype, true_and] using dataMsg_adds h sender p cb
  · rename_i htype
    cases hd
    exact .nothing (by simp [htype]) (hbeatMsg_ipcOut h p cb)
  · rename_i htype
    cases hd
    exact .nothing (by simp [htype]) (nackLoop_ipcOut h p _ _ _)
  · rename_i htype
    exact .nothing (by simp [htype]) (leaveMsg_ipcOut h hd)
  · rename_i hdata _ _ _
    cases hd
    exact .nothing (fun hc => hdata hc.1) rfl

/-- A DATA datagram is received whole and is due, although its number is
cached. -/
def ReleasesCached (h : Host) (cb : RmcCtrlBlock) (i : Iteration) : Prop :=
  ∃ sender r, i.mcast = some (sender, r) ∧ sizeofHdr ≤ (recvMsg r cb).2.2
    ∧ (((received h r cb).msgs (recvMsg r cb).2.1).hdrLength h.endian).toNat + sizeofHdr
        ≤ (recvMsg r cb).2.2
    ∧ MsgType.ofByte ((received h r cb).msgs (recvMsg r cb).2.1).hdrType = some .data
    ∧ DueCached h (recvMsg r cb).2.1 (received h r cb)

theorem purge_ipcOut (bound : UInt32) (cb : RmcCtrlBlock) :
    (purge bound cb).ipcOut = cb.ipcOut := by
  obtain ⟨o, q, s, hpurge⟩ := purge_frame bound cb
  rw [hpurge]

theorem hbeatBranch_ipcOut (h : Host) {cb cb' : RmcCtrlBlock} (hb : hbeatBranch h cb = some cb') :
    cb'.ipcOut = cb.ipcOut := by
  unfold hbeatBranch sendHbeat at hb
  simp only at hb
  obtain ⟨r, hr, rfl⟩ := Option.map_eq_some_iff.mp hb
  obtain ⟨⟨q, hq⟩, -⟩ := hbeatAckPart_spec hr
  have hframe : r.1.ipcOut = cb.ipcOut := by
    rw [hq]
    exact (allocMsg_receiver cb).2.2.1
  rw [purge_ipcOut]
  exact hframe

theorem ackBranch_ipcOut {cb cb' : RmcCtrlBlock} (ha : ackBranch cb = some cb') :
    cb'.ipcOut = cb.ipcOut := by
  obtain ⟨q, sync, o, b, s, rfl⟩ := ackBranch_eq ha
  rfl

/-- Only the datagram switch hands anything to the client. -/
theorem afterMcast_ipcOut (h : Host) (i : Iteration) {cb cb' : RmcCtrlBlock}
    (ha : afterMcast h i cb = some cb') : cb'.ipcOut = cb.ipcOut := by
  rw [afterMcast_eq] at ha
  obtain ⟨cb₂, hb, hack⟩ := Option.bind_eq_some_iff.mp ha
  have hhb : cb₂.ipcOut = (i.ipc.elim cb fun x => ipcBranch h x cb).ipcOut := by
    split at hb
    · exact hbeatBranch_ipcOut h hb
    · rw [Option.some.inj hb]
  rw [ackBranch_ipcOut hack, hhb]
  cases i.ipc with
  | none => rfl
  | some x => exact (ipcBranch_receiver h x cb).2.2.2

/-- One pass through the loop. -/
theorem iteration_adds (h : Host) {i : Iteration} {cb cb' : RmcCtrlBlock}
    (hi : iteration h cb i = some cb') :
    Adds h.endian (ReleasesCached h cb i) cb cb' := by
  unfold iteration at hi
  cases hm : i.mcast with
  | none =>
    rw [hm] at hi
    refine .nothing ?_ (afterMcast_ipcOut h i hi)
    rintro ⟨sender, r, hr, -⟩
    rw [hm] at hr
    cases hr
  | some x =>
    obtain ⟨sender, r⟩ := x
    rw [hm] at hi
    simp only at hi
    have hrecv := (received_receiver h r cb).2.2.1
    have hiff : ReleasesCached h cb i ↔ sizeofHdr ≤ (recvMsg r cb).2.2
        ∧ (((received h r cb).msgs (recvMsg r cb).2.1).hdrLength h.endian).toNat + sizeofHdr
          ≤ (recvMsg r cb).2.2
        ∧ MsgType.ofByte ((received h r cb).msgs (recvMsg r cb).2.1).hdrType = some .data
        ∧ DueCached h (recvMsg r cb).2.1 (received h r cb) := by
      constructor
      · rintro ⟨sender', r', hr', hc⟩
        rw [hm] at hr'
        cases hr'
        exact hc
      · intro hc
        exact ⟨sender, r, hm, hc⟩
    -- the state the switch leaves, and what it adds
    have hbranch : ∀ {cb₁ flag}, mcastBranch h sender r cb = some (cb₁, flag) →
        Adds h.endian (ReleasesCached h cb i) cb cb₁ := by
      intro cb₁ flag hb
      rcases mcastBranch_cases h sender r hb with ⟨hshort, -, rfl⟩ | ⟨hlong, cb₂, p, rfl, rfl, hc⟩
      · exact .nothing (fun hc => absurd (hiff.mp hc).1 (Nat.not_le.mpr hshort)) hrecv
      · rcases hc with ⟨hshort, -, rfl⟩ | ⟨hfull, -, hdisp⟩
        · exact .nothing (fun hc => absurd (hiff.mp hc).2.1 (Nat.not_le.mpr hshort)) hrecv
        · obtain ⟨rs, hrs, hkind, hdir⟩ := dispatch_adds h sender hdisp
          refine ⟨rs, hrs.trans (by rw [← hrecv]; rfl), hkind, hdir.trans (not_congr ?_)⟩
          rw [hiff]
          exact ⟨fun hc => ⟨Nat.not_lt.mp hlong, Nat.not_lt.mp hfull, hc⟩, fun hc => hc.2.2⟩
    split at hi
    · cases hi
    · rename_i cb₁ hb
      cases hi
      exact hbranch hb
    · rename_i cb₁ hb
      obtain ⟨rs, hrs, hkind, hdir⟩ := hbranch hb
      exact ⟨rs, (afterMcast_ipcOut h i hi).trans hrs, hkind, hdir⟩

/-- The records of a whole run. -/
theorem run_adds (h : Host) {is : List Iteration} :
    ∀ {cb cb' : RmcCtrlBlock}, run (iteration h) cb is = some cb' →
      ∃ rs, cb'.ipcOut = cb.ipcOut ++ rs ∧ (∀ r ∈ rs, Direct h.endian r ∨ Released h.endian r)
        ∧ ((∀ r ∈ rs, Direct h.endian r)
          ↔ Guarded (iteration h) (fun cb i => ¬ ReleasesCached h cb i) cb is) := by
  induction is with
  | nil =>
    intro cb cb' hrun
    cases hrun
    exact ⟨[], (List.append_nil _).symm, by simp, by simp [Guarded]⟩
  | cons i is ih =>
    intro cb cb' hrun
    obtain ⟨cb₁, hstep, hrest⟩ := run_cons_some hrun
    obtain ⟨rs, hrs, hkind, hdir⟩ := iteration_adds h hstep
    obtain ⟨rs', hrs', hkind', hdir'⟩ := ih hrest
    refine ⟨rs ++ rs', by rw [hrs', hrs, List.append_assoc], ?_, ?_⟩
    · intro r hr
      rcases List.mem_append.mp hr with hr | hr
      · exact hkind r hr
      · exact hkind' r hr
    · rw [List.forall_mem_append, hdir, hdir']
      simp only [Guarded, hstep, Option.some.injEq, forall_eq']

/-- **Framing.** The records a run of the daemon writes are read back by
its client, in order and each with its length, exactly when no DATA
message of the run is due while its number is cached. -/
theorem framing_iff (h : Host) {is : List Iteration} {cb cb' : RmcCtrlBlock}
    (hrun : run (iteration h) cb is = some cb') :
    ∃ rs, cb'.ipcOut = cb.ipcOut ++ rs
      ∧ (ReadsBack h.endian rs
        ↔ Guarded (iteration h) (fun cb i => ¬ ReleasesCached h cb i) cb is) := by
  obtain ⟨rs, hrs, hkind, hdir⟩ := run_adds h hrun
  exact ⟨rs, hrs, (readsBack_iff hkind).trans hdir⟩

/-- Node 2 announces number 1 and sends numbers 1, 3 and 2; number 3 stays
in the cache. -/
def gapInTheMiddle : List Iteration :=
  [receiving hbeatOne.bytes, receiving (dataOne 1 11).bytes, receiving (dataOne 3 33).bytes,
    receiving (dataOne 2 22).bytes]

theorem framing_iff_gapInTheMiddle :
    ∃ cb rs, run (iteration littleHost) (rmcastInit zeroGarbage plainArgs) gapInTheMiddle = some cb
      ∧ cb.ipcOut.map IpcRecord.payload = [[11], [22]]
      ∧ cb.ipcOut = (rmcastInit zeroGarbage plainArgs).ipcOut ++ rs
      ∧ (ReadsBack .little rs
        ↔ Guarded (iteration littleHost) (fun cb i => ¬ ReleasesCached littleHost cb i)
            (rmcastInit zeroGarbage plainArgs) gapInTheMiddle) := by
  have hout : (run (iteration littleHost) (rmcastInit zeroGarbage plainArgs) gapInTheMiddle).map
      (fun cb => cb.ipcOut.map IpcRecord.payload) = some [[11], [22]] := by
    decide +kernel
  obtain ⟨cb, hrun, hcb⟩ := Option.map_eq_some_iff.mp hout
  obtain ⟨rs, hrs, hiff⟩ := framing_iff littleHost hrun
  exact ⟨cb, rs, hrun, hcb, hrs, hiff⟩

/-- Number 2 arrives before and after number 1. The client's third call
cannot read the record released from the cache. The run goes through a
gap: `send_nack` is taken to return. -/
theorem framing_fails :
    ∃ cb, run (iteration littleHost) (rmcastInit zeroGarbage plainArgs)
        [receiving hbeatOne.bytes, receiving (dataOne 2 22).bytes,
         receiving (dataOne 1 11).bytes, receiving (dataOne 2 22).bytes] = some cb
      ∧ cb.ipcOut.map IpcRecord.payload = [[11], [22], [22]]
      ∧ recvCalls .little [100, 100, 100] ⟨ipcStream cb.ipcOut, 0⟩ = none := by
  have h : (run (iteration littleHost) (rmcastInit zeroGarbage plainArgs)
      [receiving hbeatOne.bytes, receiving (dataOne 2 22).bytes,
       receiving (dataOne 1 11).bytes, receiving (dataOne 2 22).bytes]).map
      (fun cb => (cb.ipcOut.map IpcRecord.payload,
        (recvCalls .little [100, 100, 100] ⟨ipcStream cb.ipcOut, 0⟩).isNone))
      = some ([[11], [22], [22]], true) := by
    decide +kernel
  obtain ⟨cb, hrun, hcb⟩ := Option.map_eq_some_iff.mp h
  simp only [Prod.mk.injEq, Option.isNone_iff_eq_none] at hcb
  exact ⟨cb, hrun, hcb⟩

end Rms.V01
