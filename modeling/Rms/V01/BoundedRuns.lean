/-
Rms.V01.BoundedRuns — whole sequences of datagrams in 32-bit memory.

Where nothing is cached, the first number ahead of its turn ends the
daemon, so nothing is ever cached. A run of datagrams therefore has a
result exactly if none of them asks for a NACK, and it is then the run of
the unbounded daemon. Two results about whole sequences are read off from
that: completeness of reassembly (`data_complete_iff`), and that members
do not interfere (`members_isolated_iff`).
-/
import Rms.V01.BoundedTheorems
import Rms.V01.IsolationTheorems

namespace Rms.V01.Bounded

open Rms.ByteMem Rms.Util Rms.Serial Rms.Runs

variable {h : Host} {sender : SockaddrIn} {r : RecvResult} {cb cb' : RmcCtrlBlock} {n mp : Nat}
  {hand : List Nat} {d : Datagram}

/-- Nothing is cached for any peer. -/
def Uncached (cb : RmcCtrlBlock) : Prop := ∀ x v, peerAt cb x = some v → v.unseqMsgs = ∅

/-- The datagram makes the switch call `send_nack`. -/
def AsksForNack (h : Host) (r : RecvResult) (cb : RmcCtrlBlock) : Prop :=
  ∃ sequence t, Asks h r cb sequence t

/-- Where nothing is cached, a datagram ends the daemon or does what it does
with unbounded buffers. -/
theorem mcastBranch_of_uncached (h : Host) (sender : SockaddrIn) (r : RecvResult)
    (hempty : Uncached cb) :
    (AsksForNack h r cb → mcastBranch h sender r cb = none)
      ∧ (¬ AsksForNack h r cb → mcastBranch h sender r cb = V01.mcastBranch h sender r cb) := by
  constructor
  · rintro ⟨sequence, t, ha⟩
    exact mcastBranch_of_asks ha (lt_nackEnd _ (count_of_asks hempty ha))
  · intro hno
    exact mcastBranch_of_not_asks fun sequence t ha => hno ⟨sequence, t, ha⟩

theorem receive_of_uncached (hempty : Uncached cb) {x : SockaddrIn × Datagram} :
    (AsksForNack h (.ok x.2.bytes) cb → receive h cb x = none)
      ∧ (¬ AsksForNack h (.ok x.2.bytes) cb → receive h cb x = V01.receive h cb x) := by
  obtain ⟨hdies, hsame⟩ := mcastBranch_of_uncached h x.1 (.ok x.2.bytes) hempty
  constructor
  · intro ha
    rw [receive, hdies ha, Option.map_none]
  · intro hno
    rw [receive, hsame hno, V01.receive]

/-! ## Completeness of reassembly -/

theorem accepted_of_fits (h : Host) (hf : Fits cb d) (hlen : d.length.toNat ≤ d.body.length) :
    accepted h (.ok d.bytes) cb = some ((received h (.ok d.bytes) cb).msgs (allocMsg cb).2) := by
  have hbytes := d.bytes_length
  refine if_neg (not_or.mpr ⟨?_, ?_⟩)
  · rw [recvMsg_ret hf]
    omega
  · rw [recvMsg_ret hf, (holds_received h hf).length]
    omega

/-- A DATA datagram of a member that is ahead ends the daemon. -/
theorem receive_data_ahead (host : Host) (sender : SockaddrIn) (hd : IsData d) (hf : Fits cb d)
    (hk : htblGet cb.members d.id = some mp)
    (hcount : htblCount (cb.mems mp).unseqMsgs ≤ 3221225472)
    (hahead : Ahead (cb.mems mp).peer d.sequence) : receive host cb (sender, d) = none := by
  have hheld := holds_received host hf
  have hpeer : peerAt cb (((received host (.ok d.bytes) cb).msgs (allocMsg cb).2).hdrId host.endian)
      = some (cb.mems mp).peer := by
    rw [hheld.id, peerAt, hk]
    rfl
  rw [← hheld.sequence] at hahead
  have hasks := Asks.data (accepted_of_fits host hf hd.length)
    (by simp only [eventOf, hheld.type, hd.type, MsgType.ofByte_toByte]) hpeer hahead
  have hput := htblCount_htblPut_le (cb.mems mp).unseqMsgs
    (((received host (.ok d.bytes) cb).msgs (allocMsg cb).2).hdrSequence host.endian)
    (allocMsg cb).2
  rw [receive, mcastBranch_of_asks hasks (lt_nackEnd _ (hput.trans (Nat.succ_le_succ hcount))),
    Option.map_none]

/-- One that is not is handled as with unbounded buffers. -/
theorem receive_data_not_ahead (host : Host) (sender : SockaddrIn) (hd : IsData d) (hf : Fits cb d)
    (hk : htblGet cb.members d.id = some mp) (hno : ¬ Ahead (cb.mems mp).peer d.sequence) :
    receive host cb (sender, d) = V01.receive host cb (sender, d) := by
  have hheld := holds_received host hf
  have hacc := accepted_of_fits host hf hd.length
  rw [receive, mcastBranch_of_not_asks, V01.receive]
  intro sequence t ha
  cases ha with
  | data hacc' _ hv hahead =>
    obtain rfl := Option.some.inj (hacc.symm.trans hacc')
    rw [hheld.id, peerAt, hk] at hv
    obtain rfl := Option.some.inj hv
    rw [hheld.sequence] at hahead
    exact hno hahead
  | hbeat hacc' hev _ _ =>
    obtain rfl := Option.some.inj (hacc.symm.trans hacc')
    simp [eventOf, hheld.type, hd.type, MsgType.ofByte_toByte] at hev

/-- What has come ahead stays on the board. -/
theorem ahead_foldl_note (ks : List UInt32) :
    ∀ {b : Board}, b.ahead ≠ [] → (ks.foldl Board.note b).ahead ≠ [] := by
  induction ks with
  | nil => exact id
  | cons k ks ih =>
    intro b hb
    refine ih ?_
    unfold Board.note
    split
    · exact hb
    · split
      · exact List.cons_ne_nil _ _
      · exact hb

/-- One arrival on a board where nothing came ahead yet. -/
theorem note_nil (due k : UInt32) :
    Board.note ⟨due, []⟩ k = if k = due then ⟨due + 1, []⟩
      else if due - 1 < k then ⟨due, [k]⟩ else ⟨due, []⟩ := rfl

/-- The board of the arrivals decides whether a member's DATA datagrams are
all handled, and then they are handled as with unbounded buffers. -/
theorem run_receive_data (host : Host) (xs : List (SockaddrIn × Datagram)) :
    ∀ {cb : RmcCtrlBlock} {hand : List Nat} {k : UInt32}, Owned cb hand → Roomy n cb →
      htblGet cb.members k = some mp → (cb.mems mp).unseqMsgs = ∅ →
      (∀ x ∈ xs, IsData x.2 ∧ x.2.id = k ∧ x.2.bytes.length ≤ n ∧ x.2.bytes.length < 2147483648) →
      run (receive host) cb xs
        = if ((xs.map fun x => x.2.sequence).foldl Board.note
              ⟨(cb.mems mp).sequence + 1, []⟩).ahead = []
          then run (V01.receive host) cb xs else none := by
  induction xs with
  | nil => exact fun _ _ _ _ _ => rfl
  | cons x xs ih =>
    intro cb hand k hown hroom hk hempty hall
    obtain ⟨sender, d⟩ := x
    obtain ⟨hdata, hid, hlen, hudp⟩ := hall (sender, d) (List.mem_cons_self ..)
    have hf := hroom.fits hown hlen hudp
    have hkd : htblGet cb.members d.id = some mp := by
      rw [hid]
      exact hk
    have hlast : (cb.mems mp).sequence + 1 - 1 = (cb.mems mp).sequence := UInt32.add_sub_cancel ..
    have hrest : ∀ y ∈ xs, IsData y.2 ∧ y.2.id = k ∧ y.2.bytes.length ≤ n
        ∧ y.2.bytes.length < 2147483648 := fun y hy => hall y (List.mem_cons_of_mem _ hy)
    simp only [List.map_cons, List.foldl_cons, run, note_nil, hlast]
    by_cases hdue : d.sequence = (cb.mems mp).sequence + 1
    · obtain ⟨cb', hrecv, ⟨hand', hown'⟩, hroom', hmembers, -, hseq, hcache, -, -⟩ :=
        receive_data_due host sender hown hdata hf hkd hdue.symm (by rw [hempty, htblGet_empty])
      rw [receive_data_not_ahead host sender hdata hf hkd (fun ha => ha.1 hdue.symm), hrecv,
        if_pos hdue, Option.bind_some, Option.bind_some, ih hown' (hroom' n hroom)
          (by rw [hmembers]; exact hk) (hcache hempty) hrest, hseq, hdue]
    · rw [if_neg hdue]
      by_cases hlt : (cb.mems mp).sequence < d.sequence
      · rw [if_pos hlt, if_neg (ahead_foldl_note _ (List.cons_ne_nil _ _)),
          receive_data_ahead host sender hdata hf hkd (by rw [hempty]; decide)
            ⟨Ne.symm hdue, hlt⟩]
        rfl
      · obtain ⟨cb', hrecv, ⟨hand', hown'⟩, hroom', hmembers, -, hseq, -, hdropped⟩ :=
          receive_data_undue host sender hown hdata hf hkd (Ne.symm hdue)
        rw [receive_data_not_ahead host sender hdata hf hkd (fun ha => hlt ha.2), hrecv,
          if_neg hlt, Option.bind_some, Option.bind_some, ih hown' (hroom' n hroom)
            (by rw [hmembers]; exact hk) ((hdropped hlt).1 hempty) hrest, hseq]

/-- Where nothing comes ahead, no number is due that came ahead. -/
theorem firstRepeat_of_ahead_nil (ks : List UInt32) :
    ∀ {due : UInt32}, (ks.foldl Board.note ⟨due, []⟩).ahead = [] →
      Board.firstRepeat ⟨due, []⟩ ks = none := by
  induction ks with
  | nil => exact fun _ => rfl
  | cons k ks ih =>
    intro due hnil
    simp only [List.foldl_cons, note_nil] at hnil
    simp only [Board.firstRepeat, List.not_mem_nil, and_false, if_false, note_nil]
    by_cases hdue : k = due
    · rw [if_pos hdue] at hnil ⊢
      exact ih hnil
    · rw [if_neg hdue] at hnil ⊢
      by_cases hlt : due - 1 < k
      · rw [if_pos hlt] at hnil
        exact absurd hnil (ahead_foldl_note ks (List.cons_ne_nil _ _))
      · rw [if_neg hlt] at hnil ⊢
        exact ih hnil

theorem board_eq {b : Board} {m : UInt32} (hdue : b.due = m) (hahead : b.ahead = []) :
    b = ⟨m, []⟩ := by
  cases b
  simp_all

/-- **Completeness of reassembly.** A member that expects number `e` and
has an empty cache sends DATA datagrams numbered within `N` of `e`, in
any order and any number of times; `m` is the first number that never
arrives. They are all handled, and everything before `m` is handed over,
exactly when the board of the arrivals ends with `m` due and nothing
ahead. -/
theorem data_complete_iff (host : Host) {n N mp : Nat} {id e m : UInt32} {cb : RmcCtrlBlock}
    {hand : List Nat} {xs : List (SockaddrIn × Datagram)} (hown : Owned cb hand)
    (hroom : Roomy n cb) (hk : htblGet cb.members id = some mp)
    (he : (cb.mems mp).sequence + 1 = e) (hempty : (cb.mems mp).unseqMsgs = ∅)
    (hN : N < 2147483648)
    (hdata : ∀ x ∈ xs, IsData x.2 ∧ x.2.id = id ∧ x.2.bytes.length ≤ n
      ∧ x.2.bytes.length < 2147483648)
    (hrange : ∀ x ∈ xs, dist e x.2.sequence ≤ N)
    (hmiss : ∀ x ∈ xs, x.2.sequence ≠ m)
    (hall : ∀ k, dist e k < dist e m → ∃ x ∈ xs, x.2.sequence = k) :
    (∃ cb' rs, run (receive host) cb xs = some cb' ∧ cb'.ipcOut = cb.ipcOut ++ rs
        ∧ ∀ k, dist e k < dist e m → k ∈ rs.map IpcRecord.sequence)
      ↔ (xs.map fun x => x.2.sequence).foldl Board.note ⟨e, []⟩ = ⟨m, []⟩ := by
  have hrun := run_receive_data host xs hown hroom hk hempty hdata
  obtain ⟨cb', rs, hfree, hout, hiff⟩ := data_complete_iff_reaches host hown hroom hk he hempty hN
    hdata hrange hmiss hall
  rw [he, hfree] at hrun
  rw [hrun]
  by_cases hnil : ((xs.map fun x => x.2.sequence).foldl Board.note ⟨e, []⟩).ahead = []
  · have hreaches : Board.Reaches e m (xs.map fun x => x.2.sequence)
        ↔ ((xs.map fun x => x.2.sequence).foldl Board.note ⟨e, []⟩).due = m := by
      rw [Board.Reaches, firstRepeat_of_ahead_nil _ hnil]
    rw [hreaches] at hiff
    rw [if_pos hnil]
    constructor
    · rintro ⟨cb₁, rs₁, hcb, hout₁, hcomplete⟩
      obtain rfl := Option.some.inj hcb
      obtain rfl := List.append_cancel_left (hout.symm.trans hout₁)
      exact board_eq (hiff.mp hcomplete) hnil
    · intro hboard
      exact ⟨cb', rs, rfl, hout, hiff.mpr (congrArg Board.due hboard)⟩
  · rw [if_neg hnil]
    constructor
    · rintro ⟨cb₁, rs₁, hcb, -⟩
      cases hcb
    · intro hboard
      exact absurd (congrArg Board.ahead hboard) hnil

/-- Messages of node 2, in the order of their arrival. -/
def arrivals (ks : List UInt32) : List (SockaddrIn × Datagram) :=
  ks.map fun k => (anyAddr, dataOne k 11)

theorem arrivals_data (ks : List UInt32) : ∀ x ∈ arrivals ks,
    IsData x.2 ∧ x.2.id = 2 ∧ x.2.bytes.length ≤ 140 ∧ x.2.bytes.length < 2147483648 := by
  intro x hx
  obtain ⟨k, -, rfl⟩ := List.mem_map.mp hx
  have hlen : (dataOne k 11).bytes.length = 13 := Datagram.bytes_length _
  exact ⟨⟨rfl, le_rfl⟩, rfl, hlen.trans_le (by decide), hlen.trans_lt (by decide)⟩

/-- Numbers 1, 2 and 3 arrive in their turn, with repetitions of 1 and 2 in
between: all three are handed over. -/
theorem data_complete_iff_repeats :
    ∃ cb' rs, run (receive littleHost) knowsTwo (arrivals [1, 1, 2, 1, 3, 2]) = some cb'
      ∧ cb'.ipcOut = knowsTwo.ipcOut ++ rs
      ∧ ∀ k, Serial.dist 1 k < Serial.dist 1 4 → k ∈ rs.map IpcRecord.sequence := by
  have hk : htblGet knowsTwo.members 2 = some 0 := rfl
  refine (data_complete_iff littleHost (N := 2) (m := 4) owned_knowsTwo roomy_knowsTwo hk rfl rfl
    (by decide) (arrivals_data _) (by decide) (by decide) ?_).mpr (by decide)
  intro k hlt
  have hmem : k ∈ span 1 3 := (mem_span (by decide)).mpr hlt
  have hcases : k = 1 ∨ k = 2 ∨ k = 3 := by
    rw [show span 1 3 = [1, 2, 3] from by decide] at hmem
    simpa using hmem
  have harrives : k ∈ [(1 : UInt32), 1, 2, 1, 3, 2] := by
    rcases hcases with rfl | rfl | rfl <;> decide
  exact ⟨_, List.mem_map.mpr ⟨k, harrives, rfl⟩, rfl⟩

/-- Number 2 arrives before number 1: the daemon does not get to number 1. -/
theorem data_complete_fails :
    run (receive littleHost) knowsTwo (arrivals [2, 1]) = none
      ∧ ∃ cb, run (receive littleHost) knowsTwo (arrivals [1, 2]) = some cb
        ∧ cb.ipcOut.map IpcRecord.sequence = [1, 2] := by
  have hk : htblGet knowsTwo.members 2 = some 0 := rfl
  have hdead := run_receive_data littleHost (arrivals [2, 1]) owned_knowsTwo roomy_knowsTwo hk rfl
    (arrivals_data _)
  have halive : (run (receive littleHost) knowsTwo (arrivals [1, 2])).map
      (fun cb => cb.ipcOut.map IpcRecord.sequence) = some [1, 2] := by
    decide +kernel
  rw [if_neg (by decide)] at hdead
  exact ⟨hdead, Option.map_eq_some_iff.mp halive⟩

/-! ## Members do not interfere -/

/-- What the call of `send_nack` depends on: the view of the peer that a
datagram is from. -/
def AsksOf (n : Nat) (v : Option (Peer MsgView)) (d : Datagram) : Prop :=
  d.Accepted n ∧ ∃ u, v = some u ∧ (u.sequence + 1 ≠ d.sequence ∧ u.sequence < d.sequence)
    ∧ (d.event.map (fun _ => ()) = .data ()
      ∨ d.event.map (fun _ => ()) = .hbeat u.session d.sequence)

theorem asksForNack_iff (hs : Serving h.endian n cb) (hn : sizeofHdr + sizeofHbeat ≤ n)
    (hlong : d.LongEnough) :
    AsksForNack h (.ok d.bytes) cb ↔ AsksOf n (peerView h.endian cb d.id) d := by
  obtain ⟨⟨hand, hown⟩, hsizes, -⟩ := hs
  have hsize := hsizes.allocMsg.size _ hown.allocMsg_lt
  have hheld := holds_received_cut h hsize (by omega) d
  have hacc := accepted_datagram (d := d) h hsize (by omega)
  generalize (received h (.ok d.bytes) cb).msgs (allocMsg cb).2 = m at hheld hacc
  have hid : m.hdrId h.endian = d.id := hheld.id
  have hseq : m.hdrSequence h.endian = d.sequence := hheld.sequence
  by_cases ha : d.Accepted n
  · rw [if_pos ha] at hacc
    have hev : eventOf h.endian m () = d.event.map fun _ => () := by
      rw [← hheld.event ha hn hlong, eventOf_map]
    constructor
    · rintro ⟨sequence, t, hasks⟩
      cases hasks with
      | data hacc' hev' hv hahead =>
        obtain rfl := Option.some.inj (hacc.symm.trans hacc')
        rw [hid] at hv
        rw [hseq] at hahead
        exact ⟨ha, Peer.map _ _, by rw [peerView, hv]; rfl, hahead, .inl (hev.symm.trans hev')⟩
      | hbeat hacc' hev' hv hahead =>
        obtain rfl := Option.some.inj (hacc.symm.trans hacc')
        rw [hid] at hv
        rw [hseq] at hahead hev'
        exact ⟨ha, Peer.map _ _, by rw [peerView, hv]; rfl, hahead, .inr (hev.symm.trans hev')⟩
    · rintro ⟨-, u, hu, hahead, hevent⟩
      obtain ⟨v, hv, rfl⟩ := Option.map_eq_some_iff.mp hu
      rw [← hid] at hv
      rw [← hseq, ← hev] at hevent
      rw [← hseq] at hahead
      rcases hevent with hdata | hhbeat
      · exact ⟨_, _, .data hacc hdata hv hahead⟩
      · exact ⟨_, _, .hbeat hacc hhbeat hv hahead⟩
  · rw [if_neg ha] at hacc
    constructor
    · rintro ⟨sequence, t, hasks⟩
      cases hasks with
      | data hacc' => cases hacc.symm.trans hacc'
      | hbeat hacc' => cases hacc.symm.trans hacc'
    · exact fun hview => absurd hview.1 ha

theorem peerView_receive {cb' : RmcCtrlBlock} (hs : Serving h.endian n cb)
    (hn : sizeofHdr + sizeofHbeat ≤ n) (hlong : d.LongEnough)
    (hr : V01.receive h cb (sender, d) = some cb') (x : UInt32) :
    peerView h.endian cb' x = if d.Accepted n ∧ d.id = x
      then Peer.next MsgView.sequence (peerView h.endian cb x) d.event
      else peerView h.endian cb x := by
  refine (congrArg Prod.fst ((followed_receive hs hn hlong hr).2 x)).trans ?_
  unfold Peer.follow
  split <;> rfl

/-- What runs of datagrams keep. -/
structure Running (e : Endian) (n : Nat) (cb : RmcCtrlBlock) : Prop where
  serving : Serving e n cb
  uncached : Uncached cb

theorem receive_isSome_iff (hr : Running h.endian n cb) (x : SockaddrIn × Datagram) :
    (receive h cb x).isSome
      ↔ LeaveReaches h cb x ∧ ¬ AsksForNack h (.ok x.2.bytes) cb := by
  obtain ⟨hdies, hsame⟩ := receive_of_uncached (h := h) (x := x) hr.uncached
  by_cases ha : AsksForNack h (.ok x.2.bytes) cb
  · rw [hdies ha]
    simp [ha]
  · rw [hsame ha, V01.receive_isSome_iff]
    simp [ha]

/-- **One step.** -/
theorem running_receive (hr : Running h.endian n cb) (hn : sizeofHdr + sizeofHbeat ≤ n)
    {x : SockaddrIn × Datagram} (hlong : x.2.LongEnough) (hx : receive h cb x = some cb') :
    Running h.endian n cb' ∧ V01.receive h cb x = some cb'
      ∧ ¬ AsksForNack h (.ok x.2.bytes) cb := by
  obtain ⟨-, hno⟩ := (receive_isSome_iff hr x).mp (Option.isSome_iff_exists.mpr ⟨cb', hx⟩)
  have hfree := ((receive_of_uncached hr.uncached).2 hno).symm.trans hx
  obtain ⟨⟨cb₁, flag⟩, hb, rfl⟩ := Option.map_eq_some_iff.mp hfree
  obtain ⟨hand, hown⟩ := hr.serving.owned
  refine ⟨⟨(followed_receive hr.serving hn hlong hfree).1, ?_⟩, hfree, hno⟩
  exact empty_mcastBranch hown hr.uncached (fun sequence t ha => hno ⟨sequence, t, ha⟩) hb

/-- A run that has a result is one of the unbounded daemon. -/
theorem run_free (hn : sizeofHdr + sizeofHbeat ≤ n) :
    ∀ {xs : List (SockaddrIn × Datagram)} {cb cb' : RmcCtrlBlock}, Running h.endian n cb →
      (∀ x ∈ xs, x.2.LongEnough) → run (receive h) cb xs = some cb' →
      run (V01.receive h) cb xs = some cb'
  | [], _, _, _, _, hrun => hrun
  | x :: xs, cb, cb', hr, hlong, hrun => by
      obtain ⟨cb₁, hx, hrest⟩ := run_cons_some hrun
      obtain ⟨hr₁, hfree, -⟩ := running_receive hr hn (hlong x (List.mem_cons_self ..)) hx
      rw [run, hfree]
      exact run_free hn hr₁ (fun y hy => hlong y (List.mem_cons_of_mem _ hy)) hrest

/-- If the daemon survives a sequence of datagrams, it survives those of one
peer alone: that peer is always in front of `membersq`, and its view is the
same. -/
theorem run_project (hn : sizeofHdr + sizeofHbeat ≤ n) (x : UInt32) :
    ∀ {xs : List (SockaddrIn × Datagram)} {cb cb' cbx : RmcCtrlBlock}, Running h.endian n cb →
      Running h.endian n cbx → peerView h.endian cb x = peerView h.endian cbx x → InFront x cbx →
      (∀ y ∈ xs, y.2.LongEnough) → run (receive h) cb xs = some cb' →
      ∃ cbx', run (receive h) cbx (project x xs) = some cbx'
  | [], _, _, cbx, _, _, _, _, _, _ => ⟨cbx, rfl⟩
  | (sender, d) :: xs, cb, cb', cbx, hr, hrx, hview, hfront, hlong, hrun => by
      obtain ⟨cb₁, hx, hrest⟩ := run_cons_some hrun
      have hd := hlong (sender, d) (List.mem_cons_self ..)
      have hmore : ∀ y ∈ xs, y.2.LongEnough := fun y hy => hlong y (List.mem_cons_of_mem _ hy)
      obtain ⟨hr₁, hfree, hno⟩ := running_receive hr hn hd hx
      have hfollow := peerView_receive hr.serving hn hd hfree x
      by_cases hid : d.id = x
      · obtain ⟨hand, hown⟩ := hrx.serving.owned
        have hsize := hrx.serving.sizes.allocMsg.size _ hown.allocMsg_lt
        have hnox : ¬ AsksForNack h (.ok d.bytes) cbx := by
          rw [asksForNack_iff hrx.serving hn hd, hid, ← hview, ← hid,
            ← asksForNack_iff hr.serving hn hd]
          exact hno
        have hreaches : LeaveReaches h cbx (sender, d) := by
          intro id mp harr hk
          obtain rfl : id = x := (arrived_id hsize (by omega) harr).trans hid
          exact ⟨0, Nat.zero_le _, .inr (hfront mp hk)⟩
        obtain ⟨cbx₁, hx₁⟩ := Option.isSome_iff_exists.mp
          ((receive_isSome_iff hrx (sender, d)).mpr ⟨hreaches, hnox⟩)
        obtain ⟨hrx₁, hfreex, -⟩ := running_receive hrx hn hd hx₁
        have hview₁ : peerView h.endian cb₁ x = peerView h.endian cbx₁ x := by
          rw [hfollow, peerView_receive hrx.serving hn hd hfreex x, hview]
        obtain ⟨cbx', hrunx⟩ := run_project hn x hr₁ hrx₁ hview₁
          (inFront_receive hfront hsize (by omega) hid hfreex) hmore hrest
        refine ⟨cbx', ?_⟩
        rw [show project x ((sender, d) :: xs) = (sender, d) :: project x xs from
          List.filter_cons_of_pos (by simpa using hid), run, hx₁]
        exact hrunx
      · have hview₁ : peerView h.endian cb₁ x = peerView h.endian cbx x := by
          rw [hfollow, if_neg fun hy => hid hy.2, hview]
        rw [show project x ((sender, d) :: xs) = project x xs from
          List.filter_cons_of_neg (by simpa using hid)]
        exact run_project hn x hr₁ hrx hview₁ hfront hmore hrest

theorem sizeofHbeat_le (a : InitArgs) :
    sizeofHdr + sizeofHbeat ≤ (max 128 a.maxMsgSize).toNat + sizeofHdr := by
  have hmax : (128 : Int) ≤ max 128 a.maxMsgSize := le_max_left ..
  simp only [sizeofHbeat]
  omega

theorem running_rmcastInit (e : Endian) (g : Garbage) (a : InitArgs) :
    Running e ((max 128 a.maxMsgSize).toNat + sizeofHdr) (rmcastInit g a) := by
  obtain ⟨hserving, hmembers⟩ := serving_rmcastInit e g a
  refine ⟨hserving, fun x v hv => ?_⟩
  rw [peerAt, hmembers] at hv
  cases hv

/-- When a fresh node gets to the end of a sequence of datagrams. -/
theorem run_receive_isSome_iff (h : Host) (g : Garbage) (a : InitArgs)
    {xs : List (SockaddrIn × Datagram)} (hlong : ∀ x ∈ xs, x.2.LongEnough) :
    (run (receive h) (rmcastInit g a) xs).isSome ↔ Checked (receive h)
      (fun cb x => LeaveReaches h cb x ∧ ¬ AsksForNack h (.ok x.2.bytes) cb) (rmcastInit g a) xs :=
  run_isSome_iff_checked
    (fun _ _ _ hr hx hstep => (running_receive hr (sizeofHbeat_le a) hx hstep).1)
    (fun _ x hr _ => receive_isSome_iff hr x) (running_rmcastInit h.endian g a) hlong

/-- A message of node `id`. -/
def dataBy (id sequence : UInt32) (b : UInt8) : SockaddrIn × Datagram :=
  (anyAddr, { dataOne sequence b with id := id })

/-- Nodes 2 and 3 join, send messages in turns, and node 3 leaves. -/
def twoTalk : List (SockaddrIn × Datagram) :=
  [hbeatBy 2, hbeatBy 3, dataBy 3 1 31, dataBy 2 1 21, dataBy 2 2 22, dataBy 3 1 31, leaveBy 3,
    dataBy 2 3 23]

/-- Nodes 2, 3 and 4 join, 3 and then 2 leave, and 4 sends a message. -/
def leavesFirst : List (SockaddrIn × Datagram) :=
  [hbeatBy 2, hbeatBy 3, hbeatBy 4, leaveBy 3, leaveBy 2, dataBy 4 1 11]

/-- Nodes 2 and 4 join, number 5 of node 2 comes, and 4 sends a message. -/
def gapFirst : List (SockaddrIn × Datagram) :=
  [hbeatBy 2, hbeatBy 4, dataBy 2 5 55, dataBy 4 1 11]

end Rms.V01.Bounded
