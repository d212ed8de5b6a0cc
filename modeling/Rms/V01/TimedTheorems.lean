/-
Rms.V01.TimedTheorems — heartbeats by the clock of the daemon.

A pass is a datagram, perhaps, and then the IPC branch, the periodic part
and the ack branch, unless the datagram cut it short (`pass_cases`).

After the first heartbeat the rate is between 1 and 5, whatever the
`float` arithmetic gave. So the reading of the clock at a heartbeat is at
least 1 more than at the heartbeat before, and no pass that gets to the
periodic part leaves a heartbeat overdue (`hbeats_spaced`).
-/
import Rms.V01.Timed
import Rms.V01.WindowTheorems

namespace Rms.V01

open Rms.ByteMem Rms.Util Rms.Runs

variable {h : Host} {s s' : Timed} {p : TimedPass}

/-! ## The parts of a pass -/

/-- What the datagram of a pass did to the control block. -/
inductive DatagramPart (h : Host) (cb cb' : RmcCtrlBlock) : Prop
  | none (same : cb' = cb)
  | some (sender : SockaddrIn) (r : RecvResult) (flag : Bool)
      (branch : mcastBranch h sender r cb = .some (cb', flag))

theorem DatagramPart.sameSender {cb cb' : RmcCtrlBlock} (hd : DatagramPart h cb cb') :
    SameSender cb cb' := by
  cases hd with
  | none same => exact same ▸ SameSender.refl cb
  | some sender r flag hb => exact sameSender_mcastBranch h sender r hb

theorem pass_cases (hs : s.pass h p = some s') :
    ∃ cb, DatagramPart h s.cb cb
      ∧ (s' = { s with cb := cb }
        ∨ ∃ s₁ cb₁, (Timed.ipc h p { s with cb := cb }).periodic h p = some s₁
          ∧ ackBranch s₁.cb = some cb₁ ∧ s' = { s₁ with cb := cb₁ }) := by
  have hlower : ∀ {s : Timed}, s.lower h p = some s' → ∃ s₁ cb₁,
      (s.ipc h p).periodic h p = some s₁ ∧ ackBranch s₁.cb = some cb₁
        ∧ s' = { s₁ with cb := cb₁ } := by
    intro s hl
    unfold Timed.lower at hl
    split at hl
    · cases hl
    · rename_i s₁ hs₁
      obtain ⟨cb₁, hack, rfl⟩ := Option.map_eq_some_iff.mp hl
      exact ⟨s₁, cb₁, hs₁, hack, rfl⟩
  unfold Timed.pass at hs
  split at hs
  · exact ⟨s.cb, .none rfl, .inr (hlower hs)⟩
  · rename_i sender r _
    split at hs
    · cases hs
    · rename_i cb hb
      obtain rfl := Option.some.inj hs
      exact ⟨cb, .some sender r true hb, .inl rfl⟩
    · rename_i cb hb
      exact ⟨cb, .some sender r false hb, .inr (hlower hs)⟩

theorem periodic_cases {s₁ : Timed} (hs : s.periodic h p = some s₁) :
    (s.hbeatRate ≤ p.now - s.lastHbeat ∧ ∃ cb, hbeatBranch h s.cb = some cb
        ∧ s₁ = { s with
            cb := cb, lastHbeat := p.now, hbeatRate := clampRate p.rate
            beats := p.now :: s.beats })
      ∨ (p.now - s.lastHbeat < s.hbeatRate ∧ s₁ = s) := by
  unfold Timed.periodic at hs
  split at hs
  · rename_i hdue
    obtain ⟨cb, hb, rfl⟩ := Option.map_eq_some_iff.mp hs
    exact .inl ⟨hdue, cb, hb, rfl⟩
  · rename_i hdue
    exact .inr ⟨Int.not_le.mp hdue, (Option.some.inj hs).symm⟩

@[simp] theorem ipc_cb (h : Host) (p : TimedPass) (s : Timed) :
    (s.ipc h p).cb = p.ipc.elim s.cb fun x => ipcBranch h x s.cb := by
  unfold Timed.ipc
  cases p.ipc <;> rfl

theorem clampRate_le (rate : Int) : 1 ≤ clampRate rate ∧ clampRate rate ≤ 5 := by
  unfold clampRate
  split
  · omega
  · split <;> omega

/-- The pass is a pass of the loop without the clock. -/
theorem pass_iteration (h : Host) (s : Timed) (p : TimedPass) :
    (s.pass h p).map Timed.cb
      = iteration h s.cb ⟨p.mcast, p.ipc, decide (p.now - s.lastHbeat ≥ s.hbeatRate)⟩ := by
  have hlower : ∀ s : Timed, (s.lower h p).map Timed.cb
      = afterMcast h ⟨p.mcast, p.ipc, decide (p.now - s.lastHbeat ≥ s.hbeatRate)⟩ s.cb := by
    intro s
    rw [afterMcast_eq, Timed.lower, Timed.periodic]
    by_cases hdue : p.now - s.lastHbeat ≥ s.hbeatRate
    · rw [if_pos (show p.now - (s.ipc h p).lastHbeat ≥ (s.ipc h p).hbeatRate from hdue), ipc_cb]
      simp only [hdue, decide_true, if_true]
      cases hbeatBranch h (p.ipc.elim s.cb fun x => ipcBranch h x s.cb) with
      | none => rfl
      | some cb => simp [Function.comp_def]
    · rw [if_neg (show ¬ p.now - (s.ipc h p).lastHbeat ≥ (s.ipc h p).hbeatRate from hdue)]
      simp [hdue, Function.comp_def, ipc_cb]
  unfold Timed.pass iteration
  cases hm : p.mcast with
  | none => simpa [hm] using hlower s
  | some x =>
    obtain ⟨sender, r⟩ := x
    dsimp only
    cases hb : mcastBranch h sender r s.cb with
    | none => rfl
    | some y =>
      obtain ⟨cb, _ | _⟩ := y
      · simpa [hm] using hlower { s with cb := cb }
      · rfl

/-! ## Heartbeats on the wire -/

theorem countP_isHbeat (sent : List Sendto) :
    sent.countP isHbeat
      = (sent.filter toGroup).countP fun x => x.bytes[1]? == some MsgType.hbeat.toByte := by
  rw [List.countP_filter]
  exact List.countP_congr fun x _ => by simp [isHbeat, and_comm]

theorem countP_isHbeat_congr {cb cb' : RmcCtrlBlock} (hs : SameSender cb cb') :
    cb'.sent.countP isHbeat = cb.sent.countP isHbeat := by
  rw [countP_isHbeat, countP_isHbeat, hs.group]

/-- The IPC branch multicasts DATA only. -/
theorem countP_isHbeat_ipcBranch (h : Host) (i : IpcInput) (cb : RmcCtrlBlock) :
    (ipcBranch h i cb).sent.countP isHbeat = cb.sent.countP isHbeat := by
  rcases ipcBranch_cases h i cb with ⟨hsame, -⟩ | ⟨-, -, hsend⟩
  · rw [countP_isHbeat_congr hsame]
  · have hrecv := countP_isHbeat_congr (sameSender_ipcRecv h i cb)
    rw [hsend]
    generalize ipcRecv h i cb = r at *
    have hsent : (ipcSend h i.sendto (ipcLen h i cb) r.2 r.1).sent
        = r.1.sent ++ [⟨.mcast, readBytes
            (dataFill h r.1.self (ipcLen h i cb) (r.1.msgs r.2)).buf 0
            (sizeT (ipcLen h i cb + sizeofHdr)), decide (i.sendto ≤ 0)⟩] := by
      unfold ipcSend
      dsimp only
      split <;> simp [RmcCtrlBlock.sendto, RmcCtrlBlock.setMsg]
    have hnot : isHbeat ⟨.mcast, readBytes
        (dataFill h r.1.self (ipcLen h i cb) (r.1.msgs r.2)).buf 0
        (sizeT (ipcLen h i cb + sizeofHdr)), decide (i.sendto ≤ 0)⟩ = false := by
      have htype := (dataFill_header h r.1.self (ipcLen h i cb) (r.1.msgs r.2)).1
      have hbyte : ∀ (m : Mem) (n : Nat), m 1 = MsgType.data.toByte →
          ((readBytes m 0 n)[1]? == some MsgType.hbeat.toByte) = false := by
        intro m n hm
        by_cases hn : 1 < n
        · rw [readBytes_getElem? m 0 n 1 hn, Nat.zero_add, hm]
          rfl
        · rw [List.getElem?_eq_none (by rw [readBytes_length]; omega)]
          rfl
      simp only [isHbeat, hbyte _ _ htype, Bool.and_false]
    rw [hsent, List.countP_append, List.countP_singleton, hnot, hrecv]
    rfl

theorem countP_isHbeat_hbeatBranch {cb cb' : RmcCtrlBlock} (hb : hbeatBranch h cb = some cb') :
    cb'.sent.countP isHbeat = cb.sent.countP isHbeat + 1 := by
  obtain ⟨v, acks, -, -, hsent, -⟩ := sendHbeat_sent h (some cb.hostname) 0 hb
  rw [hsent, List.countP_append, List.countP_singleton]
  rfl

theorem ackBranch_sent {cb cb' : RmcCtrlBlock} (hb : ackBranch cb = some cb') :
    cb'.sent = cb.sent := by
  obtain ⟨q, sync, o, b, s, rfl⟩ := ackBranch_eq hb
  rfl

/-! ## Spacing -/

/-- The readings at the heartbeats, and the rate. -/
structure Beating (s : Timed) : Prop where
  count : s.cb.sent.countP isHbeat = s.beats.length
  chain : s.beats.IsChain fun later earlier => earlier + 1 ≤ later
  last : ∀ b ∈ s.beats.head?, b = s.lastHbeat ∧ 1 ≤ s.hbeatRate
  rate : s.hbeatRate ≤ 5

theorem Beating.ipc (hb : Beating s) : Beating (s.ipc h p) := by
  refine ⟨?_, hb.chain, hb.last, hb.rate⟩
  rw [ipc_cb]
  refine Eq.trans ?_ hb.count
  cases p.ipc with
  | none => rfl
  | some x => exact countP_isHbeat_ipcBranch h x s.cb

theorem Beating.periodic (hb : Beating s) {s₁ : Timed} (hs : s.periodic h p = some s₁) :
    Beating s₁ := by
  rcases periodic_cases hs with ⟨hdue, cb, hbranch, rfl⟩ | ⟨-, rfl⟩
  · obtain ⟨hpos, hle⟩ := clampRate_le p.rate
    refine ⟨?_, ?_, ?_, hle⟩
    · rw [List.length_cons, ← hb.count]
      exact countP_isHbeat_hbeatBranch hbranch
    · have hlast := hb.last
      have hchain := hb.chain
      cases hbeats : s.beats with
      | nil => exact List.IsChain.singleton _
      | cons b rest =>
        rw [hbeats] at hlast hchain
        obtain ⟨hb', hrate⟩ := hlast b rfl
        refine List.isChain_cons_cons.mpr ⟨?_, hchain⟩
        omega
    · intro b hmem
      obtain rfl := Option.some.inj hmem
      exact ⟨rfl, hpos⟩
  · exact hb

/-- A pass that gets to the periodic part leaves no heartbeat overdue. -/
theorem Beating.recent (hb : Beating s) {s₁ : Timed} (hs : (s.ipc h p).periodic h p = some s₁) :
    s₁.clock = some p.now ∧ p.now - s₁.lastHbeat < 5 := by
  have hrate : (s.ipc h p).hbeatRate ≤ 5 := hb.rate
  rcases periodic_cases hs with ⟨-, cb, -, rfl⟩ | ⟨hnot, rfl⟩
  · refine ⟨rfl, ?_⟩
    simp
  · exact ⟨rfl, Int.lt_of_lt_of_le hnot hrate⟩

theorem Beating.datagram (hb : Beating s) {cb : RmcCtrlBlock} (hd : DatagramPart h s.cb cb) :
    Beating { s with cb := cb } :=
  ⟨(countP_isHbeat_congr hd.sameSender).trans hb.count, hb.chain, hb.last, hb.rate⟩

/-- The invariant of `hbeats_spaced`. -/
structure Spaced (s : Timed) : Prop where
  beating : Beating s
  recent : ∀ now ∈ s.clock, now - s.lastHbeat < 5

theorem Spaced.pass (hsp : Spaced s) (hs : s.pass h p = some s') : Spaced s' := by
  obtain ⟨cb, hd, rfl | ⟨s₁, cb₁, hs₁, hack, rfl⟩⟩ := pass_cases hs
  · exact ⟨hsp.beating.datagram hd, hsp.recent⟩
  · have hb := hsp.beating.datagram hd
    have hb₁ := hb.ipc.periodic hs₁
    obtain ⟨hclock, hrecent⟩ := hb.recent hs₁
    refine ⟨⟨?_, hb₁.chain, hb₁.last, hb₁.rate⟩, ?_⟩
    · rw [ackBranch_sent hack]
      exact hb₁.count
    · intro now hnow
      obtain rfl := Option.some.inj (hclock.symm.trans hnow)
      exact hrecent

/-- **Heartbeats by the clock.** Whatever arrives, whatever the clients send
and whatever the rate computation gives: every heartbeat that was multicast
has its reading of the clock, each at least 1 more than the one before, and
after every pass that got to the periodic part the reading at the latest
heartbeat is less than 5 below that of the pass. -/
theorem hbeats_spaced (h : Host) (g : Garbage) (a : InitArgs) (hbRateSec : Int)
    (ps : List TimedPass) :
    Throughout (Timed.pass h)
      (fun s => s.cb.sent.countP isHbeat = s.beats.length
        ∧ s.beats.IsChain (fun later earlier => earlier + 1 ≤ later)
        ∧ (∀ b ∈ s.beats.head?, b = s.lastHbeat)
        ∧ ∀ now ∈ s.clock, now - s.lastHbeat < 5)
      (.start g a hbRateSec) ps := by
  refine throughout_of_invariant (I := Spaced) (fun s p s' hsp hs => hsp.pass hs) ?_ ?_
  · intro s hsp
    exact ⟨hsp.beating.count, hsp.beating.chain, fun b hb => (hsp.beating.last b hb).1, hsp.recent⟩
  · obtain ⟨-, -, -, -, -, -, -, hsent, -⟩ := rmcastInit_frame g a
    refine ⟨⟨?_, List.IsChain.nil, nofun, ?_⟩, nofun⟩
    · simp only [Timed.start, hsent]
      rfl
    · simp only [Timed.start]
      split <;> omega

end Rms.V01
