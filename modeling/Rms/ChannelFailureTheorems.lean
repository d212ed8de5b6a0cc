/-
Rms.ChannelFailureTheorems — a channel after a failed operation.

`rms_channel_connect` and `rms_channel_join` write to the `meta_channel`
first and look at the results of the system calls afterwards, and neither
puts anything back. `rms_channel_connect` even frees the `meta_channel`
if it gets no socket, while the channel stays in `mq_channels`.

So a failure leaves the channel as it was only where the fields happened
to have their new values before (`failed_unchanged_iff`): for
`rms_channel_connect` never if it gets no socket (`ConnectKeeps`), and
for `rms_channel_join` in a call that repeats the one before
(`JoinKeeps`).
-/
import Rms.Channel

namespace Rms.Channel

variable {cb cb' : McastBlock} {c mp : Nat} {port ret : Int} {s : SockCalls}

/-! ## What should stay -/

/-- The `meta_channel` of a channel. -/
def McastBlock.metaOf (cb : McastBlock) (c : Nat) : Option Nat :=
  (cb.channels c).bind (·.metaChannel)

/-- The fields of a `meta_channel` that say where the channel goes. -/
def McastBlock.fields (cb : McastBlock) (mp : Nat) : Int × Int × Bool × SockaddrIn × Bool :=
  ((cb.metas mp).port, (cb.metas mp).sock, (cb.metas mp).isMcast, (cb.mcasts mp).toAddr,
    (cb.metas mp).connected)

/-- The channel has the `meta_channel` it had, with the same fields, and is
queued as it was. -/
structure Unchanged (c : Nat) (cb cb' : McastBlock) : Prop where
  metaOf : cb'.metaOf c = cb.metaOf c
  fields : ∀ mp, cb.metaOf c = some mp → cb'.fields mp = cb.fields mp
  mqChannels : cb'.mqChannels = cb.mqChannels
  mqChannelsTmp : cb'.mqChannelsTmp = cb.mqChannelsTmp

/-- A call that returns −1 leaves the channel as it was. -/
def FailsClean (c : Nat) (cb : McastBlock) (r : Option (Int × McastBlock)) : Prop :=
  ∀ cb', r = some (-1, cb') → Unchanged c cb cb'

/-- A call without a result does not fail. -/
theorem failsClean_none {r : Option (Int × McastBlock)} (hr : r = none) : FailsClean c cb r := by
  intro cb' h
  rw [hr] at h
  cases h

theorem failsClean_zero {r : Option (Int × McastBlock)} (hr : r = some (0, cb')) :
    FailsClean c cb r := by
  intro cb'' h
  rw [hr] at h
  cases h

/-- Only the `meta_channel` at `mp` and the error are written to, and its
fields come out as `f`. -/
structure Writes (mp : Nat) (f : Int × Int × Bool × SockaddrIn × Bool) (cb cb' : McastBlock) :
    Prop where
  channels : cb'.channels = cb.channels
  fields : cb'.fields mp = f
  mqChannels : cb'.mqChannels = cb.mqChannels
  mqChannelsTmp : cb'.mqChannelsTmp = cb.mqChannelsTmp

/-- A failure that only writes is clean if it writes what was there. -/
theorem Writes.clean_iff {f : Int × Int × Bool × SockaddrIn × Bool}
    {r : Option (Int × McastBlock)} (h : Writes mp f cb cb') (hmp : cb.metaOf c = some mp)
    (hr : r = some (-1, cb')) : FailsClean c cb r ↔ f = cb.fields mp := by
  constructor
  · intro hclean
    rw [← h.fields]
    exact (hclean cb' hr).fields mp hmp
  · intro hf cb'' hcb''
    obtain rfl : cb' = cb'' := by simpa [hr] using hcb''
    refine ⟨by simp [McastBlock.metaOf, h.channels], ?_, h.mqChannels, h.mqChannelsTmp⟩
    intro mp' hmp'
    obtain rfl := Option.some.inj (hmp.symm.trans hmp')
    exact h.fields.trans hf

/-! ## Connecting -/

/-- There is a socket, and if the channel is connected already, the call sets
nothing to a new value. -/
def ConnectKeeps (mc : RmsMetaChannel) (port : Int) (s : SockCalls) : Prop :=
  0 ≤ s.socket ∧ 0 ≤ s.bind
    ∧ (mc.connected = true →
        s.socket = mc.sock ∧ (mc.port ≤ 0 → port = mc.port) ∧ mc.isMcast = false)

theorem initDgramSock_nonneg : 0 ≤ initDgramSock s ↔ 0 ≤ s.socket ∧ 0 ≤ s.bind := by
  unfold initDgramSock
  split
  · omega
  · split <;> omega

theorem initDgramSock_of_nonneg (h : 0 ≤ s.socket ∧ 0 ≤ s.bind) :
    initDgramSock s = s.socket := by
  rw [initDgramSock, if_neg (by omega), if_neg (by omega)]

/-- The three ways `rms_channel_connect` can go. -/
theorem connect_cases (hmp : cb.metaOf c = some mp) (port : Int) (s : SockCalls) :
    if initDgramSock s < 0 then
      ∃ cb', rmsChannelConnectSock cb c port s = some (-1, cb') ∧ cb'.metaOf c = none
    else if (cb.metas mp).connected then
      ∃ cb', rmsChannelConnectSock cb c port s = some (-1, cb')
        ∧ Writes mp (if (cb.metas mp).port ≤ 0 then port else (cb.metas mp).port,
            initDgramSock s, false, (cb.mcasts mp).toAddr, true) cb cb'
    else ∃ cb', rmsChannelConnectSock cb c port s = some (0, cb') := by
  obtain ⟨channel, hchannel, hmeta⟩ := Option.bind_eq_some_iff.mp hmp
  simp only [rmsChannelConnectSock, rmsChannelConnect, hchannel, hmeta]
  split
  · exact ⟨_, rfl, by simp [McastBlock.metaOf, Rmscb.setChannel]⟩
  · split
    · rename_i hconn
      exact ⟨_, rfl, rfl, by simp [McastBlock.fields, Rmscb.setMeta, hconn], rfl, rfl⟩
    · exact ⟨_, rfl⟩

theorem connect_clean_iff (hmp : cb.metaOf c = some mp) (port : Int) (s : SockCalls) :
    FailsClean c cb (rmsChannelConnectSock cb c port s)
      ↔ ConnectKeeps (cb.metas mp) port s := by
  have hcases := connect_cases hmp port s
  split at hcases
  · rename_i hsock
    obtain ⟨cb', hr, hgone⟩ := hcases
    constructor
    · intro hclean
      have hsame := (hclean cb' hr).metaOf
      rw [hgone, hmp] at hsame
      cases hsame
    · intro ⟨hsocket, hbind, _⟩
      have := initDgramSock_nonneg.mpr ⟨hsocket, hbind⟩
      omega
  · have hnonneg := initDgramSock_nonneg.mp (by omega : 0 ≤ initDgramSock s)
    split at hcases
    · rename_i hconn
      obtain ⟨cb', hr, hwrites⟩ := hcases
      rw [hwrites.clean_iff hmp hr, initDgramSock_of_nonneg hnonneg]
      simp only [ConnectKeeps, McastBlock.fields, Prod.mk.injEq, hnonneg, hconn]
      grind
    · rename_i hconn
      obtain ⟨cb', hr⟩ := hcases
      exact iff_of_true (failsClean_zero hr) ⟨hnonneg.1, hnonneg.2, fun h => absurd h hconn⟩

/-! ## Joining -/

/-- The call sets port and socket to the values they have, and the channel is
a multicast channel already. -/
def JoinSame (mc : RmsMetaChannel) (port : Int) (s : SockCalls) : Prop :=
  port = mc.port ∧ initDgramSock s = mc.sock ∧ mc.isMcast = true

/-- Where a `setsockopt` fails, nothing was set to a new value before. The
last one comes behind the new address. -/
def JoinKeeps (env : McastEnv) (mc : RmsMetaChannel) (mcast : MetaMcast)
    (group : Option (List UInt8)) (port : Int) (s : SockCalls) : Prop :=
  (s.ttl < 0 ∨ s.loop ≠ 0 → JoinSame mc port s)
    ∧ (0 ≤ s.ttl → s.loop = 0 → s.member < 0 → ∀ g, (group <|> mcast.group) = some g →
        JoinSame mc port s ∧ mcast.toAddr = env.toAddr g port)

/-- The ways `rms_channel_join` can go. -/
theorem join_cases (env : McastEnv) (hmp : cb.metaOf c = some mp) (group : Option (List UInt8))
    (port : Int) (s : SockCalls) :
    if s.ttl < 0 ∨ s.loop ≠ 0 then
      ∃ cb', rmsChannelJoin env cb c group port s = some (-1, cb')
        ∧ Writes mp (port, initDgramSock s, true, (cb.mcasts mp).toAddr,
            (cb.metas mp).connected) cb cb'
    else (group <|> (cb.mcasts mp).group).elim (rmsChannelJoin env cb c group port s = none)
      fun g => if s.member < 0 then
          ∃ cb', rmsChannelJoin env cb c group port s = some (-1, cb')
            ∧ Writes mp (port, initDgramSock s, true, env.toAddr g port,
                (cb.metas mp).connected) cb cb'
        else ∃ cb', rmsChannelJoin env cb c group port s = some (0, cb') := by
  rw [McastBlock.metaOf] at hmp
  simp only [rmsChannelJoin, hmp]
  by_cases httl : s.ttl < 0
  · rw [if_pos (.inl httl), if_pos httl]
    exact ⟨_, rfl, rfl, by simp [McastBlock.fields, Rmscb.setMeta], rfl, rfl⟩
  · rw [if_neg httl]
    by_cases hloop : s.loop ≠ 0
    · rw [if_pos (.inr hloop), if_pos hloop]
      exact ⟨_, rfl, rfl, by simp [McastBlock.fields, Rmscb.setMeta], rfl, rfl⟩
    · rw [if_neg (by simp [httl, hloop]), if_neg hloop]
      cases group <|> (cb.mcasts mp).group with
      | none => rfl
      | some g =>
        simp only [Option.elim_some]
        split
        · exact ⟨_, rfl, rfl, by simp [McastBlock.fields, Rmscb.setMeta], rfl, rfl⟩
        · exact ⟨_, rfl⟩

theorem join_clean_iff (env : McastEnv) (hmp : cb.metaOf c = some mp)
    (group : Option (List UInt8)) (port : Int) (s : SockCalls) :
    FailsClean c cb (rmsChannelJoin env cb c group port s)
      ↔ JoinKeeps env (cb.metas mp) (cb.mcasts mp) group port s := by
  have hcases := join_cases env hmp group port s
  unfold JoinKeeps JoinSame
  split at hcases
  · obtain ⟨cb', hr, hwrites⟩ := hcases
    rw [hwrites.clean_iff hmp hr]
    simp only [McastBlock.fields, Prod.mk.injEq]
    grind
  · cases hgroup : group <|> (cb.mcasts mp).group with
    | none =>
      rw [hgroup, Option.elim_none] at hcases
      exact iff_of_true (failsClean_none hcases) ⟨by grind, by simp⟩
    | some g =>
      rw [hgroup, Option.elim_some] at hcases
      split at hcases
      · obtain ⟨cb', hr, hwrites⟩ := hcases
        rw [hwrites.clean_iff hmp hr]
        simp only [McastBlock.fields, Prod.mk.injEq]
        grind
      · obtain ⟨cb', hr⟩ := hcases
        exact iff_of_true (failsClean_zero hr) (by grind)

/-! ## Both -/

/-- **A failed operation leaves the channel as it was** exactly if it wrote
nothing new before it failed. A channel without a `meta_channel` cannot
be operated on. -/
theorem failed_unchanged_iff (env : McastEnv) (cb : McastBlock) (c : Nat)
    (group : Option (List UInt8)) (port : Int) (s : SockCalls) :
    (FailsClean c cb (rmsChannelConnectSock cb c port s)
        ↔ ∀ mp, cb.metaOf c = some mp → ConnectKeeps (cb.metas mp) port s)
      ∧ (FailsClean c cb (rmsChannelJoin env cb c group port s)
        ↔ ∀ mp, cb.metaOf c = some mp →
            JoinKeeps env (cb.metas mp) (cb.mcasts mp) group port s) := by
  cases hmp : cb.metaOf c with
  | none =>
    have hconnect : rmsChannelConnectSock cb c port s = none := by
      rw [McastBlock.metaOf] at hmp
      simp only [rmsChannelConnectSock, rmsChannelConnect]
      cases hchannel : cb.channels c with
      | none => rfl
      | some channel =>
        rw [hchannel, Option.bind_some] at hmp
        simp only [hmp, Option.map_none]
    have hjoin : rmsChannelJoin env cb c group port s = none := by
      rw [McastBlock.metaOf] at hmp
      simp only [rmsChannelJoin, hmp]
    exact ⟨iff_of_true (failsClean_none hconnect) (by simp),
      iff_of_true (failsClean_none hjoin) (by simp)⟩
  | some mp =>
    simp only [Option.some.injEq, forall_eq']
    exact ⟨connect_clean_iff hmp port s, join_clean_iff env hmp group port s⟩

theorem zero_unmarked : (0 : Int) ≠ 321 := by decide

/-- A control block with one channel, opened and registered. -/
def opened : Option McastBlock :=
  (rmsChannelOpen (start (fun _ => ⟨0, zero_unmarked⟩) fun _ => metaChannelInit 0) 0
    (List.replicate 8 0)).map fun r => ⟨r.2, fun _ => ⟨none, ⟨0, 0, 0, 0⟩, false⟩⟩

/-- If `socket` fails, the registered channel has no `meta_channel` any more.
If the first `setsockopt` fails, port, socket and kind have changed. -/
theorem failed_unchanged_fails :
    ((opened.bind fun cb => rmsChannelConnectSock cb 0 5000 ⟨-1, 0, 0, 0, 0⟩).map fun r =>
        (r.1, r.2.mqChannels, r.2.metaOf 0)) = some (-1, [0], none)
      ∧ (opened.map fun cb => cb.fields 0) = some (0, 0, false, ⟨0, 0, 0, 0⟩, false)
      ∧ ((opened.bind fun cb =>
            rmsChannelJoin ⟨fun _ => 0, -1⟩ cb 0 (some [49]) 5000 ⟨3, 0, -1, 0, 0⟩).map fun r =>
          (r.1, r.2.fields 0)) = some (-1, 5000, 3, true, ⟨0, 0, 0, 0⟩, false) := by
  exact ⟨by decide, by decide, by decide⟩

end Rms.Channel
