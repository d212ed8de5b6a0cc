/-
Rms.V01.ProcessTimed — how long a process keeps a message, by its clock.

The loop sends a heartbeat only if the clock has moved on by `hbeat_rate`
since the last one, and without acks only heartbeats purge: the third
heartbeat after a message drops it. After the first heartbeat the rate is
1 at least (`clampRate_le`). So a message outlives every pass whose
reading is at most one more than the reading of the pass that sent it
(`kept_two_readings`).

Readings are values of `tv_sec`. The loop compares nothing finer, so two
readings that differ by 1 can be a microsecond apart, or almost two
seconds.
-/
import Rms.V01.ProcessRuns
import Rms.V01.TimedTheorems

namespace Rms.V01

open Rms.ByteMem Rms.Util Rms.Runs

namespace Process

/-! ## The clock -/

/-- A branch of the loop, with the value of `timeout.tv_sec` that its pass
works with and the rate that the pass computes, before the clamp. -/
structure Tick where
  branch : Branch
  now : Int
  rate : Int

/-- A process with what it knows of the time. The history variables are the
latest reading, and for every number the reading of the pass in which it
was sent. -/
structure Clocked where
  process : Process
  lastHbeat : Int
  hbeatRate : Int
  clock : Option Int
  sentAt : UInt32 → Int

namespace Clocked

/-- `rmcast_init`, with the third argument. -/
def start (g : Garbage) (garbage : Nat → Hashtable.HtblEntry Nat) (a : InitArgs)
    (hbRateSec : Int) : Clocked :=
  { process := Process.start g garbage a, lastHbeat := 0
    hbeatRate := if hbRateSec > 5 ∨ hbRateSec < 0 then 5 else hbRateSec
    clock := none, sentAt := fun _ => 0 }

/-- A heartbeat has to be due. -/
def due (s : Clocked) (t : Tick) : Bool :=
  match t.branch with
  | .hbeat => decide (t.now - s.lastHbeat ≥ s.hbeatRate)
  | _ => true

def after (s : Clocked) (t : Tick) (s' : Process) : Clocked :=
  { process := s'
    lastHbeat := match t.branch with
      | .hbeat => t.now
      | _ => s.lastHbeat
    hbeatRate := match t.branch with
      | .hbeat => clampRate t.rate
      | _ => s.hbeatRate
    clock := some t.now
    sentAt := if s'.cb.self.sequence = s.process.cb.self.sequence then s.sentAt
      else Function.update s.sentAt s.process.cb.self.sequence t.now }

/-- One branch, if it is due. -/
def step (h : Host) (s : Clocked) (t : Tick) : Option Clocked :=
  if s.due t then (s.process.branch h t.branch).map (s.after t)
  else some { s with clock := some t.now }

end Clocked

/-- The clock does not go back, there is a number left for a message, and no
removal links an entry of a bucket into the pool. -/
def Steadily (s : Clocked) (t : Tick) : Prop :=
  (∀ now ∈ s.clock, now ≤ t.now) ∧ s.process.cb.self.sequence.toNat + 1 < 4294967296
    ∧ (s.due t = true → PoolSafe s.process (.branch t.branch))

instance (s : Clocked) (t : Tick) : Decidable (Steadily s t) :=
  inferInstanceAs (Decidable (_ ∧ _ ∧ _))

variable {h : Host} {s : Clocked} {t : Tick} {s' : Process} {cb cb' : RmcCtrlBlock} {b : Branch}

/-! ## The marks -/

/-- The count of sends may be taken to be the next number. -/
theorem unacked_recount {marks : List UInt32} {n : Nat} (u : Unacked ⟨cb, marks, n⟩) :
    Unacked ⟨cb, marks, cb.self.sequence.toNat⟩ :=
  { u with sends := Nat.le_refl _ }

theorem unacked_branch {marks : List UInt32}
    (u : Unacked ⟨cb, marks, cb.self.sequence.toNat⟩)
    (hmax : cb.self.sequence.toNat + 1 < 4294967296) (hb : V01.branch h cb b = some cb') :
    ∃ marks', Unacked ⟨cb', marks', cb'.self.sequence.toNat⟩ := by
  have u' := unacked_step h ⟨cb, marks, cb.self.sequence.toNat⟩ b _ (fun _ => u)
    (Option.map_eq_some_iff.mpr ⟨cb', hb, rfl⟩)
  refine ⟨_, unacked_recount (u' ?_)⟩
  cases b with
  | ipc i => exact hmax
  | mcast sender r => exact UInt32.toNat_lt _
  | hbeat => exact UInt32.toNat_lt _
  | ack => exact UInt32.toNat_lt _

/-- A heartbeat moves the marks on. -/
theorem hbeatBranch_marks (hb : V01.hbeatBranch h cb = some cb') :
    cb'.self.sequence = cb.self.sequence ∧ cb'.hbSeqP1 = cb.self.sequence
      ∧ cb'.hbSeqP2 = cb.hbSeqP1 ∧ cb'.hbSeqP3 = cb.hbSeqP2 := by
  obtain ⟨n, q, cs, buf, nmsgs, f, sent, -, -, rfl⟩ := hbeatBranch_spec hb
  obtain ⟨o, b, t, hframe⟩ := purge_frame cb.hbSeqP2
    { cb with membersq := q, bufmsgq := buf, nmsgs := nmsgs, msgs := f, sent := sent
              hbSeqP1 := cb.self.sequence, hbSeqP2 := cb.hbSeqP1
              hbSeqP3 := cb.hbSeqP2 }
  rw [hframe]
  exact ⟨rfl, rfl, rfl, rfl⟩

/-- The other branches leave them alone. -/
theorem branch_marks (hack : cb.hbAck = false) (hno : b ≠ .hbeat)
    (hb : V01.branch h cb b = some cb') :
    cb'.hbSeqP1 = cb.hbSeqP1 ∧ cb'.hbSeqP2 = cb.hbSeqP2 ∧ cb'.hbSeqP3 = cb.hbSeqP3
      ∧ cb'.self.sequence.toNat ≤ cb.self.sequence.toNat + 1 := by
  cases b with
  | mcast sender r =>
    obtain ⟨⟨cb₁, flag⟩, hm, rfl⟩ := Option.map_eq_some_iff.mp hb
    have hsame := sameSender_mcastBranch h sender r hm
    exact ⟨hsame.hbSeqP1, hsame.hbSeqP2, hsame.hbSeqP3, hsame.sequence ▸ Nat.le_succ _⟩
  | ipc i =>
    obtain rfl := Option.some.inj hb
    obtain ⟨-, hp1, hp2, hp3, -, hseq⟩ := ipcBranch_frame h i cb
    exact ⟨hp1, hp2, hp3, hseq⟩
  | hbeat => exact absurd rfl hno
  | ack =>
    obtain rfl := Option.some.inj (hb.symm.trans (ackBranch_off hack))
    exact ⟨rfl, rfl, rfl, Nat.le_succ _⟩

/-! ## The readings -/

theorem after_hbeat (s : Clocked) (s' : Process) (heq : t.branch = .hbeat) :
    (s.after t s').lastHbeat = t.now ∧ (s.after t s').hbeatRate = clampRate t.rate := by
  simp only [Clocked.after, heq, and_self]

theorem after_other (s : Clocked) (s' : Process) (hno : t.branch ≠ .hbeat) :
    (s.after t s').lastHbeat = s.lastHbeat ∧ (s.after t s').hbeatRate = s.hbeatRate := by
  obtain ⟨b, now, rate⟩ := t
  cases b with
  | hbeat => exact absurd rfl hno
  | mcast sender r => exact ⟨rfl, rfl⟩
  | ipc i => exact ⟨rfl, rfl⟩
  | ack => exact ⟨rfl, rfl⟩

theorem sentAt_after {k : UInt32} (hk : k < s.process.cb.self.sequence) :
    (s.after t s').sentAt k = s.sentAt k := by
  have hne : k ≠ s.process.cb.self.sequence := by
    rintro rfl
    exact UInt32.lt_irrefl _ hk
  simp only [Clocked.after]
  split
  · rfl
  · exact Function.update_of_ne hne _ _

/-- What is sent by a branch is sent at its reading. -/
theorem sentAt_after_le (hold : ∀ k < s.process.cb.self.sequence, s.sentAt k ≤ t.now)
    (hseq : s'.cb.self.sequence.toNat ≤ s.process.cb.self.sequence.toNat + 1) {k : UInt32}
    (hk : k < s'.cb.self.sequence) : (s.after t s').sentAt k ≤ t.now := by
  by_cases hlt : k < s.process.cb.self.sequence
  · rw [sentAt_after hlt]
    exact hold k hlt
  · rw [UInt32.lt_iff_toNat_lt] at hk hlt
    have heq : k = s.process.cb.self.sequence := UInt32.toNat_inj.mp (by omega)
    have hne : s'.cb.self.sequence ≠ s.process.cb.self.sequence := by
      intro hsame
      rw [hsame] at hk
      omega
    simp only [Clocked.after, if_neg hne, heq, Function.update_self]
    exact Int.le_refl _

/-- What lies before an earlier reading lies before this one. -/
theorem Steadily.le_now (hok : Steadily s t) {x : Int} (hx : ∃ now ∈ s.clock, x ≤ now) :
    x ≤ t.now := by
  obtain ⟨now, hnow, hle⟩ := hx
  exact Int.le_trans hle (hok.1 now hnow)

/-- The age of the messages, without acks: what lies behind a mark was sent
before the heartbeat of that mark. -/
structure Aged (s : Clocked) : Prop where
  stands : Stands s.process.outmsgbuf s.process.cb.outmsgbuf
  unacked : ∃ marks, Unacked ⟨s.process.cb, marks, s.process.cb.self.sequence.toNat⟩
  sent : ∀ k < s.process.cb.self.sequence, ∃ now ∈ s.clock, s.sentAt k ≤ now
  p1 : ∀ k < s.process.cb.hbSeqP1, s.sentAt k ≤ s.lastHbeat ∧ 1 ≤ s.hbeatRate
  p2 : ∀ k < s.process.cb.hbSeqP2, s.sentAt k + 1 ≤ s.lastHbeat
  p3 : ∀ k < s.process.cb.hbSeqP3, ∃ now ∈ s.clock, s.sentAt k + 2 ≤ now

/-- A heartbeat: the clock has moved on since the last one, if anything was
sent before that. -/
theorem Aged.hbeat (ha : Aged s) (hok : Steadily s t) (heq : t.branch = .hbeat)
    (hdue : s.due t = true) (hb : s.process.branch h t.branch = some s') :
    Aged (s.after t s') := by
  obtain ⟨hnode, stands⟩ := step_simulates ha.stands (hok.2.2 hdue) hb
  obtain ⟨marks, u⟩ := ha.unacked
  have hold : ∀ k < s.process.cb.self.sequence, s.sentAt k ≤ t.now := fun k hk =>
    hok.le_now (ha.sent k hk)
  have hlate : s.hbeatRate ≤ t.now - s.lastHbeat := by
    simpa [Clocked.due, heq] using hdue
  have hmarks : V01.hbeatBranch h s.process.cb = some s'.cb := by
    have hnode' : V01.branch h s.process.cb t.branch = some s'.cb := hnode
    rwa [heq] at hnode'
  obtain ⟨hseq, hp1, hp2, hp3⟩ := hbeatBranch_marks hmarks
  obtain ⟨hlast, hrate⟩ := after_hbeat s s' heq
  have hsent : (s.after t s').sentAt = s.sentAt := if_pos hseq
  have hproc : (s.after t s').process = s' := rfl
  refine ⟨stands, unacked_branch u hok.2.1 hnode, ?_, ?_, ?_, ?_⟩
  · rw [hproc, hseq, hsent]
    exact fun k hk => ⟨t.now, rfl, hold k hk⟩
  · rw [hproc, hp1, hsent, hlast, hrate]
    exact fun k hk => ⟨hold k hk, (clampRate_le t.rate).1⟩
  · rw [hproc, hp2, hsent, hlast]
    intro k hk
    obtain ⟨hle, hpos⟩ := ha.p1 k hk
    omega
  · rw [hproc, hp3, hsent]
    intro k hk
    have hle := ha.p2 k hk
    obtain ⟨-, hpos⟩ := ha.p1 k (UInt32.lt_of_lt_of_le hk u.window.p2)
    exact ⟨t.now, rfl, by omega⟩

theorem Aged.other (ha : Aged s) (hok : Steadily s t) (hno : t.branch ≠ .hbeat)
    (hdue : s.due t = true) (hb : s.process.branch h t.branch = some s') :
    Aged (s.after t s') := by
  obtain ⟨hnode, stands⟩ := step_simulates ha.stands (hok.2.2 hdue) hb
  obtain ⟨marks, u⟩ := ha.unacked
  obtain ⟨hp1, hp2, hp3, hseq⟩ := branch_marks u.hbAck hno hnode
  have hkeep : ∀ {k m : UInt32}, k < m → m ≤ s.process.cb.self.sequence →
      (s.after t s').sentAt k = s.sentAt k := fun hk hm =>
    sentAt_after (UInt32.lt_of_lt_of_le hk hm)
  obtain ⟨hlast, hrate⟩ := after_other s s' hno
  have hproc : (s.after t s').process = s' := rfl
  refine ⟨stands, unacked_branch u hok.2.1 hnode, ?_, ?_, ?_, ?_⟩
  · intro k hk
    exact ⟨t.now, rfl, sentAt_after_le (fun k hk => hok.le_now (ha.sent k hk)) hseq hk⟩
  · rw [hproc, hp1, hlast, hrate]
    intro k hk
    rw [hkeep hk u.window.p1]
    exact ha.p1 k hk
  · rw [hproc, hp2, hlast]
    intro k hk
    rw [hkeep hk u.window.p2_le_sequence]
    exact ha.p2 k hk
  · rw [hproc, hp3]
    intro k hk
    rw [hkeep hk (UInt32.le_trans u.window.p3 u.window.p2_le_sequence)]
    exact ⟨t.now, rfl, hok.le_now (ha.p3 k hk)⟩

/-- **One step.** -/
theorem Aged.step {s₁ : Clocked} (ha : Aged s) (hok : Steadily s t)
    (hs : s.step h t = some s₁) : Aged s₁ := by
  unfold Clocked.step at hs
  split at hs
  · rename_i hdue
    obtain ⟨s', hb, rfl⟩ := Option.map_eq_some_iff.mp hs
    by_cases heq : t.branch = .hbeat
    · exact ha.hbeat hok heq hdue hb
    · exact ha.other hok heq hdue hb
  · obtain rfl := Option.some.inj hs
    exact { ha with
      sent := fun k hk => ⟨t.now, rfl, hok.le_now (ha.sent k hk)⟩
      p3 := fun k hk => ⟨t.now, rfl, hok.le_now (ha.p3 k hk)⟩ }

theorem aged_start (g : Garbage) (garbage : Nat → Hashtable.HtblEntry Nat) {a : InitArgs}
    (hack : a.hbAck = false) (hbRateSec : Int) : Aged (.start g garbage a hbRateSec) := by
  obtain ⟨-, -, hp1, hp2, hp3, hseq, -, -, -⟩ := rmcastInit_frame g a
  have hnone : ∀ k : UInt32, ¬ k < 0 := fun k => by simp [UInt32.lt_iff_toNat_lt]
  have hcb : (Clocked.start g garbage a hbRateSec).process.cb = rmcastInit g a := rfl
  refine ⟨stands_start g garbage a, ⟨[], unacked_recount (unacked_start g hack)⟩, ?_, ?_, ?_, ?_⟩
  · rw [hcb, hseq]
    exact fun k hk => absurd hk (hnone k)
  · rw [hcb, hp1]
    exact fun k hk => absurd hk (hnone k)
  · rw [hcb, hp2]
    exact fun k hk => absurd hk (hnone k)
  · rw [hcb, hp3]
    exact fun k hk => absurd hk (hnone k)

/-- **Two readings.** Without acks, while the clock does not go back, the
numbers do not run out and no removal links an entry of a bucket into the
pool: in every state, every message that was sent in a pass with this
reading of the clock or the one before is found in the table, byte for byte
as it was multicast. -/
theorem kept_two_readings (h : Host) (g : Garbage) (garbage : Nat → Hashtable.HtblEntry Nat)
    (a : InitArgs) (hack : a.hbAck = false) (hbRateSec : Int) (ts : List Tick)
    (hok : Guarded (Clocked.step h) Steadily (.start g garbage a hbRateSec) ts) :
    Throughout (Clocked.step h)
      (fun s => ∀ k < s.process.cb.self.sequence, ∀ now ∈ s.clock, now < s.sentAt k + 2 →
        ∃ q, s.process.kept k = some q
          ∧ (datagrams s.process.cb.sent)[k.toNat]? = some (keptBytes (s.process.cb.msgs q)))
      (.start g garbage a hbRateSec) ts := by
  refine throughout_of_guarded (I := Aged) (fun s t s' ha hok hs => ha.step hok hs) ?_
    (aged_start g garbage hack hbRateSec) hok
  intro s ha k hk now hnow hrecent
  obtain ⟨marks, u⟩ := ha.unacked
  have hlow : s.process.cb.oldestSeq ≤ k := by
    rw [u.oldest]
    refine UInt32.not_lt.mp fun hlt => ?_
    obtain ⟨now', hnow', hle⟩ := ha.p3 k hlt
    obtain rfl := Option.some.inj (hnow.symm.trans hnow')
    omega
  obtain ⟨q, hq⟩ := Option.isSome_iff_exists.mp ((u.window.keys k).mpr ⟨hlow, hk⟩)
  have hkept : s.process.kept = htblGet s.process.cb.outmsgbuf := ha.stands.kept _
  exact ⟨q, by rw [hkept]; exact hq, u.stored.stored k q hq⟩

/-- A message and a heartbeat in the passes with the reading 100, then a
heartbeat with every reading. -/
def threeBeats : List Tick :=
  [⟨.ipc (.whole .little [10]), 100, 1⟩, ⟨.hbeat, 100, 1⟩, ⟨.hbeat, 101, 1⟩, ⟨.hbeat, 102, 1⟩]

theorem kept_two_readings_threeBeats :
    Guarded (Clocked.step littleHost) Steadily (.start zeroGarbage Hashtable.blank plainArgs 1)
        (threeBeats.take 3)
      ∧ ∃ s, run (Clocked.step littleHost) (.start zeroGarbage Hashtable.blank plainArgs 1)
          (threeBeats.take 3) = some s
        ∧ s.clock = some 101 ∧ s.sentAt 0 = 100 ∧ ∃ q, s.process.kept 0 = some q := by
  have hok : Guarded (Clocked.step littleHost) Steadily
      (.start zeroGarbage Hashtable.blank plainArgs 1) (threeBeats.take 3) := by decide +kernel
  have hrun : (run (Clocked.step littleHost) (.start zeroGarbage Hashtable.blank plainArgs 1)
      (threeBeats.take 3)).map (fun s => (s.clock, s.sentAt 0, s.process.cb.self.sequence))
        = some (some 101, 100, 1) := by decide +kernel
  obtain ⟨s, hs, heq⟩ := Option.map_eq_some_iff.mp hrun
  simp only [Prod.mk.injEq] at heq
  obtain ⟨hclock, hsent, hseq⟩ := heq
  have hkept :=
    (kept_two_readings littleHost zeroGarbage Hashtable.blank plainArgs rfl 1 _ hok).final hs
  obtain ⟨q, hq, -⟩ := hkept 0 (by rw [hseq]; decide) 101 hclock (by rw [hsent]; decide)
  exact ⟨hok, s, hs, hclock, hsent, q, hq⟩

-- The third heartbeat drops it.
example : (run (Clocked.step littleHost) (.start zeroGarbage Hashtable.blank plainArgs 1)
    threeBeats).map (fun s => (s.clock, s.process.kept 0)) = some (some 102, none) := by
  decide +kernel

end Process

end Rms.V01
