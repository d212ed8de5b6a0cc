/-
Rms.ChannelTheorems — the life cycle of a channel.

`Life` is the control block together with the channels that are open, as
the results of the calls tell: a channel is open from an
`rms_channel_open` that returned 0 to an `rms_channel_close` that
returned 0. `Meets` says what one call should do.

Since no statement ever sets the mark 321, `rms_channel_open` opens an
open channel a second time, and `rms_channel_close` goes ahead on any
record. It unregisters the first channel of `mq_channels`, which is the
one opened last. So the life cycle is kept exactly if no open channel is
opened again and the channels are closed in the reverse order of their
opening (`channel_life_cycle_iff`).
-/
import Mathlib.Data.Finset.Basic
import Rms.Channel
import Rms.Lib.Refinement

namespace Rms.Channel

open Rms.Runs

/-! ## The three calls -/

section Calls

variable {cb cb' : Rmscb} {c : Nat} {channel : RmsChannel}

/-- Without the mark, opening succeeds. -/
theorem call_open (hch : cb.channels c = some channel) (hinit : channel.init ≠ 321) :
    ∃ cb', call cb (.openCh c) = some (0, cb') ∧ cb'.mqChannels = c :: cb.mqChannels
      ∧ cb'.channels
        = Function.update cb.channels c (some { channel with metaChannel := some cb.nmetas }) := by
  simp [call, rmsChannelOpen, hch, hinit, Rmscb.setChannel, Rmscb.setMeta]

/-- Without the mark, closing succeeds on every channel that has a
`meta_channel`, and takes the first channel off the queue. -/
theorem call_close {mp : Nat} (hch : cb.channels c = some channel) (hinit : channel.init ≠ 321)
    (hmp : channel.metaChannel = some mp) :
    ∃ cb', call cb (.close c) = some (0, cb') ∧ cb'.mqChannels = cb.mqChannels.tail
      ∧ cb'.channels = Function.update cb.channels c none := by
  simp [call, rmsChannelClose, hch, hinit, hmp, Rmscb.setChannel, Rmscb.setMeta]

/-- Connecting leaves the records and the queue alone. -/
theorem call_connect {port ret : Int} {sock : Nat}
    (h : call cb (.connect c port sock) = some (ret, cb')) :
    cb'.mqChannels = cb.mqChannels ∧ cb'.channels = cb.channels := by
  simp only [call, rmsChannelConnect] at h
  split at h
  · cases h
  · split at h
    · cases h
    · rw [if_neg (by omega)] at h
      split at h
      · cases h
        exact ⟨rfl, rfl⟩
      · cases h
        exact ⟨rfl, rfl⟩

end Calls

/-! ## The life cycle -/

/-- The control block and the channels that are open. -/
structure Life where
  cb : Rmscb
  opened : Finset Nat

/-- Which channels are open after a call with a result. -/
def openedAfter (opened : Finset Nat) (i : Call) (ret : Int) : Finset Nat :=
  match i with
  | .openCh c => if ret = 0 then insert c opened else opened
  | .connect _ _ _ => opened
  | .close c => if ret = 0 then opened.erase c else opened

def lifeStep (s : Life) (i : Call) : Option Life :=
  (call s.cb i).map fun r => ⟨r.2, openedAfter s.opened i r.1⟩

/-- `mq_channels` has each open channel once and no other. -/
def Listed (s : Life) : Prop :=
  ∀ c, s.cb.mqChannels.count c = if c ∈ s.opened then 1 else 0

/-- What a call should do: an open channel is not opened again, closing
succeeds exactly on open channels, and the queue lists the open channels. -/
def Meets (s : Life) (i : Call) : Prop :=
  (match i with
    | .openCh c => c ∈ s.opened → ∃ error, call s.cb i = some (-1, { s.cb with error := error })
    | .connect _ _ _ => True
    | .close c => ∃ ret cb', call s.cb i = some (ret, cb') ∧ (ret = 0 ↔ c ∈ s.opened))
  ∧ ∀ s', lifeStep s i = some s' → Listed s'

/-- The calls on which it does: no open channel is opened, and only the
channel at the head of `mq_channels` is closed. -/
def Stacked (s : Life) : Call → Prop
  | .openCh c => c ∉ s.opened
  | .connect _ _ _ => True
  | .close c => c ∈ s.opened ∧ s.cb.mqChannels.head? = some c

/-- No record has the mark, and the open channels are those with a
`meta_channel`. -/
structure Consistent (s : Life) : Prop where
  unmarked : ∀ c channel, s.cb.channels c = some channel → channel.init ≠ 321
  opened : ∀ c, c ∈ s.opened
    ↔ ∃ channel mp, s.cb.channels c = some channel ∧ channel.metaChannel = some mp

section Steps

variable {s s' : Life} {c : Nat}

theorem lifeStep_eq_some {i : Call} : lifeStep s i = some s'
    ↔ ∃ ret, call s.cb i = some (ret, s'.cb) ∧ s'.opened = openedAfter s.opened i ret := by
  simp only [lifeStep, Option.map_eq_some_iff]
  constructor
  · intro h
    obtain ⟨r, hr, heq⟩ := h
    rw [← heq]
    exact ⟨r.1, hr, rfl⟩
  · intro h
    obtain ⟨ret, hr, heq⟩ := h
    exact ⟨(ret, s'.cb), hr, by rw [← heq]⟩

/-- Every opening succeeds. -/
theorem lifeStep_open (h : Consistent s) (hs : lifeStep s (.openCh c) = some s') :
    ∃ channel, s.cb.channels c = some channel ∧ s'.cb.mqChannels = c :: s.cb.mqChannels
      ∧ s'.cb.channels
        = Function.update s.cb.channels c (some { channel with metaChannel := some s.cb.nmetas })
      ∧ s'.opened = insert c s.opened := by
  obtain ⟨ret, hcall, hopened⟩ := lifeStep_eq_some.mp hs
  cases hch : s.cb.channels c with
  | none => simp [call, rmsChannelOpen, hch] at hcall
  | some channel =>
    obtain ⟨cb', hopen, hmq, hchannels⟩ := call_open hch (h.unmarked c channel hch)
    rw [hopen] at hcall
    cases hcall
    exact ⟨channel, rfl, hmq, hchannels, by simpa [openedAfter] using hopened⟩

/-- Every closing that returns succeeds, and was on an open channel. -/
theorem lifeStep_close (h : Consistent s) (hs : lifeStep s (.close c) = some s') :
    c ∈ s.opened ∧ s'.cb.mqChannels = s.cb.mqChannels.tail
      ∧ s'.cb.channels = Function.update s.cb.channels c none
      ∧ s'.opened = s.opened.erase c := by
  obtain ⟨ret, hcall, hopened⟩ := lifeStep_eq_some.mp hs
  cases hch : s.cb.channels c with
  | none => simp [call, rmsChannelClose, hch] at hcall
  | some channel =>
    have hinit := h.unmarked c channel hch
    cases hmp : channel.metaChannel with
    | none => simp [call, rmsChannelClose, hch, hinit, hmp] at hcall
    | some mp =>
      obtain ⟨cb', hclose, hmq, hchannels⟩ := call_close hch hinit hmp
      rw [hclose] at hcall
      cases hcall
      exact ⟨(h.opened c).mpr ⟨channel, mp, hch, hmp⟩, hmq, hchannels,
        by simpa [openedAfter] using hopened⟩

theorem lifeStep_connect {port : Int} {sock : Nat}
    (hs : lifeStep s (.connect c port sock) = some s') :
    s'.cb.mqChannels = s.cb.mqChannels ∧ s'.cb.channels = s.cb.channels
      ∧ s'.opened = s.opened := by
  obtain ⟨ret, hcall, hopened⟩ := lifeStep_eq_some.mp hs
  obtain ⟨hmq, hchannels⟩ := call_connect hcall
  exact ⟨hmq, hchannels, hopened⟩

/-- Every call keeps the records as they should be. -/
theorem consistent_lifeStep (h : Consistent s) {i : Call} (hs : lifeStep s i = some s') :
    Consistent s' := by
  cases i with
  | openCh c =>
    obtain ⟨channel, hch, -, hchannels, hopened⟩ := lifeStep_open h hs
    constructor
    · intro d ch hd
      rw [hchannels, Function.update_apply] at hd
      split at hd
      · cases hd
        exact h.unmarked c channel hch
      · exact h.unmarked d ch hd
    · intro d
      rw [hopened, hchannels, Finset.mem_insert]
      by_cases hd : d = c
      · simp [hd]
      · simp [hd, h.opened d]
  | connect c port sock =>
    obtain ⟨-, hchannels, hopened⟩ := lifeStep_connect hs
    exact ⟨by rw [hchannels]; exact h.unmarked, by rw [hchannels, hopened]; exact h.opened⟩
  | close c =>
    obtain ⟨-, -, hchannels, hopened⟩ := lifeStep_close h hs
    constructor
    · intro d ch hd
      rw [hchannels, Function.update_apply] at hd
      split at hd
      · cases hd
      · exact h.unmarked d ch hd
    · intro d
      rw [hopened, hchannels, Finset.mem_erase]
      by_cases hd : d = c
      · simp [hd]
      · simp [hd, h.opened d]

/-! ## One call -/

/-- A channel that is put at the head is listed once more. -/
theorem listed_open (hl : Listed s) (hc : c ∉ s.opened)
    (hmq : s'.cb.mqChannels = c :: s.cb.mqChannels) (hopened : s'.opened = insert c s.opened) :
    Listed s' := by
  intro d
  have hd := hl d
  rw [hmq, hopened]
  by_cases hdc : d = c
  · subst hdc
    simp [hd, hc]
  · have hcd : c ≠ d := fun heq => hdc heq.symm
    simp [hd, hdc, List.count_cons_of_ne hcd]

/-- Taking off the head unlists the channel that is closed exactly if it was
at the head. -/
theorem listed_close_iff (hl : Listed s) (hc : c ∈ s.opened)
    (hmq : s'.cb.mqChannels = s.cb.mqChannels.tail) (hopened : s'.opened = s.opened.erase c) :
    Listed s' ↔ s.cb.mqChannels.head? = some c := by
  have hone := hl c
  rw [if_pos hc] at hone
  cases hlist : s.cb.mqChannels with
  | nil =>
    rw [hlist] at hone
    cases hone
  | cons d rest =>
    rw [hlist] at hone
    simp only [List.head?_cons, Option.some.injEq]
    constructor
    · intro hs'
      by_contra hne
      have hzero := hs' c
      rw [hmq, hopened, hlist, List.tail_cons] at hzero
      rw [List.count_cons_of_ne hne] at hone
      simp [hone] at hzero
    · intro heq e
      subst heq
      have he := hl e
      rw [hmq, hopened, hlist, List.tail_cons]
      rw [hlist] at he
      by_cases hed : e = d
      · subst hed
        simp only [List.count_cons_self] at hone
        simp
        omega
      · have hde : d ≠ e := fun heq => hed heq.symm
        rw [List.count_cons_of_ne hde] at he
        simp [he, hed]

/-- **One call** does what it should exactly if it keeps to the order. -/
theorem meets_iff (h : Consistent s) (hl : Listed s) (i : Call) : Meets s i ↔ Stacked s i := by
  cases i with
  | openCh c =>
    constructor
    · intro hm hc
      obtain ⟨channel, mp, hch, -⟩ := (h.opened c).mp hc
      obtain ⟨error, herr⟩ := hm.1 hc
      obtain ⟨cb', hopen, -⟩ := call_open hch (h.unmarked c channel hch)
      rw [hopen] at herr
      cases herr
    · intro hc
      refine ⟨fun hin => absurd hin hc, ?_⟩
      intro s' hs
      obtain ⟨channel, -, hmq, -, hopened⟩ := lifeStep_open h hs
      exact listed_open hl hc hmq hopened
  | connect c port sock =>
    refine ⟨fun _ => trivial, fun _ => ⟨trivial, ?_⟩⟩
    intro s' hs d
    obtain ⟨hmq, -, hopened⟩ := lifeStep_connect hs
    rw [hmq, hopened]
    exact hl d
  | close c =>
    constructor
    · intro hm
      obtain ⟨⟨ret, cb', hcall, -⟩, hafter⟩ := hm
      have hs : lifeStep s (.close c) = some ⟨cb', openedAfter s.opened (.close c) ret⟩ :=
        lifeStep_eq_some.mpr ⟨ret, hcall, rfl⟩
      obtain ⟨hc, hmq, -, hopened⟩ := lifeStep_close h hs
      exact ⟨hc, (listed_close_iff hl hc hmq hopened).mp (hafter _ hs)⟩
    · intro hst
      obtain ⟨hc, hhead⟩ := hst
      obtain ⟨channel, mp, hch, hmp⟩ := (h.opened c).mp hc
      obtain ⟨cb', hclose, -⟩ := call_close hch (h.unmarked c channel hch) hmp
      refine ⟨⟨0, cb', hclose, by simp [hc]⟩, ?_⟩
      intro s' hs
      obtain ⟨-, hmq, -, hopened⟩ := lifeStep_close h hs
      exact (listed_close_iff hl hc hmq hopened).mpr hhead

end Steps

/-! ## Sequences of calls -/

/-- **The life cycle is kept** by a sequence of calls exactly if no channel is
opened while it is open and each close is on the channel at the head of
`mq_channels`, the one opened last of those that are open. -/
theorem channel_life_cycle_iff (inits : Nat → Unmarked) (metas : Nat → RmsMetaChannel)
    (calls : List Call) :
    Checked lifeStep Meets ⟨start inits metas, ∅⟩ calls
      ↔ Checked lifeStep Stacked ⟨start inits metas, ∅⟩ calls := by
  have hstart : Consistent ⟨start inits metas, ∅⟩ ∧ Listed ⟨start inits metas, ∅⟩ := by
    refine ⟨⟨?_, ?_⟩, ?_⟩
    · intro c channel hch
      simp only [start, Option.some.injEq] at hch
      rw [← hch]
      exact (inits c).2
    · intro c
      simp [start]
    · intro c
      simp [start]
  exact checked_congr (I := fun s => Consistent s ∧ Listed s) (fun s i hs => meets_iff hs.1 hs.2 i)
    (fun s i s' hs hok hstep => ⟨consistent_lifeStep hs.1 hstep, hok.2 s' hstep⟩) hstart

/-- Nothing is open, and every `init` is 0. -/
def idle : Life := ⟨start (fun _ => ⟨0, by decide⟩) fun _ => metaChannelInit 0, ∅⟩

/-- Of two open channels the older is closed, and the newer is unregistered;
and a channel that is opened twice is registered twice. -/
theorem channel_life_cycle_fails :
    (∃ s, run lifeStep idle [.openCh 0, .openCh 1, .close 0] = some s
      ∧ s.opened = {1} ∧ s.cb.mqChannels = [0])
    ∧ ∃ s, run lifeStep idle [.openCh 0, .openCh 0] = some s
      ∧ s.opened = {0} ∧ s.cb.mqChannels = [0, 0] :=
  ⟨⟨_, rfl, by decide, rfl⟩, ⟨_, rfl, by decide, rfl⟩⟩

end Rms.Channel
