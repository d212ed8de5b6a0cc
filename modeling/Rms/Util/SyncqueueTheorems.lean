/-
Rms.Util.SyncqueueTheorems — can a wake-up get lost?

`LostWakeup` is the state that must not be: the consumer is blocked in
`uthread_evt_wait` beside data, and nobody is left who would signal.

The size test and the wait are under different locks, and the event does
not remember a signal, so everything a producer does between the two is
missed. Nor does a signal that is not missed help: the loop of
`uthread_evt_wait` goes on as long as `status`, the number of those who
wait, is not 0, and the consumer has counted itself. It never leaves the
wait (`waits_forever`).

A run stays clear of the state exactly if, each time the consumer goes to
sleep, the queue is empty or some `syncqueue_signal_data` is under way
(`lost_wakeup_iff`). What does hold in every run is that data come out
once and in order (`accepted_run`).
-/
import Rms.Lib.Runs
import Rms.Util.Syncqueue

namespace Rms.Util

open Rms.Runs

variable {α : Type*} {s s' : Syncqueue α}

/-- The consumer is in `uthread_evt_wait`, blocked or woken. -/
def InWait (s : Syncqueue α) : Prop := s.consumer = .waiting ∨ s.consumer = .woken

instance (s : Syncqueue α) : Decidable (InWait s) :=
  inferInstanceAs (Decidable (_ ∨ _))

/-- `status` counts the consumer while it waits, and `syncqueue_deq` is only
reached with data in the queue. -/
structure Steady (s : Syncqueue α) : Prop where
  status : s.status = if InWait s then 1 else 0
  data : s.consumer = .toDeq → s.queue ≠ []

theorem steady_init : Steady (syncqueueInit : Syncqueue α) where
  status := by simp [syncqueueInit, InWait]
  data h := by simp [syncqueueInit] at h

theorem Steady.status_inWait (h : Steady s) (hw : InWait s) : s.status = 1 := by
  rw [h.status, if_pos hw]

/-! ## What a step can do -/

/-- The consumer's steps. -/
inductive ConsumerMove (s : Syncqueue α) : Syncqueue α → Prop
  | call (hc : s.consumer = .idle) : ConsumerMove s { s with consumer := .toSize }
  | empty (hc : s.consumer = .toSize) (hq : s.queue = []) :
      ConsumerMove s { s with consumer := .toWait }
  | found (hc : s.consumer = .toSize) (hq : s.queue ≠ []) :
      ConsumerMove s { s with consumer := .toDeq }
  | sleep (hc : s.consumer = .toWait) :
      ConsumerMove s { s with status := 1, consumer := .waiting }
  | again (hc : s.consumer = .woken) : ConsumerMove s { s with consumer := .waiting }
  | take (data : α) (rest : List α) (hc : s.consumer = .toDeq) (hq : s.queue = data :: rest) :
      ConsumerMove s { s with queue := rest, consumer := .idle, got := s.got ++ [some data] }

theorem syncqueueSize_lt_one : syncqueueSize s < 1 ↔ s.queue = [] := by
  rw [syncqueueSize, ← List.length_eq_zero_iff]
  omega

/-- The loop of `uthread_evt_wait` never ends. -/
theorem consumerMove (h : Steady s) (hs : consumerStep s = some s') : ConsumerMove s s' := by
  unfold consumerStep at hs
  cases hc : s.consumer with
  | idle =>
    simp only [hc] at hs
    cases hs
    exact .call hc
  | toSize =>
    simp only [hc] at hs
    cases hs
    by_cases hq : s.queue = []
    · rw [if_pos (syncqueueSize_lt_one.mpr hq)]
      exact .empty hc hq
    · rw [if_neg (mt syncqueueSize_lt_one.mp hq)]
      exact .found hc hq
  | toWait =>
    have hzero : s.status = 0 := by simp [h.status, InWait, hc]
    simp [hc, uthreadEvtWait, evtWaitLoop, hzero] at hs
    rw [← hs]
    exact .sleep hc
  | waiting => simp [hc] at hs
  | woken =>
    have hone : s.status = 1 := h.status_inWait (.inr hc)
    simp [hc, evtWaitLoop, hone] at hs
    rw [← hs, ← hone]
    exact .again hc
  | toDeq =>
    cases hq : s.queue with
    | nil => exact absurd hq (h.data hc)
    | cons d rest =>
      simp [hc, syncqueueDeq, hq] at hs
      rw [← hs]
      exact .take d rest hc hq

/-- A producer's steps, and the wake-ups. -/
inductive OtherMove (s : Syncqueue α) : Syncqueue α → Prop
  | wake (hc : s.consumer = .waiting) : OtherMove s { s with consumer := .woken }
  | call (p : Nat) (data : α) : OtherMove s (setProducer s p (.toEnq data))
  | enq (p : Nat) (data : α) :
      OtherMove s (setProducer { s with queue := s.queue ++ [data] } p .toSignal)
  | signal (p : Nat) (hc : s.consumer = .waiting) :
      OtherMove s (setProducer { s with consumer := .woken } p .idle)
  | unheard (p : Nat) (hc : s.consumer ≠ .waiting) : OtherMove s (setProducer s p .idle)

theorem producerMove (h : Steady s) {p : Nat} (hs : producerStep s p = some s') :
    OtherMove s s' := by
  unfold producerStep at hs
  split at hs
  · cases hs
  · rename_i data _
    cases hs
    exact .enq p data
  · cases hs
    unfold uthreadEvtSignal
    by_cases hc : s.consumer = .waiting
    · have hone : s.status = 1 := h.status_inWait (.inl hc)
      rw [if_pos ⟨by simp [hone], hc⟩]
      exact .signal p hc
    · rw [if_neg fun hand => hc hand.2]
      exact .unheard p hc

/-- **What a step can do.** -/
theorem syncStep_cases (h : Steady s) {i : Event α} (hs : syncStep s i = some s') :
    (i = .consumer ∧ ConsumerMove s s') ∨ (i ≠ .consumer ∧ OtherMove s s') := by
  cases i with
  | consumer => exact .inl ⟨rfl, consumerMove h hs⟩
  | producer p => exact .inr ⟨by simp, producerMove h hs⟩
  | spurious =>
    simp only [syncStep] at hs
    split at hs
    · rename_i hc
      cases hs
      exact .inr ⟨by simp, .wake hc⟩
    · cases hs
  | signalData p data =>
    simp only [syncStep] at hs
    split at hs
    · cases hs
      exact .inr ⟨by simp, .call p data⟩
    · cases hs

theorem steady_syncStep (h : Steady s) {i : Event α} (hs : syncStep s i = some s') :
    Steady s' := by
  have hstatus := h.status
  have hdata := h.data
  cases syncStep_cases h hs with
  | inl hm =>
    cases hm.2 with
    | call hc => exact ⟨by simpa [InWait, hc] using hstatus, by simp⟩
    | empty hc hq => exact ⟨by simpa [InWait, hc] using hstatus, by simp⟩
    | found hc hq => exact ⟨by simpa [InWait, hc] using hstatus, fun _ => hq⟩
    | sleep hc => exact ⟨by simp [InWait], by simp⟩
    | again hc => exact ⟨by simpa [InWait, hc] using hstatus, by simp⟩
    | take d rest hc hq => exact ⟨by simpa [InWait, hc] using hstatus, by simp⟩
  | inr hm =>
    cases hm.2 with
    | wake hc => exact ⟨by simpa [InWait, hc] using hstatus, by simp⟩
    | call p data => exact ⟨hstatus, hdata⟩
    | enq p data => exact ⟨hstatus, by simp [setProducer]⟩
    | signal p hc => exact ⟨by simpa [setProducer, InWait, hc] using hstatus, by simp [setProducer]⟩
    | unheard p hc => exact ⟨hstatus, hdata⟩

/-! ## The wait -/

theorem inWait_syncStep (h : Steady s) (hw : InWait s) {i : Event α}
    (hs : syncStep s i = some s') : InWait s' ∧ s'.got = s.got := by
  cases syncStep_cases h hs with
  | inl hm =>
    cases hm.2 with
    | again hc => exact ⟨.inl rfl, rfl⟩
    | call hc => simp [InWait, hc] at hw
    | empty hc hq => simp [InWait, hc] at hw
    | found hc hq => simp [InWait, hc] at hw
    | sleep hc => simp [InWait, hc] at hw
    | take d rest hc hq => simp [InWait, hc] at hw
  | inr hm =>
    cases hm.2 with
    | wake hc => exact ⟨.inr rfl, rfl⟩
    | call p data => exact ⟨hw, rfl⟩
    | enq p data => exact ⟨hw, rfl⟩
    | signal p hc => exact ⟨.inr rfl, rfl⟩
    | unheard p hc => exact ⟨hw, rfl⟩

/-- **Whoever waits, waits forever**: whatever the producers do afterwards,
the consumer stays in `uthread_evt_wait` and gets nothing. -/
theorem waits_forever {is : List (Event α)} (h : Steady s) (hw : InWait s)
    (hrun : run syncStep s is = some s') : InWait s' ∧ s'.got = s.got := by
  have hinv := run_invariant_free
    (I := fun t : Syncqueue α => Steady t ∧ InWait t ∧ t.got = s.got)
    (fun t i t' ht hstep => by
      obtain ⟨hw', hgot⟩ := inWait_syncStep ht.1 ht.2.1 hstep
      exact ⟨steady_syncStep ht.1 hstep, hw', hgot.trans ht.2.2⟩)
    ⟨h, hw, rfl⟩ hrun
  exact hinv.2

/-! ## The data -/

/-- What came out, and what is still to come out. -/
def accepted (s : Syncqueue α) : List (Option α) := s.got ++ s.queue.map some

/-- A step only adds at the end. -/
theorem accepted_syncStep (h : Steady s) {i : Event α} (hs : syncStep s i = some s') :
    accepted s <+: accepted s' := by
  cases syncStep_cases h hs with
  | inl hm =>
    cases hm.2 with
    | call hc => exact List.prefix_rfl
    | empty hc hq => exact List.prefix_rfl
    | found hc hq => exact List.prefix_rfl
    | sleep hc => exact List.prefix_rfl
    | again hc => exact List.prefix_rfl
    | take d rest hc hq => simp [accepted, hq]
  | inr hm =>
    cases hm.2 with
    | wake hc => exact List.prefix_rfl
    | call p data => exact List.prefix_rfl
    | enq p data => simp [accepted, setProducer]
    | signal p hc => exact List.prefix_rfl
    | unheard p hc => exact List.prefix_rfl

/-- **Nothing is lost, doubled or overtaken**: over a run, what was taken and
what is queued only grows at its end, and `syncqueue_wait_data` never
returns NULL. -/
theorem accepted_run {is : List (Event α)} (h : Steady s) (hrun : run syncStep s is = some s') :
    accepted s <+: accepted s' := by
  have hinv := run_invariant_free
    (I := fun t : Syncqueue α => Steady t ∧ accepted s <+: accepted t)
    (fun t i t' ht hstep =>
      ⟨steady_syncStep ht.1 hstep, ht.2.trans (accepted_syncStep ht.1 hstep)⟩)
    ⟨h, List.prefix_rfl⟩ hrun
  exact hinv.2

/-! ## Lost wake-ups -/

/-- Every `syncqueue_signal_data` has returned, there are data, and the
consumer is blocked. -/
structure LostWakeup (s : Syncqueue α) : Prop where
  returned : ∀ p, s.producers p = .idle
  data : s.queue ≠ []
  blocked : s.consumer = .waiting

/-- The consumer goes to sleep, the first time or again, only on an empty
queue or while some `syncqueue_signal_data` is under way. -/
def SleepsSafely (s : Syncqueue α) : Event α → Prop
  | .consumer => s.consumer = .toWait ∨ s.consumer = .woken →
      s.queue = [] ∨ ∃ p, s.producers p ≠ .idle
  | _ => True

/-- Going to sleep is what may lose a wake-up. -/
theorem not_lostWakeup_sleep (hc : s.consumer = .toWait ∨ s.consumer = .woken)
    (hq : s'.queue = s.queue) (hp : s'.producers = s.producers) (hw : s'.consumer = .waiting) :
    ¬ LostWakeup s' ↔ SleepsSafely s .consumer := by
  constructor
  · intro hn _
    by_contra hsafe
    simp only [not_or, not_exists, not_not] at hsafe
    exact hn ⟨by rw [hp]; exact hsafe.2, by rw [hq]; exact hsafe.1, hw⟩
  · intro hsafe hl
    cases hsafe hc with
    | inl hnil => exact hl.data (hq ▸ hnil)
    | inr hex =>
      obtain ⟨p, hbusy⟩ := hex
      exact hbusy (hp ▸ hl.returned p)

theorem not_lostWakeup_of_ne (hw : s.consumer ≠ .waiting) : ¬ LostWakeup s :=
  fun hl => hw hl.blocked

theorem not_lostWakeup_of_busy {p : Nat} (hp : s.producers p ≠ .idle) : ¬ LostWakeup s :=
  fun hl => hp (hl.returned p)

/-- No step but the consumer's loses a wake-up. -/
theorem not_lostWakeup_other (hm : OtherMove s s') : ¬ LostWakeup s' := by
  cases hm with
  | wake hc => exact not_lostWakeup_of_ne (by simp)
  | call p data => exact not_lostWakeup_of_busy (p := p) (by simp [setProducer])
  | enq p data => exact not_lostWakeup_of_busy (p := p) (by simp [setProducer])
  | signal p hc => exact not_lostWakeup_of_ne (by simp [setProducer])
  | unheard p hc => exact not_lostWakeup_of_ne hc

/-- **One step.** -/
theorem not_lostWakeup_syncStep_iff (h : Steady s) {i : Event α}
    (hs : syncStep s i = some s') : ¬ LostWakeup s' ↔ SleepsSafely s i := by
  cases syncStep_cases h hs with
  | inl hm =>
    obtain ⟨rfl, hm⟩ := hm
    cases hm with
    | sleep hc => exact not_lostWakeup_sleep (.inl hc) rfl rfl rfl
    | again hc => exact not_lostWakeup_sleep (.inr hc) rfl rfl rfl
    | call hc => exact iff_of_true (not_lostWakeup_of_ne (by simp)) (by simp [SleepsSafely, hc])
    | empty hc hq =>
      exact iff_of_true (not_lostWakeup_of_ne (by simp)) (by simp [SleepsSafely, hc])
    | found hc hq =>
      exact iff_of_true (not_lostWakeup_of_ne (by simp)) (by simp [SleepsSafely, hc])
    | take d rest hc hq =>
      exact iff_of_true (not_lostWakeup_of_ne (by simp)) (by simp [SleepsSafely, hc])
  | inr hm =>
    have hsafe : SleepsSafely s i := by
      cases i with
      | consumer => exact absurd rfl hm.1
      | spurious => trivial
      | signalData p data => trivial
      | producer p => trivial
    exact iff_of_true (not_lostWakeup_other hm.2) hsafe

/-- **No wake-up is lost** in a run exactly if, whenever the consumer goes to
sleep in `uthread_evt_wait`, the queue is empty or some
`syncqueue_signal_data` is under way. -/
theorem lost_wakeup_iff (is : List (Event α)) :
    Throughout syncStep (fun s => ¬ LostWakeup s) (syncqueueInit : Syncqueue α) is
      ↔ Guarded syncStep SleepsSafely (syncqueueInit : Syncqueue α) is := by
  apply throughout_iff_guarded (I := Steady)
  · intro s i s' h hs
    exact steady_syncStep h hs
  · intro s i s' h _ hs
    exact not_lostWakeup_syncStep_iff h hs
  · exact steady_init
  · intro hl
    exact hl.data rfl

/-- The wake-up that comes between the size test and the wait, and the one
that finds the consumer asleep. -/
theorem lost_wakeup_reached :
    (∃ s, run syncStep (syncqueueInit : Syncqueue Nat)
        [.consumer, .consumer, .signalData 0 7, .producer 0, .producer 0, .consumer] = some s
      ∧ LostWakeup s)
    ∧ ∃ s, run syncStep (syncqueueInit : Syncqueue Nat)
        [.consumer, .consumer, .consumer, .signalData 0 7, .producer 0, .producer 0, .consumer]
          = some s
      ∧ LostWakeup s := by
  refine ⟨⟨_, rfl, ?_, by decide, rfl⟩, ⟨_, rfl, ?_, by decide, rfl⟩⟩
  · intro p
    cases p with
    | zero => rfl
    | succ n => rfl
  · intro p
    cases p with
    | zero => rfl
    | succ n => rfl

end Rms.Util
