/-
Rms.Util.SyncThreadsTheorems — the synchronised queue under any interleaving.

`Sane` is what holds in every state: each mutex is with the thread that is
in a section of it, a call of `mqueue` that is under way has read the
queue as it still is, the log is a sequential run of `mqueue`, and
`status` counts the threads in a wait. A step changes the place of one
thread, up to threads that wake up; what it does to the mutexes is one of
`Owners.same`, `Owners.lock` and `Owners.unlock`.

From this follow that every interleaving answers as the calls one after
the other (`syncqueue_sequential`), and which threads can be stuck
(`syncqueue_stuck_iff`).
-/
import Rms.Util.SyncThreads
import Mathlib.Algebra.BigOperators.Group.Finset.Piecewise

namespace Rms.Util

open Rms.Runs

variable {τ α : Type*} [DecidableEq τ]

/-! ## Places -/

/-- A thread at this place has the mutex. -/
def Place.Holds (m : Mutex) : Place α → Prop
  | .inside c => c.mutex = m
  | .working c _ => c.mutex = m
  | .back _ => .condVarMutex = m
  | .release m' _ => m' = m
  | _ => False

/-- A section that can block. -/
def Section.Waits : Section α → Prop
  | .wait _ => True
  | .timedwait _ _ => True
  | _ => False

/-- A thread at this place is counted in `status`. -/
def Place.inWait : Place α → Bool
  | .blocked _ => true
  | .woken _ => true
  | .back _ => true
  | _ => false

/-- The places that the code reaches: a call of `mqueue` only in a section
that has one, a wait only in one that waits. -/
def Place.Proper : Place α → Prop
  | .working c _ => c.op ≠ none
  | .blocked c => c.Waits
  | .woken c => c.Waits
  | .back c => c.Waits
  | _ => True

theorem Section.mutex_of_op {c : Section α} (h : c.op ≠ none) : c.mutex = .mutx := by
  cases c <;> first | rfl | exact absurd rfl h

/-! ## Mutexes -/

/-- Every mutex is with the thread that is in a section of it. -/
def Owners (holder : Mutex → Option τ) (threads : τ → Place α) : Prop :=
  ∀ m u, holder m = some u ↔ (threads u).Holds m

variable {holder : Mutex → Option τ} {threads : τ → Place α} {t : τ} {p : Place α} {m₀ : Mutex}

omit [DecidableEq τ] in
theorem Owners.unique (h : Owners holder threads) {m : Mutex} {t u : τ}
    (ht : (threads t).Holds m) (hu : (threads u).Holds m) : t = u :=
  Option.some.inj (((h m t).mpr ht).symm.trans ((h m u).mpr hu))

theorem Owners.same (h : Owners holder threads)
    (hp : ∀ m, p.Holds m ↔ (threads t).Holds m) : Owners holder (Function.update threads t p) := by
  intro m u
  by_cases hu : u = t
  · subst hu
    rw [Function.update_self, hp]
    exact h m u
  · rw [Function.update_of_ne hu]
    exact h m u

theorem Owners.lock (h : Owners holder threads) (hfree : holder m₀ = none)
    (ht : ∀ m, ¬ (threads t).Holds m) (hp : ∀ m, p.Holds m ↔ m₀ = m) :
    Owners (Function.update holder m₀ (some t)) (Function.update threads t p) := by
  intro m u
  by_cases hm : m = m₀
  · subst hm
    rw [Function.update_self]
    by_cases hu : u = t
    · subst hu
      simp [hp]
    · have hnot : ¬ (threads u).Holds m := by
        rw [← h m u, hfree]
        simp
      rw [Function.update_of_ne hu]
      simp [hnot, Ne.symm hu]
  · rw [Function.update_of_ne hm, h m u]
    by_cases hu : u = t
    · subst hu
      rw [Function.update_self, hp]
      simp [ht m, Ne.symm hm]
    · rw [Function.update_of_ne hu]

theorem Owners.unlock (h : Owners holder threads) (ht : ∀ m, (threads t).Holds m ↔ m₀ = m)
    (hp : ∀ m, ¬ p.Holds m) :
    Owners (Function.update holder m₀ none) (Function.update threads t p) := by
  intro m u
  by_cases hm : m = m₀
  · subst hm
    rw [Function.update_self]
    by_cases hu : u = t
    · subst hu
      simp [hp m]
    · rw [Function.update_of_ne hu]
      have hnot : ¬ (threads u).Holds m := fun hu' => hu (h.unique hu' ((ht m).mpr rfl))
      simp [hnot]
  · rw [Function.update_of_ne hm, h m u]
    by_cases hu : u = t
    · subst hu
      rw [Function.update_self, ht]
      simp [hp m, Ne.symm hm]
    · rw [Function.update_of_ne hu]

/-! ## The invariant -/

variable [Fintype τ]

/-- The number of threads in a wait. -/
def waiters (threads : τ → Place α) : Nat :=
  (Finset.univ.filter fun u => (threads u).inWait).card

theorem waiters_update (threads : τ → Place α) (t : τ) (p : Place α) :
    waiters (Function.update threads t p) + (threads t).inWait.toNat
      = waiters threads + p.inWait.toNat := by
  have hsum : ∀ f : τ → Place α, waiters f = ∑ u, (f u).inWait.toNat := by
    intro f
    unfold waiters
    rw [Finset.card_filter]
    refine Finset.sum_congr rfl fun u _ => ?_
    cases (f u).inWait <;> rfl
  have hrest : ∑ u ∈ Finset.univ.erase t, (Function.update threads t p u).inWait.toNat
      = ∑ u ∈ Finset.univ.erase t, (threads u).inWait.toNat := by
    refine Finset.sum_congr rfl fun u hu => ?_
    rw [Function.update_of_ne (Finset.ne_of_mem_erase hu)]
  have hnew := Finset.add_sum_erase Finset.univ
    (fun u => (Function.update threads t p u).inWait.toNat) (Finset.mem_univ t)
  have hold := Finset.add_sum_erase Finset.univ
    (fun u => (threads u).inWait.toNat) (Finset.mem_univ t)
  simp only [Function.update_self] at hnew
  rw [hsum, hsum]
  omega

/-- The log is a sequential run of `mqueue` that ends in the queue. -/
structure Logged (q₀ : Mqueue α) (s : SyncThreads τ α) : Prop where
  run : run (stepState mqueueStep) q₀ (s.log.map fun x => x.2.1) = some s.queue
  answers : answers mqueueStep q₀ (s.log.map fun x => x.2.1) = some (s.log.map fun x => x.2.2)

structure Sane (q₀ : Mqueue α) (s : SyncThreads τ α) : Prop where
  owners : Owners s.holder s.threads
  proper : ∀ u, (s.threads u).Proper
  current : ∀ u c q, s.threads u = .working c q → q = s.queue
  status : s.status = waiters s.threads
  logged : Logged q₀ s

variable {q₀ : Mqueue α} {s s' : SyncThreads τ α} {c : Section α}

/-- One thread moves and the queue stays. -/
theorem Sane.goTo (h : Sane q₀ s) (ht : s'.threads = Function.update s.threads t p)
    (howners : Owners s'.holder s'.threads) (hproper : p.Proper)
    (hcurrent : ∀ c q, p = .working c q → q = s.queue)
    (hstatus : s'.status + (s.threads t).inWait.toNat = s.status + p.inWait.toNat)
    (hqueue : s'.queue = s.queue) (hlog : s'.log = s.log) : Sane q₀ s' := by
  refine ⟨howners, ?_, ?_, ?_, ?_⟩
  · intro u
    rw [ht]
    by_cases hu : u = t
    · subst hu
      rw [Function.update_self]
      exact hproper
    · rw [Function.update_of_ne hu]
      exact h.proper u
  · intro u c q hq
    rw [ht] at hq
    rw [hqueue]
    by_cases hu : u = t
    · subst hu
      rw [Function.update_self] at hq
      exact hcurrent c q hq
    · rw [Function.update_of_ne hu] at hq
      exact h.current u c q hq
  · have hcount := waiters_update s.threads t p
    rw [← ht] at hcount
    have hold := h.status
    omega
  · obtain ⟨hrun, hans⟩ := h.logged
    exact ⟨by rw [hlog, hqueue]; exact hrun, by rw [hlog]; exact hans⟩

omit [DecidableEq τ] in
/-- Some blocked threads wake up. -/
theorem Sane.wake (h : Sane q₀ s) {threads : τ → Place α}
    (hwake : ∀ u, threads u = s.threads u ∨ ∃ c, s.threads u = .blocked c ∧ threads u = .woken c) :
    Sane q₀ { s with threads := threads } := by
  refine ⟨?_, ?_, ?_, ?_, ⟨h.logged.run, h.logged.answers⟩⟩
  · intro m u
    have hold := h.owners m u
    dsimp only
    rcases hwake u with hu | ⟨c, hb, hw⟩
    · rw [hu]
      exact hold
    · rw [hb] at hold
      rw [hw]
      exact hold
  · intro u
    have hold := h.proper u
    dsimp only
    rcases hwake u with hu | ⟨c, hb, hw⟩
    · rw [hu]
      exact hold
    · rw [hb] at hold
      rw [hw]
      exact hold
  · intro u c q hq
    dsimp only at hq
    rcases hwake u with hu | ⟨c', -, hw⟩
    · exact h.current u c q (hu ▸ hq)
    · rw [hw] at hq
      cases hq
  · have hcount : waiters threads = waiters s.threads := by
      unfold waiters
      congr 1
      apply Finset.filter_congr
      intro u _
      rcases hwake u with hu | ⟨c, hb, hw⟩
      · rw [hu]
      · rw [hb, hw]
        exact Iff.rfl
    dsimp only
    rw [hcount]
    exact h.status

/-! ## The steps -/

theorem Sane.lock (h : Sane q₀ s) {m : Mutex} (ht : ∀ m, ¬ (s.threads t).Holds m)
    (hp : ∀ m', p.Holds m' ↔ m = m') (hproper : p.Proper) (hwork : ∀ c q, p ≠ .working c q)
    (hwait : (s.threads t).inWait = p.inWait) (hs : s.lock t m p = some s') : Sane q₀ s' := by
  unfold SyncThreads.lock at hs
  split at hs
  · rename_i hfree
    obtain rfl := Option.some.inj hs
    refine h.goTo rfl (h.owners.lock hfree ht hp) hproper
      (fun c q heq => absurd heq (hwork c q)) ?_ rfl rfl
    simp only [SyncThreads.goTo, SyncThreads.setHolder, hwait]
  · cases hs

/-- `pthread_cond_wait`, from a state in which `status` counts the thread. -/
theorem Sane.block (h : Sane q₀ s) (ht : ∀ m, (s.threads t).Holds m ↔ .condVarMutex = m)
    (hc : c.Waits) (hstatus : s'.status + (s.threads t).inWait.toNat = s.status + 1)
    (hs : s' = { s with status := s'.status }.block t c) : Sane q₀ s' := by
  refine h.goTo (p := .blocked c) (t := t) ?_ ?_ hc (fun _ _ heq => nomatch heq) ?_ ?_ ?_
  · rw [hs]
    rfl
  · rw [hs]
    exact h.owners.unlock ht (fun m hm => hm)
  · rw [hstatus]
    rfl
  · rw [hs]
    rfl
  · rw [hs]
    rfl

/-- The end of a section without a wait, with the mutex in hand. -/
theorem Sane.toRelease (h : Sane q₀ s) {m : Mutex} {next : Option (Section α)}
    (ht : ∀ m', (s.threads t).Holds m' ↔ m = m') (hnot : (s.threads t).inWait = false) :
    Sane q₀ (s.goTo t (.release m next)) := by
  refine h.goTo rfl (h.owners.same fun m' => (ht m').symm) trivial
    (fun _ _ heq => nomatch heq) ?_ rfl rfl
  rw [hnot]
  rfl

omit [DecidableEq τ] in
/-- With a thread in a wait, `status` is positive. -/
theorem Sane.status_pos (h : Sane q₀ s) (hw : (s.threads t).inWait) : 0 < s.status := by
  rw [h.status]
  have hmem : t ∈ Finset.univ.filter fun u => (s.threads u).inWait := by
    simpa using hw
  exact_mod_cast Finset.card_pos.mpr ⟨t, hmem⟩

omit [DecidableEq τ] in
theorem Sane.status_nonneg (h : Sane q₀ s) : 0 ≤ s.status := by
  rw [h.status]
  exact Int.natCast_nonneg _

omit [DecidableEq τ] [Fintype τ] in
theorem wakeAll_cases (s : SyncThreads τ α) (u : τ) :
    s.wakeAll.threads u = s.threads u
      ∨ ∃ c, s.threads u = .blocked c ∧ s.wakeAll.threads u = .woken c := by
  simp only [SyncThreads.wakeAll]
  cases s.threads u with
  | blocked c => exact .inr ⟨c, rfl, rfl⟩
  | _ => exact .inl rfl

/-- What `pthread_cond_signal` does to the threads. -/
theorem Sane.wakeOne (h : Sane q₀ s) {pick : Option τ} (hs : s.wakeOne pick = some s') :
    Sane q₀ s' ∧ ∀ t c, s.threads t = .inside c → s'.threads t = .inside c := by
  unfold SyncThreads.wakeOne at hs
  split at hs
  · split at hs
    · cases hs
    · obtain rfl := Option.some.inj hs
      exact ⟨h, fun _ _ ht => ht⟩
  · rename_i u
    split at hs
    · rename_i c hu
      obtain rfl := Option.some.inj hs
      constructor
      · refine h.wake fun v => ?_
        by_cases hv : v = u
        · subst hv
          exact .inr ⟨c, hu, Function.update_self ..⟩
        · exact .inl (Function.update_of_ne hv ..)
      · intro t c' ht
        have htu : t ≠ u := by
          rintro rfl
          exact nomatch ht.symm.trans hu
        simp only [SyncThreads.goTo, Function.update_of_ne htu]
        exact ht
    · cases hs

theorem Sane.body (h : Sane q₀ s) {pick : Option τ} {usec : Nat} (ht : s.threads t = .inside c)
    (hs : s.body t pick usec c = some s') : Sane q₀ s' := by
  have hholds : ∀ m, (s.threads t).Holds m ↔ c.mutex = m := by
    rw [ht]
    exact fun m => Iff.rfl
  have hnot : (s.threads t).inWait = false := by
    rw [ht]
    rfl
  have hread : c.op ≠ none → Sane q₀ (s.goTo t (.working c s.queue)) := by
    intro hop
    refine h.goTo rfl (h.owners.same fun m => (hholds m).symm) hop
      (fun c' q heq => (Place.working.inj heq).2.symm) ?_ rfl rfl
    rw [hnot]
    rfl
  cases c with
  | size after =>
    obtain rfl := Option.some.inj hs
    exact hread nofun
  | enq data signal =>
    obtain rfl := Option.some.inj hs
    exact hread nofun
  | deq =>
    obtain rfl := Option.some.inj hs
    exact hread nofun
  | signal =>
    obtain ⟨s₁, hwake, rfl⟩ := Option.map_eq_some_iff.mp hs
    obtain ⟨h₁, hkeep⟩ : Sane q₀ s₁ ∧ s₁.threads t = .inside .signal := by
      split at hwake
      · obtain ⟨h₁, hkeep⟩ := h.wakeOne hwake
        exact ⟨h₁, hkeep t _ ht⟩
      · obtain rfl := Option.some.inj hwake
        exact ⟨h, ht⟩
    exact h₁.toRelease (fun m => by rw [hkeep]; exact Iff.rfl) (by rw [hkeep]; rfl)
  | broadcast =>
    obtain rfl := Option.some.inj hs
    split
    · have hkeep : s.wakeAll.threads t = .inside .broadcast := by
        simp only [SyncThreads.wakeAll, ht]
      exact (h.wake (wakeAll_cases s)).toRelease
        (fun m => by rw [show _ = _ from hkeep]; exact Iff.rfl) (by rw [show _ = _ from hkeep]; rfl)
    · exact h.toRelease hholds hnot
  | waitcount =>
    obtain rfl := Option.some.inj hs
    exact h.toRelease hholds hnot
  | wait deq =>
    obtain rfl := Option.some.inj hs
    have hpos := h.status_nonneg
    unfold SyncThreads.waitLoop
    rw [if_pos (by simp only; omega)]
    exact h.block (c := .wait deq) hholds trivial (by rw [hnot]; exact Int.add_zero _) rfl
  | timedwait timeoutms deq =>
    simp only [SyncThreads.body] at hs
    split at hs
    · obtain rfl := Option.some.inj hs
      exact h.block (c := .timedwait timeoutms deq) hholds trivial
        (by rw [hnot]; exact Int.add_zero _) rfl
    · -- the time is not valid: `status` goes up and down again
      obtain rfl := Option.some.inj hs
      have heq : ({ s with status := s.status + 1 } : SyncThreads τ α).endWait t deq
          = s.goTo t (.release .condVarMutex (if deq then some .deq else none)) := by
        simp only [SyncThreads.endWait, SyncThreads.goTo, Int.add_sub_cancel]
      rw [heq]
      exact h.toRelease hholds hnot

theorem Sane.commit (h : Sane q₀ s) {q : Mqueue α} (ht : s.threads t = .working c q)
    (hs : s.commit t c q = some s') : Sane q₀ s' := by
  obtain rfl : q = s.queue := h.current t c q ht
  have hop : c.op ≠ none := by
    have hproper := h.proper t
    rw [ht] at hproper
    exact hproper
  have hmutex := Section.mutex_of_op hop
  unfold SyncThreads.commit at hs
  split at hs
  · cases hs
  · rename_i op hop'
    obtain ⟨⟨q', a⟩, hstep, rfl⟩ := Option.map_eq_some_iff.mp hs
    -- nobody else is inside a call of `mqueue`
    have halone : ∀ u c' q', s.threads u = .working c' q' → u = t := by
      intro u c' q'' hu
      have hproper := h.proper u
      rw [hu] at hproper
      refine h.owners.unique (m := .mutx) ?_ ?_
      · rw [hu]
        exact Section.mutex_of_op hproper
      · rw [ht]
        exact hmutex
    refine ⟨h.owners.same ?_, ?_, ?_, ?_, ?_⟩
    · intro m
      rw [ht]
      show Mutex.mutx = m ↔ c.mutex = m
      rw [hmutex]
    · intro u
      simp only [SyncThreads.goTo]
      by_cases hu : u = t
      · subst hu
        rw [Function.update_self]
        trivial
      · rw [Function.update_of_ne hu]
        exact h.proper u
    · intro u c' q'' hu
      simp only [SyncThreads.goTo] at hu
      by_cases hut : u = t
      · subst hut
        rw [Function.update_self] at hu
        cases hu
      · rw [Function.update_of_ne hut] at hu
        exact absurd (halone u c' q'' hu) hut
    · have hcount := waiters_update s.threads t (.release .mutx (c.next a))
      have hold := h.status
      rw [ht] at hcount
      rw [show (_ : Int) = _ from hold]
      exact congrArg Nat.cast hcount.symm
    · obtain ⟨hrun, hans⟩ := h.logged
      constructor
      · simp only [SyncThreads.goTo, List.map_append, List.map_cons, List.map_nil]
        rw [run_append, hrun, Option.bind_some, Rms.Runs.run, stepState_eq_some hstep]
        rfl
      · simp only [SyncThreads.goTo, List.map_append, List.map_cons, List.map_nil]
        exact answers_concat hrun hans hstep

theorem Sane.endWait (h : Sane q₀ s) {deq : Bool} (ht : s.threads t = .back c) :
    Sane q₀ (s.endWait t deq) := by
  refine h.goTo (t := t) rfl (h.owners.same ?_) trivial (fun _ _ heq => nomatch heq) ?_ rfl rfl
  · intro m
    rw [ht]
    exact Iff.rfl
  · rw [ht]
    simp [SyncThreads.endWait, SyncThreads.goTo, Place.inWait]

theorem Sane.move (h : Sane q₀ s) {pick : Option τ} {usec : Nat}
    (hs : s.move t pick usec = some s') : Sane q₀ s' := by
  have hproper := h.proper t
  unfold SyncThreads.move at hs
  split at hs
  · cases hs
  · rename_i c ht
    refine h.lock (p := .inside c) ?_ (fun m' => Iff.rfl) trivial (fun _ _ => nofun) ?_ hs
    · rw [ht]
      exact fun _ => id
    · rw [ht]
      rfl
  · rename_i c ht
    exact h.body ht hs
  · rename_i c q ht
    exact h.commit ht hs
  · cases hs
  · rename_i c ht
    rw [ht] at hproper
    refine h.lock (p := .back c) ?_ (fun m' => Iff.rfl) hproper (fun _ _ => nofun) ?_ hs
    · rw [ht]
      exact fun _ => id
    · rw [ht]
      rfl
  · rename_i deq ht
    obtain rfl := Option.some.inj hs
    have hpos : 0 < s.status := h.status_pos (t := t) (by rw [ht]; rfl)
    unfold SyncThreads.waitLoop
    rw [if_pos (by omega)]
    refine h.block (t := t) (c := .wait deq) (fun m => by rw [ht]; exact Iff.rfl) trivial ?_ rfl
    rw [ht]
    rfl
  · rename_i timeoutms deq ht
    obtain rfl := Option.some.inj hs
    exact h.endWait ht
  · cases hs
  · rename_i m next ht
    obtain rfl := Option.some.inj hs
    refine h.goTo (t := t) rfl (h.owners.unlock ?_ ?_) ?_ ?_ ?_ rfl rfl
    · intro m'
      rw [ht]
      exact Iff.rfl
    · intro m'
      cases next <;> exact id
    · cases next <;> trivial
    · cases next <;> exact fun _ _ heq => nomatch heq
    · rw [ht]
      cases next <;> rfl

theorem Sane.step (h : Sane q₀ s) {ev : ThreadEvent τ α} (hs : threadStep s ev = some s') :
    Sane q₀ s' := by
  cases ev with
  | call t c =>
    simp only [threadStep] at hs
    split at hs
    · rename_i ht
      obtain rfl := Option.some.inj hs
      refine h.goTo rfl (h.owners.same fun m => ?_) trivial (fun _ _ heq => nomatch heq) ?_ rfl rfl
      · rw [ht]
        exact Iff.rfl
      · rw [ht]
        rfl
    · cases hs
  | move t pick usec => exact h.move hs
  | timeout t =>
    simp only [threadStep] at hs
    split at hs
    · rename_i timeoutms deq ht
      obtain rfl := Option.some.inj hs
      refine h.wake fun u => ?_
      by_cases hu : u = t
      · subst hu
        exact .inr ⟨_, ht, Function.update_self ..⟩
      · exact .inl (Function.update_of_ne hu ..)
    · cases hs
  | spurious t =>
    simp only [threadStep] at hs
    split at hs
    · rename_i c ht
      obtain rfl := Option.some.inj hs
      refine h.wake fun u => ?_
      by_cases hu : u = t
      · subst hu
        exact .inr ⟨_, ht, Function.update_self ..⟩
      · exact .inl (Function.update_of_ne hu ..)
    · cases hs

omit [DecidableEq τ] in
theorem sane_init (garbage : Nat → MqueueItem α) (init : Int) :
    Sane (mqueueInit garbage init) (syncThreadsInit garbage init : SyncThreads τ α) := by
  refine ⟨?_, fun _ => trivial, (fun _ _ _ heq => nomatch heq), ?_, ⟨rfl, rfl⟩⟩
  · intro m u
    simp [syncThreadsInit, Place.Holds]
  · simp [syncThreadsInit, waiters, Place.inWait]

/-! ## Sequential consistency -/

/-- **Any interleaving is a sequence of calls.** Whatever the threads do and
in whatever order, no two of them are in sections of the same mutex, and
the calls of `mqueue` have answered what they answer one after the other
in the order of the log. Without a pool these are the answers of a list:
what is dequeued was enqueued before, in that order, and nothing is lost
or handed out twice. -/
theorem syncqueue_sequential (garbage : Nat → MqueueItem α) (init : Int)
    (evs : List (ThreadEvent τ α)) :
    Throughout threadStep
      (fun s => (∀ m t u, (s.threads t).Holds m → (s.threads u).Holds m → t = u)
        ∧ answers mqueueStep (mqueueInit garbage init) (s.log.map fun x => x.2.1)
            = some (s.log.map fun x => x.2.2)
        ∧ (init = 0 → s.log.map (fun x => x.2.2) = replies listStep [] (s.log.map fun x => x.2.1)))
      (syncThreadsInit garbage init : SyncThreads τ α) evs := by
  refine throughout_of_invariant (I := Sane (mqueueInit garbage init)) (fun s ev s' h => h.step) ?_
    (sane_init garbage init)
  intro s h
  refine ⟨fun m t u => h.owners.unique, h.logged.answers, ?_⟩
  rintro rfl
  have hans := h.logged.answers
  rw [(simulation_mqueueInit_zero garbage _).1] at hans
  exact (Option.some.inj hans).symm

/-! ## Who can be stuck -/

/-- A thread can go on by itself, or when its time is over. -/
def SyncThreads.CanMove (s : SyncThreads τ α) (t : τ) : Prop :=
  (∃ pick usec, (s.move t pick usec).isSome) ∨ (threadStep s (.timeout t)).isSome

theorem body_isSome (s : SyncThreads τ α) (t : τ) (c : Section α) :
    ∃ pick, (s.body t pick 0 c).isSome := by
  cases c with
  | signal =>
    simp only [SyncThreads.body, Option.isSome_map]
    split
    · by_cases hb : ∃ u, (s.threads u).isBlocked
      · obtain ⟨u, hu⟩ := hb
        refine ⟨some u, ?_⟩
        cases hp : s.threads u with
        | blocked c => simp [SyncThreads.wakeOne, hp]
        | _ => simp [hp, Place.isBlocked] at hu
      · exact ⟨none, by simp only [SyncThreads.wakeOne, if_neg hb]; rfl⟩
    · exact ⟨none, rfl⟩
  | timedwait timeoutms deq =>
    refine ⟨none, ?_⟩
    simp only [SyncThreads.body]
    split <;> rfl
  | _ => exact ⟨none, rfl⟩

omit [Fintype τ] in
theorem commit_isSome (s : SyncThreads τ α) (t : τ) (c : Section α) (q : Mqueue α)
    (hop : c.op ≠ none) : (s.commit t c q).isSome := by
  cases c <;> first | rfl | exact absurd rfl hop

/-- A thread in a section can go on. -/
theorem Sane.canMove_of_holds (h : Sane q₀ s) {m : Mutex} (ht : (s.threads t).Holds m) :
    s.CanMove t := by
  have hproper := h.proper t
  left
  simp only [SyncThreads.move]
  cases hp : s.threads t with
  | inside c =>
    obtain ⟨pick, hbody⟩ := body_isSome s t c
    exact ⟨pick, 0, hbody⟩
  | working c q =>
    rw [hp] at hproper
    exact ⟨none, 0, commit_isSome s t c q hproper⟩
  | back c =>
    rw [hp] at hproper
    cases c with
    | wait deq => exact ⟨none, 0, rfl⟩
    | timedwait timeoutms deq => exact ⟨none, 0, rfl⟩
    | _ => exact hproper.elim
  | release m next => exact ⟨none, 0, rfl⟩
  | _ =>
    rw [hp] at ht
    exact ht.elim

/-- A thread before a lock can go on, or the one that has the mutex can. -/
theorem Sane.canMove_of_lock (h : Sane q₀ s) {m : Mutex}
    (hlock : s.holder m = none → s.CanMove t) : ∃ u, s.CanMove u := by
  cases hm : s.holder m with
  | none => exact ⟨t, hlock hm⟩
  | some u => exact ⟨u, h.canMove_of_holds ((h.owners m u).mp hm)⟩

/-- A thread at this place is in `uthread_evt_wait`, behind `status++`. -/
def Place.InEvtWait : Place α → Prop
  | .blocked (.wait _) => True
  | .woken (.wait _) => True
  | .back (.wait _) => True
  | _ => False

theorem Sane.stuck_iff (h : Sane q₀ s) :
    (∀ t, ¬ s.CanMove t) ↔ ∀ t, s.threads t = .idle ∨ ∃ deq, s.threads t = .blocked (.wait deq) := by
  constructor
  · intro hstuck t
    have hproper := h.proper t
    cases hp : s.threads t with
    | idle => exact .inl rfl
    | acquire c =>
      obtain ⟨u, hu⟩ := h.canMove_of_lock (t := t) (m := c.mutex) fun hfree =>
        .inl ⟨none, 0, by simp only [SyncThreads.move, hp, SyncThreads.lock, if_pos hfree]; rfl⟩
      exact absurd hu (hstuck u)
    | woken c =>
      obtain ⟨u, hu⟩ := h.canMove_of_lock (t := t) (m := .condVarMutex) fun hfree =>
        .inl ⟨none, 0, by simp only [SyncThreads.move, hp, SyncThreads.lock, if_pos hfree]; rfl⟩
      exact absurd hu (hstuck u)
    | blocked c =>
      rw [hp] at hproper
      cases c with
      | wait deq => exact .inr ⟨deq, rfl⟩
      | timedwait timeoutms deq =>
        exact absurd (.inr (by simp only [threadStep, hp]; rfl)) (hstuck t)
      | _ => exact hproper.elim
    | inside c => exact absurd (h.canMove_of_holds (t := t) (by rw [hp]; rfl)) (hstuck t)
    | working c q => exact absurd (h.canMove_of_holds (t := t) (by rw [hp]; rfl)) (hstuck t)
    | back c => exact absurd (h.canMove_of_holds (t := t) (by rw [hp]; rfl)) (hstuck t)
    | release m next => exact absurd (h.canMove_of_holds (t := t) (by rw [hp]; rfl)) (hstuck t)
  · rintro hall t (⟨pick, usec, hmove⟩ | htimeout)
    · rcases hall t with hp | ⟨deq, hp⟩ <;> simp [SyncThreads.move, hp] at hmove
    · rcases hall t with hp | ⟨deq, hp⟩ <;> simp [threadStep, hp] at htimeout

/-! ## The endless wait -/

/-- What another thread's step does to a thread: nothing, or it wakes it. -/
def Untouched (s s' : SyncThreads τ α) (t : τ) : Prop :=
  s'.threads t = s.threads t ∨ ∃ c, s.threads t = .blocked c ∧ s'.threads t = .woken c

omit [Fintype τ] in
theorem Untouched.goTo {s s₁ : SyncThreads τ α} {u : τ} (h : Untouched s s₁ t) (htu : t ≠ u)
    (p : Place α) : Untouched s (s₁.goTo u p) t := by
  simp only [Untouched, SyncThreads.goTo, Function.update_of_ne htu]
  exact h

theorem wakeOne_untouched {pick : Option τ} (hs : s.wakeOne pick = some s') (t : τ) :
    Untouched s s' t := by
  unfold SyncThreads.wakeOne at hs
  split at hs
  · split at hs
    · cases hs
    · obtain rfl := Option.some.inj hs
      exact .inl rfl
  · rename_i u
    split at hs
    · rename_i c hu
      obtain rfl := Option.some.inj hs
      by_cases htu : t = u
      · subst htu
        exact .inr ⟨c, hu, Function.update_self ..⟩
      · exact .inl (Function.update_of_ne htu ..)
    · cases hs

omit [Fintype τ] in
theorem waitLoop_untouched {u : τ} (htu : t ≠ u) (s : SyncThreads τ α) (deq : Bool) :
    Untouched s (s.waitLoop u deq) t := by
  unfold SyncThreads.waitLoop
  split <;> exact .inl (Function.update_of_ne htu ..)

theorem body_untouched {u : τ} (htu : t ≠ u) {pick : Option τ} {usec : Nat}
    (hs : s.body u pick usec c = some s') : Untouched s s' t := by
  cases c with
  | signal =>
    obtain ⟨s₁, hwake, rfl⟩ := Option.map_eq_some_iff.mp hs
    refine Untouched.goTo ?_ htu _
    split at hwake
    · exact wakeOne_untouched hwake t
    · obtain rfl := Option.some.inj hwake
      exact .inl rfl
  | broadcast =>
    obtain rfl := Option.some.inj hs
    refine Untouched.goTo ?_ htu _
    split
    · exact wakeAll_cases s t
    · exact .inl rfl
  | wait deq =>
    obtain rfl := Option.some.inj hs
    exact waitLoop_untouched htu { s with status := s.status + 1 } deq
  | timedwait timeoutms deq =>
    simp only [SyncThreads.body] at hs
    split at hs <;> obtain rfl := Option.some.inj hs <;> exact .inl (Function.update_of_ne htu ..)
  | _ =>
    obtain rfl := Option.some.inj hs
    exact .inl (Function.update_of_ne htu ..)

theorem move_untouched {u : τ} (htu : t ≠ u) {pick : Option τ} {usec : Nat}
    (hs : s.move u pick usec = some s') : Untouched s s' t := by
  have hlock : ∀ {m : Mutex} {p : Place α}, s.lock u m p = some s' → Untouched s s' t := by
    intro m p hl
    unfold SyncThreads.lock at hl
    split at hl
    · obtain rfl := Option.some.inj hl
      exact .inl (Function.update_of_ne htu ..)
    · cases hl
  unfold SyncThreads.move at hs
  split at hs
  · cases hs
  · exact hlock hs
  · exact body_untouched htu hs
  · unfold SyncThreads.commit at hs
    split at hs
    · cases hs
    · obtain ⟨r, -, rfl⟩ := Option.map_eq_some_iff.mp hs
      exact .inl (Function.update_of_ne htu ..)
  · cases hs
  · exact hlock hs
  · obtain rfl := Option.some.inj hs
    exact waitLoop_untouched htu s _
  · obtain rfl := Option.some.inj hs
    exact .inl (Function.update_of_ne htu ..)
  · cases hs
  · obtain rfl := Option.some.inj hs
    exact .inl (Function.update_of_ne htu ..)

omit [DecidableEq τ] [Fintype τ] in
/-- Waking up does not end `uthread_evt_wait`. -/
theorem Untouched.inEvtWait (h : Untouched s s' t) (hw : (s.threads t).InEvtWait) :
    (s'.threads t).InEvtWait := by
  rcases h with heq | ⟨c, hb, hw'⟩
  · rw [heq]
    exact hw
  · rw [hb] at hw
    rw [hw']
    cases c <;> exact hw

/-- Neither does a step of the thread itself: the loop tests `status`, in
which the thread is counted. -/
theorem Sane.inEvtWait_move (h : Sane q₀ s) (hw : (s.threads t).InEvtWait) {pick : Option τ}
    {usec : Nat} (hs : s.move t pick usec = some s') : (s'.threads t).InEvtWait := by
  simp only [SyncThreads.move] at hs
  cases hp : s.threads t with
  | blocked c =>
    rw [hp] at hs
    cases hs
  | woken c =>
    rw [hp] at hs hw
    simp only [SyncThreads.lock] at hs
    split at hs
    · obtain rfl := Option.some.inj hs
      simp only [SyncThreads.goTo, Function.update_self]
      cases c <;> exact hw
    · cases hs
  | back c =>
    have hpos : 0 < s.status := h.status_pos (t := t) (by rw [hp]; rfl)
    rw [hp] at hs hw
    cases c with
    | wait deq =>
      obtain rfl := Option.some.inj hs
      unfold SyncThreads.waitLoop
      rw [if_pos (by omega)]
      simp only [SyncThreads.block, SyncThreads.goTo, Function.update_self]
      trivial
    | _ => exact hw.elim
  | _ =>
    rw [hp] at hw
    exact hw.elim

theorem Sane.inEvtWait_step (h : Sane q₀ s) (hw : (s.threads t).InEvtWait) {ev : ThreadEvent τ α}
    (hs : threadStep s ev = some s') : (s'.threads t).InEvtWait := by
  have hwoken : ∀ {u : τ} {c : Section α}, s.threads u = .blocked c →
      Untouched s (s.goTo u (.woken c)) t := by
    intro u c hu
    by_cases htu : t = u
    · subst htu
      exact .inr ⟨c, hu, Function.update_self ..⟩
    · exact .inl (Function.update_of_ne htu ..)
  cases ev with
  | call u c =>
    simp only [threadStep] at hs
    split at hs
    · rename_i hu
      obtain rfl := Option.some.inj hs
      have htu : t ≠ u := by
        rintro rfl
        rw [hu] at hw
        exact hw.elim
      exact Untouched.inEvtWait (.inl (Function.update_of_ne htu ..)) hw
    · cases hs
  | move u pick usec =>
    by_cases htu : t = u
    · subst htu
      exact h.inEvtWait_move hw hs
    · exact (move_untouched htu hs).inEvtWait hw
  | timeout u =>
    simp only [threadStep] at hs
    split at hs
    · rename_i hu
      obtain rfl := Option.some.inj hs
      exact (hwoken hu).inEvtWait hw
    · cases hs
  | spurious u =>
    simp only [threadStep] at hs
    split at hs
    · rename_i hu
      obtain rfl := Option.some.inj hs
      exact (hwoken hu).inEvtWait hw
    · cases hs

/-- **Progress.** In every state that threads can get to, `status` is the
number of threads in a wait; no thread can go on exactly if all are
outside or blocked in `uthread_evt_wait`, so neither the two mutexes nor a
timed wait ever stop a thread for good; and a thread that is in
`uthread_evt_wait` stays there, whatever the others do. -/
theorem syncqueue_stuck_iff (garbage : Nat → MqueueItem α) (init : Int)
    (evs : List (ThreadEvent τ α)) :
    Throughout threadStep
      (fun s => s.status = waiters s.threads
        ∧ ((∀ t, ¬ s.CanMove t)
          ↔ ∀ t, s.threads t = .idle ∨ ∃ deq, s.threads t = .blocked (.wait deq))
        ∧ ∀ t, (s.threads t).InEvtWait → ∀ more,
            Throughout threadStep (fun s' => (s'.threads t).InEvtWait) s more)
      (syncThreadsInit garbage init : SyncThreads τ α) evs := by
  refine throughout_of_invariant (I := Sane (mqueueInit garbage init)) (fun s ev s' h => h.step) ?_
    (sane_init garbage init)
  intro s h
  refine ⟨h.status, h.stuck_iff, fun t hw more => ?_⟩
  exact throughout_of_invariant
    (I := fun s' => Sane (mqueueInit garbage init) s' ∧ (s'.threads t).InEvtWait)
    (fun s₁ ev s₂ h₁ hs => ⟨h₁.1.step hs, h₁.1.inEvtWait_step h₁.2 hs⟩) (fun _ h' => h'.2) ⟨h, hw⟩

end Rms.Util
