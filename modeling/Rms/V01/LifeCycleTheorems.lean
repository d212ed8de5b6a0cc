/-
Rms.V01.LifeCycleTheorems — which client calls keep a node in order.

§1 says what the calls can do, one lemma for each function. §2 is about
the threads: a node that is active is served by exactly one daemon, and
none works on a closed one, exactly if every join that gets to the end
leaves one running, and `rmcast_close` knows the daemon that it should
wait for (`one_daemon_iff`). No function lets a client wait for the daemon
of the last session. §3 is about the sockets: they are as the
daemon needs them exactly if no join fails to set an option of its socket
(`wired_iff`).
-/
import Rms.Lib.Runs
import Rms.V01.LifeCycle

namespace Rms.V01

open Rms.Runs

/-! ## §1 The calls -/

section Calls

variable {s s' : Sockets} {ret : Int}

theorem Sockets.new_eq_some {fd : Int} (h : s.new fd = some s') :
    fd < 0 ∧ s' = s ∨ 0 ≤ fd ∧ fd ∉ s.fds ∧ s' = { s with fds := insert fd s.fds } := by
  unfold Sockets.new at h
  split at h
  · exact .inl ⟨‹_›, (Option.some.inj h).symm⟩
  · rename_i hneg
    split at h
    · cases h
    · exact .inr ⟨Int.not_lt.mp hneg, ‹_›, (Option.some.inj h).symm⟩

/-- The sockets with a new multicast socket. -/
def Sockets.withMcast (s : Sockets) (fd maxsock : Int) : Sockets :=
  { s with fds := insert fd s.fds, mcastSock := fd, maxsock := maxsock }

theorem initMcastSocket_cases {i : McastSetup} (h : initMcastSocket i s = some (s', ret)) :
    i.sock < 0 ∧ s' = { s with mcastSock := i.sock }
      ∨ 0 ≤ i.sock ∧ i.sock ∉ s.fds ∧ ∃ m, s.maxsock ≤ m ∧ i.sock < m
        ∧ (0 ≤ i.reuse ∧ 0 ≤ i.loop ∧ s' = s.withMcast i.sock m
          ∨ ¬ (0 ≤ i.reuse ∧ 0 ≤ i.loop)
            ∧ s' = (((s.withMcast i.sock m).close i.sock).close s.ipcSvrSock).close
              s.ipcCliSock) := by
  simp only [initMcastSocket, Option.bind_eq_bind, Option.bind_eq_some_iff] at h
  obtain ⟨s₁, hnew, h⟩ := h
  rcases Sockets.new_eq_some hnew with ⟨hneg, rfl⟩ | ⟨hpos, hfree, rfl⟩
  · rw [if_pos hneg] at h
    obtain ⟨rfl, -⟩ := Prod.mk.inj (Option.some.inj h)
    exact .inl ⟨hneg, rfl⟩
  · rw [if_neg (Int.not_lt.mpr hpos)] at h
    -- `maxsock` is raised if it has to be
    obtain ⟨m, hle, hlt, heq⟩ : ∃ m, s.maxsock ≤ m ∧ i.sock < m
        ∧ (if s.maxsock ≤ i.sock then
            { s.withMcast i.sock s.maxsock with maxsock := i.sock + 1 }
          else s.withMcast i.sock s.maxsock) = s.withMcast i.sock m := by
      split
      · exact ⟨i.sock + 1, by omega, by omega, rfl⟩
      · exact ⟨s.maxsock, le_rfl, by omega, rfl⟩
    refine .inr ⟨hpos, hfree, m, hle, hlt, ?_⟩
    simp only [Sockets.withMcast] at heq
    simp only [heq] at h
    split at h
    · rename_i hreuse
      obtain ⟨rfl, -⟩ := Prod.mk.inj (Option.some.inj h)
      exact .inr ⟨fun hok => absurd hreuse (Int.not_lt.mpr hok.1), rfl⟩
    · rename_i hreuse
      split at h
      · rename_i hloop
        obtain ⟨rfl, -⟩ := Prod.mk.inj (Option.some.inj h)
        exact .inr ⟨fun hok => absurd hloop (Int.not_lt.mpr hok.2), rfl⟩
      · rename_i hloop
        obtain ⟨rfl, -⟩ := Prod.mk.inj (Option.some.inj h)
        exact .inl ⟨Int.not_lt.mp hreuse, Int.not_lt.mp hloop, rfl⟩

/-- The IPC sockets are open and are three, and `select` sees them. -/
structure Wiring (s : Sockets) : Prop where
  svr : s.ipcSvrSock ∈ s.fds
  cli : s.ipcCliSock ∈ s.fds
  ipc : s.ipcSock ∈ s.fds
  svr_ne_cli : s.ipcSvrSock ≠ s.ipcCliSock
  svr_ne_ipc : s.ipcSvrSock ≠ s.ipcSock
  cli_ne_ipc : s.ipcCliSock ≠ s.ipcSock
  maxsock : s.ipcSock < s.maxsock
  maxrcv : s.ipcCliSock < s.maxrcv

/-- `init_ipc_sockets` opens all the sockets or none. -/
theorem initIpcSockets_cases {i : IpcSetup} (hfirst : s.initialized ≠ 12345)
    (h : initIpcSockets i s = some (s', ret)) :
    ret < 0 ∧ s'.fds = s.fds ∨ ret = 0 ∧ Wiring s' := by
  simp only [initIpcSockets, if_neg hfirst, Option.bind_eq_bind, Option.bind_eq_some_iff] at h
  obtain ⟨s₁, hnew, h⟩ := h
  rcases Sockets.new_eq_some hnew with ⟨hneg, rfl⟩ | ⟨hsvr, hfree₁, rfl⟩
  · rw [if_pos hneg] at h
    obtain ⟨rfl, rfl⟩ := Prod.mk.inj (Option.some.inj h)
    exact .inl ⟨hneg, rfl⟩
  rw [if_neg (Int.not_lt.mpr hsvr)] at h
  have hback : (insert i.svr s.fds).erase i.svr = s.fds := Finset.erase_insert hfree₁
  split at h
  · obtain ⟨rfl, rfl⟩ := Prod.mk.inj (Option.some.inj h)
    exact .inl ⟨by decide, hback⟩
  split at h
  · obtain ⟨rfl, rfl⟩ := Prod.mk.inj (Option.some.inj h)
    exact .inl ⟨by decide, hback⟩
  split at h
  · rename_i hlisten
    obtain ⟨rfl, rfl⟩ := Prod.mk.inj (Option.some.inj h)
    exact .inl ⟨hlisten, hback⟩
  simp only [Option.bind_eq_some_iff] at h
  obtain ⟨s₂, hnew₂, h⟩ := h
  rcases Sockets.new_eq_some hnew₂ with ⟨hneg, rfl⟩ | ⟨hcli, hfree₂, rfl⟩
  · rw [if_pos hneg] at h
    obtain ⟨rfl, rfl⟩ := Prod.mk.inj (Option.some.inj h)
    exact .inl ⟨hneg, hback⟩
  rw [if_neg (Int.not_lt.mpr hcli)] at h
  obtain ⟨hne, hfree₂⟩ : i.cli ≠ i.svr ∧ i.cli ∉ s.fds := by simpa using hfree₂
  have hback₂ : ((insert i.cli (insert i.svr s.fds)).erase i.svr).erase i.cli = s.fds := by
    rw [Finset.erase_insert_of_ne hne, hback, Finset.erase_insert hfree₂]
  split at h
  · obtain ⟨rfl, rfl⟩ := Prod.mk.inj (Option.some.inj h)
    exact .inl ⟨by decide, hback₂⟩
  split at h
  · obtain ⟨rfl, rfl⟩ := Prod.mk.inj (Option.some.inj h)
    exact .inl ⟨by decide, hback₂⟩
  split at h
  · rename_i hconnect
    obtain ⟨rfl, rfl⟩ := Prod.mk.inj (Option.some.inj h)
    exact .inl ⟨hconnect, hback₂⟩
  simp only [Option.bind_eq_some_iff] at h
  obtain ⟨s₃, hnew₃, h⟩ := h
  rcases Sockets.new_eq_some hnew₃ with ⟨hneg, rfl⟩ | ⟨hipc, hfree₃, rfl⟩
  · rw [if_pos hneg] at h
    obtain ⟨rfl, rfl⟩ := Prod.mk.inj (Option.some.inj h)
    exact .inl ⟨hneg, hback₂⟩
  · rw [if_neg (Int.not_lt.mpr hipc)] at h
    obtain ⟨rfl, rfl⟩ := Prod.mk.inj (Option.some.inj h)
    obtain ⟨hne_cli, hne_svr, -⟩ : i.accept ≠ i.cli ∧ i.accept ≠ i.svr ∧ i.accept ∉ s.fds := by
      simpa using hfree₃
    exact .inr ⟨rfl, by simp, by simp, by simp, hne.symm, hne_svr.symm, hne_cli.symm,
      Int.lt_succ _, Int.lt_succ _⟩

/-- What a call of `rmcast_join_on` did. -/
inductive JoinStep (j : JoinInput) (s : Life) : Life → Prop
  | refused (hactive : s.active = true) : JoinStep j s s
  | failed {socks : Sockets} {ret : Int} (hactive : s.active = false)
      (hinit : initMcastSocket j.mcast s.socks = some (socks, ret)) :
      JoinStep j s { s with socks := socks }
  | started {socks : Sockets} {ret : Int} (hactive : s.active = false)
      (hinit : initMcastSocket j.mcast s.socks = some (socks, ret))
      (hopen : 0 ≤ socks.mcastSock ∧ socks.mcastSock ∈ socks.fds) (hcreate : j.create = 0) :
      JoinStep j s { s with
        socks := socks, active := true, threads := s.threads ++ [.running]
        rmcastd := some s.threads.length }
  | threadless {socks : Sockets} {ret : Int} (hactive : s.active = false)
      (hinit : initMcastSocket j.mcast s.socks = some (socks, ret))
      (hopen : 0 ≤ socks.mcastSock ∧ socks.mcastSock ∈ socks.fds) (hcreate : j.create ≠ 0) :
      JoinStep j s { s with socks := socks, active := true, rmcastd := none }

theorem Sockets.open_of_setsockopt {fd result : Int} (h : ¬ s.setsockopt fd result < 0) :
    0 ≤ fd ∧ fd ∈ s.fds := by
  unfold Sockets.setsockopt at h
  split at h
  · assumption
  · exact absurd (by decide) h

theorem joinStep_rmcastJoinOn {j : JoinInput} {l l' : Life}
    (h : (rmcastJoinOn j l).map Prod.fst = some l') : JoinStep j l l' := by
  obtain ⟨⟨l'', r⟩, hj, rfl⟩ := Option.map_eq_some_iff.mp h
  clear h
  unfold rmcastJoinOn at hj
  split at hj
  · rename_i hactive
    obtain ⟨rfl, -⟩ := Prod.mk.inj (Option.some.inj hj)
    exact .refused hactive
  · rename_i hactive
    rw [Bool.not_eq_true] at hactive
    simp only [Option.bind_eq_bind, Option.bind_eq_some_iff] at hj
    obtain ⟨⟨socks, ret⟩, hinit, hj⟩ := hj
    dsimp only at hj
    split at hj
    · obtain ⟨rfl, -⟩ := Prod.mk.inj (Option.some.inj hj)
      exact .failed hactive hinit
    · rename_i httl
      have hopen := Sockets.open_of_setsockopt httl
      split at hj
      · obtain ⟨rfl, -⟩ := Prod.mk.inj (Option.some.inj hj)
        exact .failed hactive hinit
      · split at hj
        · rename_i hcreate
          obtain ⟨rfl, -⟩ := Prod.mk.inj (Option.some.inj hj)
          exact .started hactive hinit hopen hcreate
        · rename_i hcreate
          obtain ⟨rfl, -⟩ := Prod.mk.inj (Option.some.inj hj)
          exact .threadless hactive hinit hopen hcreate

end Calls

/-! ## §2 Threads -/

section Threads

variable {h : Host} {s s' : Life}

/-- The join gets as far as `active = 1`. -/
def Activates (s : Life) (j : JoinInput) : Prop :=
  s.active = false ∧ ∃ s', (rmcastJoinOn j s).map Prod.fst = some s' ∧ s'.active = true

/-- Only the last daemon may run; it does if the node is active, and it does
not once the node is closed. A thread that `rmcastd` names is the last. -/
structure Served (s : Life) : Prop where
  last : ∀ n, s.threads[n]? = some .running → n + 1 = s.threads.length
  named : ∀ n, s.rmcastd = some n → n + 1 = s.threads.length
  active : s.active = true → s.threads.getLast? = some .running
  closed : s.closed = true → s.threads.getLast? ≠ some .running

theorem getLast?_eq_running {threads : List Thread} :
    threads.getLast? = some .running
      ↔ ∃ n, threads[n]? = some .running ∧ n + 1 = threads.length := by
  rw [List.getLast?_eq_getElem?]
  constructor
  · intro hlast
    obtain ⟨hlt, -⟩ := List.getElem?_eq_some_iff.mp hlast
    exact ⟨_, hlast, by omega⟩
  · rintro ⟨n, hn, hlen⟩
    rwa [← hlen]

theorem Served.running_eq (hs : Served s) :
    s.running = (decide (s.threads.getLast? = some .running)).toNat := by
  have hlast := hs.last
  unfold Life.running
  generalize s.threads = threads at hlast ⊢
  induction threads using List.reverseRecOn with
  | nil => rfl
  | append_singleton ts t _ =>
    have hzero : ts.count .running = 0 := by
      refine List.count_eq_zero.mpr fun hmem => ?_
      obtain ⟨n, hn⟩ := List.getElem?_of_mem hmem
      obtain ⟨hlt, -⟩ := List.getElem?_eq_some_iff.mp hn
      have hend := hlast n (by rw [List.getElem?_append_left hlt, hn])
      rw [List.length_append, List.length_singleton] at hend
      omega
    rw [List.count_append, hzero, List.getLast?_concat]
    cases t <;> rfl

theorem Served.running_eq_one (hs : Served s) :
    s.running = 1 ↔ s.threads.getLast? = some .running := by
  rw [hs.running_eq]
  by_cases hlast : s.threads.getLast? = some .running <;> simp [hlast]

theorem Served.running_eq_zero (hs : Served s) :
    s.running = 0 ↔ s.threads.getLast? ≠ some .running := by
  rw [hs.running_eq]
  by_cases hlast : s.threads.getLast? = some .running <;> simp [hlast]

/-- The same threads. -/
theorem Served.of_threads (hs : Served s) (hthreads : s'.threads = s.threads)
    (hnamed : s'.rmcastd = s.rmcastd) (hactive : s'.active = true → s.active = true)
    (hclosed : s'.closed = s.closed) : Served s' where
  last := by rw [hthreads]; exact hs.last
  named := by rw [hthreads, hnamed]; exact hs.named
  active := fun ha => by rw [hthreads]; exact hs.active (hactive ha)
  closed := fun hc => by rw [hthreads]; exact hs.closed (hclosed ▸ hc)

/-- A daemon that does not run is replaced by another one that does not. -/
theorem getElem?_set_idle {threads : List Thread} {t : Thread} (ht : t ≠ .running) {n m : Nat}
    (hm : (threads.set n t)[m]? = some .running) : threads[m]? = some .running := by
  rw [List.getElem?_set] at hm
  split at hm
  · split at hm
    · exact absurd (Option.some.inj hm) ht
    · cases hm
  · exact hm

theorem running_started (s : Life) (socks : Sockets) :
    Life.running { s with
        socks := socks, active := true, threads := s.threads ++ [.running]
        rmcastd := some s.threads.length }
      = s.running + 1 := by
  simp [Life.running]

/-- **A join** that lets exactly one daemon run. -/
theorem served_join {j : JoinInput} (hs : Served s) (hj : JoinStep j s s')
    (hok : s.active = false → s'.active = true →
      s.running + (decide (j.create = 0)).toNat = 1 ∧ s.closed = false) : Served s' := by
  cases hj with
  | refused hactive => exact hs
  | failed hactive hinit => exact hs.of_threads rfl rfl id rfl
  | started hactive hinit hopen hcreate =>
    obtain ⟨hone, hopen⟩ := hok hactive rfl
    rw [decide_eq_true hcreate] at hone
    have hzero := hs.running_eq_zero.mp (Nat.succ.inj hone)
    refine ⟨?_, ?_, fun _ => List.getLast?_concat,
      fun hc => absurd (hopen.symm.trans hc) (by decide)⟩
    · intro n hn
      dsimp only at hn ⊢
      rw [List.length_append, List.length_singleton]
      by_cases hlt : n < s.threads.length
      · rw [List.getElem?_append_left hlt] at hn
        exact absurd (getLast?_eq_running.mpr ⟨n, hn, hs.last n hn⟩) hzero
      · obtain ⟨hle, -⟩ := List.getElem?_eq_some_iff.mp hn
        rw [List.length_append, List.length_singleton] at hle
        omega
    · intro n hn
      obtain rfl := Option.some.inj hn
      rw [List.length_append, List.length_singleton]
  | threadless hactive hinit hopen hcreate =>
    obtain ⟨hone, hopen⟩ := hok hactive rfl
    rw [decide_eq_false hcreate] at hone
    refine ⟨hs.last, nofun, fun _ => hs.running_eq_one.mp hone, ?_⟩
    exact fun hc => absurd (hopen.symm.trans hc) (by decide)

/-- Every join that gets as far as `active = 1` leaves exactly one daemon
running, no join is made after `rmcast_close`, and none of the daemons
runs when `rmcast_close` finds that `rmcastd` names none. -/
def OneDaemon (s : Life) : LifeOp → Prop
  | .join j => Activates s j → s.running + (decide (j.create = 0)).toNat = 1 ∧ s.closed = false
  | .joined => s.rmcastd = none → s.running = 0
  | _ => True

/-- **One step.** -/
theorem served_step {op : LifeOp} (hs : Served s) (hok : OneDaemon s op)
    (hstep : lifeStep h s op = some s') : Served s' := by
  cases op with
  | join j =>
    simp only [lifeStep] at hstep
    split at hstep
    · cases hstep
    · refine served_join hs (joinStep_rmcastJoinOn hstep) fun hactive hactive' => ?_
      exact hok ⟨hactive, s', hstep, hactive'⟩
  | leave keys =>
    simp only [lifeStep] at hstep
    split at hstep
    · cases hstep
    · obtain rfl := Option.some.inj hstep
      exact hs.of_threads rfl rfl (fun ha => nomatch ha) rfl
  | close keys =>
    simp only [lifeStep] at hstep
    split at hstep
    · cases hstep
    · obtain rfl := Option.some.inj hstep
      split
      · exact hs.of_threads rfl rfl (fun ha => nomatch ha) rfl
      · exact hs.of_threads rfl rfl id rfl
  | joined =>
    simp only [lifeStep] at hstep
    split at hstep
    · split at hstep
      · rename_i hnone
        obtain rfl := Option.some.inj hstep
        exact ⟨hs.last, hs.named, hs.active, fun _ => hs.running_eq_zero.mp (hok hnone)⟩
      · rename_i n hn
        split at hstep
        · rename_i hended
          obtain rfl := Option.some.inj hstep
          -- the thread that ended is the last one
          have hidle : s.threads.getLast? ≠ some .running := by
            rw [List.getLast?_eq_getElem?, ← hs.named n hn, Nat.add_sub_cancel, hended]
            decide
          have hset : ∀ m : Nat, (s.threads.set n .joined)[m]? ≠ some .running := by
            intro m hm
            have hold := getElem?_set_idle (by decide) hm
            exact hidle (getLast?_eq_running.mpr ⟨m, hold, hs.last m hold⟩)
          refine ⟨fun m hm => absurd hm (hset m), ?_, fun ha => absurd (hs.active ha) hidle, ?_⟩
          · intro m hm
            rw [List.length_set]
            exact hs.named m hm
          · intro _ hrun
            obtain ⟨m, hm, -⟩ := getLast?_eq_running.mp hrun
            exact hset m hm
        · cases hstep
    · cases hstep
  | pass n i =>
    simp only [lifeStep] at hstep
    split at hstep
    · obtain ⟨cb', -, rfl⟩ := Option.map_eq_some_iff.mp hstep
      exact hs.of_threads rfl rfl id rfl
    · cases hstep
  | exit n =>
    simp only [lifeStep] at hstep
    split at hstep
    · rename_i hcond
      obtain rfl := Option.some.inj hstep
      refine ⟨?_, ?_, ?_, ?_⟩
      · intro m hm
        dsimp only at hm ⊢
        rw [List.length_set]
        exact hs.last m (getElem?_set_idle (by decide) hm)
      · intro m hm
        rw [List.length_set]
        exact hs.named m hm
      · exact fun ha => absurd (hcond.2.symm.trans ha) (by decide)
      · intro hc hrun
        obtain ⟨m, hm, hlen⟩ := getLast?_eq_running.mp hrun
        rw [List.length_set] at hlen
        exact hs.closed hc
          (getLast?_eq_running.mpr ⟨m, getElem?_set_idle (by decide) hm, hlen⟩)
    · cases hstep

/-- A join that leaves another number of daemons running, or is made after
`rmcast_close`. -/
theorem not_served_join {j : JoinInput} (hbad : ¬ OneDaemon s (.join j))
    (hstep : lifeStep h s (.join j) = some s') :
    ¬ ((s'.active = true → s'.running = 1) ∧ (s'.closed = true → s'.running = 0)) := by
  simp only [OneDaemon, Classical.not_imp] at hbad
  obtain ⟨⟨hactive, s'', hjoin, hactive'⟩, hbad⟩ := hbad
  simp only [lifeStep] at hstep
  split at hstep
  · cases hstep
  obtain rfl := Option.some.inj (hjoin.symm.trans hstep)
  rintro ⟨hone, hzero⟩
  have hnow : s''.running = s.running + (decide (j.create = 0)).toNat ∧ s''.closed = s.closed := by
    cases joinStep_rmcastJoinOn hjoin with
    | refused hyes => exact absurd (hactive.symm.trans hyes) (by decide)
    | failed _ hinit => exact absurd (hactive.symm.trans hactive') (by decide)
    | started _ hinit hopen hcreate =>
      rw [running_started, decide_eq_true hcreate]
      exact ⟨rfl, rfl⟩
    | threadless _ hinit hopen hcreate =>
      rw [decide_eq_false hcreate]
      exact ⟨rfl, rfl⟩
  refine hbad ⟨hnow.1 ▸ hone hactive', ?_⟩
  cases hc : s.closed with
  | false => rfl
  | true =>
    have hnone := hzero (hnow.2.trans hc)
    rw [hone hactive'] at hnone
    cases hnone

/-- The only other step that can go wrong is a `pthread_join` that does not
wait. -/
theorem not_served {op : LifeOp} (hbad : ¬ OneDaemon s op) (hstep : lifeStep h s op = some s') :
    ¬ ((s'.active = true → s'.running = 1) ∧ (s'.closed = true → s'.running = 0)) := by
  cases op with
  | join j => exact not_served_join hbad hstep
  | joined =>
    simp only [OneDaemon, Classical.not_imp] at hbad
    obtain ⟨hnone, hrunning⟩ := hbad
    simp only [lifeStep, hnone] at hstep
    split at hstep
    · obtain rfl := Option.some.inj hstep
      exact fun hgood => hrunning (hgood.2 rfl)
    · cases hstep
  | leave keys => exact absurd trivial hbad
  | close keys => exact absurd trivial hbad
  | pass n i => exact absurd trivial hbad
  | exit n => exact absurd trivial hbad

/-- **One daemon.** Along every run of the client's calls and of the daemons
they start: at most one daemon runs, exactly one while the node is active
and none once it is closed, exactly if every join that gets as far as
`active = 1` leaves one daemon running, none is made after `rmcast_close`,
and no `rmcast_close` goes on past a daemon that `rmcastd` does not name. -/
theorem one_daemon_iff (h : Host) (cb : RmcCtrlBlock) (socks : Sockets) (ops : List LifeOp) :
    Throughout (lifeStep h) (fun s => s.running ≤ 1 ∧ (s.active = true → s.running = 1)
        ∧ (s.closed = true → s.running = 0)) (Life.start cb socks) ops
      ↔ Guarded (lifeStep h) OneDaemon (Life.start cb socks) ops := by
  refine throughout_iff_of_invariant (I := Served) ?_ ?_ ?_ ⟨?_, nofun, ?_, ?_⟩
  · intro s hs
    refine ⟨?_, fun ha => hs.running_eq_one.mpr (hs.active ha),
      fun hc => hs.running_eq_zero.mpr (hs.closed hc)⟩
    rw [hs.running_eq]
    exact Bool.toNat_le _
  · exact fun s op s' hs hok hstep => served_step hs hok hstep
  · exact fun s op s' _ hbad hstep hgood => not_served hbad hstep hgood.2
  · exact fun n hn => by simp [Life.start] at hn
  · exact fun ha => nomatch ha
  · exact fun hc => nomatch hc

end Threads

/-! ## §3 Sockets -/

section Wires

variable {h : Host} {s s' : Life}

/-- The sockets of a node are open and different, and `select` sees those it
is called for; an active node has its multicast socket. -/
structure Wired (s : Life) : Prop where
  ipc : Wiring s.socks
  mcast : s.active = true → s.socks.mcastSock ∈ s.socks.fds
    ∧ s.socks.mcastSock ≠ s.socks.ipcSvrSock ∧ s.socks.mcastSock ≠ s.socks.ipcCliSock
    ∧ s.socks.mcastSock ≠ s.socks.ipcSock ∧ s.socks.mcastSock < s.socks.maxsock

/-- A join that opens a socket can set its options. -/
def OptionsSet (s : Life) (op : LifeOp) : Prop :=
  ∀ j, op = .join j → s.active = false → 0 ≤ j.mcast.sock → 0 ≤ j.mcast.reuse ∧ 0 ≤ j.mcast.loop

theorem Wiring.withMcast {t : Sockets} (hw : Wiring t) {fd m : Int} (hm : t.maxsock ≤ m) :
    Wiring (t.withMcast fd m) where
  svr := Finset.mem_insert_of_mem hw.svr
  cli := Finset.mem_insert_of_mem hw.cli
  ipc := Finset.mem_insert_of_mem hw.ipc
  svr_ne_cli := hw.svr_ne_cli
  svr_ne_ipc := hw.svr_ne_ipc
  cli_ne_ipc := hw.cli_ne_ipc
  maxsock := lt_of_lt_of_le hw.maxsock hm
  maxrcv := hw.maxrcv

/-- The multicast socket of a join, if its options could be set. -/
theorem wired_initMcastSocket {i : McastSetup} {t t' : Sockets} {ret : Int} (hw : Wiring t)
    (hok : 0 ≤ i.sock → 0 ≤ i.reuse ∧ 0 ≤ i.loop) (hi : initMcastSocket i t = some (t', ret)) :
    Wiring t' ∧ (0 ≤ t'.mcastSock → t'.mcastSock ≠ t'.ipcSvrSock
      ∧ t'.mcastSock ≠ t'.ipcCliSock ∧ t'.mcastSock ≠ t'.ipcSock ∧ t'.mcastSock < t'.maxsock) := by
  rcases initMcastSocket_cases hi with
    ⟨hneg, rfl⟩ | ⟨hpos, hfree, m, hm, hlt, ⟨-, -, rfl⟩ | ⟨hbad, -⟩⟩
  · exact ⟨{ hw with }, fun hpos => absurd hneg (Int.not_lt.mpr hpos)⟩
  · have hne : ∀ fd ∈ t.fds, i.sock ≠ fd := fun fd hfd heq => hfree (heq ▸ hfd)
    exact ⟨hw.withMcast hm, fun _ => ⟨hne _ hw.svr, hne _ hw.cli, hne _ hw.ipc, hlt⟩⟩
  · exact absurd (hok hpos) hbad

theorem wired_join {j : JoinInput} (hs : Wired s) (hj : JoinStep j s s')
    (hok : s.active = false → 0 ≤ j.mcast.sock → 0 ≤ j.mcast.reuse ∧ 0 ≤ j.mcast.loop) :
    Wired s' := by
  cases hj with
  | refused hactive => exact hs
  | failed hactive hinit =>
    obtain ⟨hw, -⟩ := wired_initMcastSocket hs.ipc (hok hactive) hinit
    exact ⟨hw, fun ha => absurd (hactive.symm.trans ha) (by decide)⟩
  | started hactive hinit hopen hcreate =>
    obtain ⟨hw, hnew⟩ := wired_initMcastSocket hs.ipc (hok hactive) hinit
    exact ⟨hw, fun _ => ⟨hopen.2, hnew hopen.1⟩⟩
  | threadless hactive hinit hopen hcreate =>
    obtain ⟨hw, hnew⟩ := wired_initMcastSocket hs.ipc (hok hactive) hinit
    exact ⟨hw, fun _ => ⟨hopen.2, hnew hopen.1⟩⟩

/-- No step but a join touches a socket or sets `active`. -/
theorem lifeStep_socks {op : LifeOp} (hop : ∀ j, op ≠ .join j)
    (hstep : lifeStep h s op = some s') :
    s'.socks = s.socks ∧ (s'.active = true → s.active = true) := by
  cases op with
  | join j => exact absurd rfl (hop j)
  | leave keys =>
    simp only [lifeStep] at hstep
    split at hstep
    · cases hstep
    · obtain rfl := Option.some.inj hstep
      exact ⟨rfl, fun ha => nomatch ha⟩
  | close keys =>
    simp only [lifeStep] at hstep
    split at hstep
    · cases hstep
    · obtain rfl := Option.some.inj hstep
      split
      · exact ⟨rfl, fun ha => nomatch ha⟩
      · exact ⟨rfl, id⟩
  | joined =>
    simp only [lifeStep] at hstep
    split at hstep
    · split at hstep
      · obtain rfl := Option.some.inj hstep
        exact ⟨rfl, id⟩
      · split at hstep
        · obtain rfl := Option.some.inj hstep
          exact ⟨rfl, id⟩
        · cases hstep
    · cases hstep
  | pass n i =>
    simp only [lifeStep] at hstep
    split at hstep
    · obtain ⟨cb', -, rfl⟩ := Option.map_eq_some_iff.mp hstep
      exact ⟨rfl, id⟩
    · cases hstep
  | exit n =>
    simp only [lifeStep] at hstep
    split at hstep
    · obtain rfl := Option.some.inj hstep
      exact ⟨rfl, id⟩
    · cases hstep

/-- **One step.** -/
theorem wired_step {op : LifeOp} (hs : Wired s) (hok : OptionsSet s op)
    (hstep : lifeStep h s op = some s') : Wired s' := by
  by_cases hop : ∃ j, op = .join j
  · obtain ⟨j, rfl⟩ := hop
    simp only [lifeStep] at hstep
    split at hstep
    · cases hstep
    · exact wired_join hs (joinStep_rmcastJoinOn hstep) (hok j rfl)
  · obtain ⟨hsocks, hactive⟩ := lifeStep_socks (fun j heq => hop ⟨j, heq⟩) hstep
    refine ⟨hsocks ▸ hs.ipc, fun ha => ?_⟩
    rw [hsocks]
    exact hs.mcast (hactive ha)

/-- A join that cannot set an option closes the IPC sockets. -/
theorem not_wired {op : LifeOp} (hbad : ¬ OptionsSet s op) (hstep : lifeStep h s op = some s') :
    ¬ Wired s' := by
  simp only [OptionsSet, not_forall] at hbad
  obtain ⟨j, rfl, hactive, hpos, hbad⟩ := hbad
  simp only [lifeStep] at hstep
  split at hstep
  · cases hstep
  have hclosed : ∀ {t t' : Sockets} {ret : Int}, initMcastSocket j.mcast t = some (t', ret) →
      t'.ipcCliSock ∉ t'.fds := by
    intro t t' ret hi
    rcases initMcastSocket_cases hi with
      ⟨hneg, -⟩ | ⟨-, -, m, -, -, ⟨hreuse, hloop, -⟩ | ⟨-, rfl⟩⟩
    · exact absurd hneg (Int.not_lt.mpr hpos)
    · exact absurd ⟨hreuse, hloop⟩ hbad
    · exact Finset.notMem_erase _ _
  intro hw
  cases joinStep_rmcastJoinOn hstep with
  | refused hyes => exact absurd (hactive.symm.trans hyes) (by decide)
  | failed _ hinit => exact hclosed hinit hw.ipc.cli
  | started _ hinit hopen hcreate => exact hclosed hinit hw.ipc.cli
  | threadless _ hinit hopen hcreate => exact hclosed hinit hw.ipc.cli

/-- **Sockets.** `init_ipc_sockets` fails and leaves no socket open, or it
succeeds; then the sockets are in order all along a run of the client's
calls and of the daemons exactly if every join that opens a socket can set
its options. -/
theorem wired_iff (h : Host) (cb : RmcCtrlBlock) (fds : Finset Int) (i : IpcSetup)
    (socks : Sockets) (ret : Int)
    (hinit : initIpcSockets i (Sockets.boot fds) = some (socks, ret)) :
    ret < 0 ∧ socks.fds = fds
      ∨ ret = 0 ∧ ∀ ops, Throughout (lifeStep h) Wired (Life.start cb socks) ops
          ↔ Guarded (lifeStep h) OptionsSet (Life.start cb socks) ops := by
  refine (initIpcSockets_cases (by simp [Sockets.boot]) hinit).imp id ?_
  rintro ⟨rfl, hw⟩
  refine ⟨rfl, fun ops => throughout_iff_of_invariant (I := Wired) ?_ ?_ ?_ ⟨hw, ?_⟩⟩
  · exact fun s hs => hs
  · exact fun s op s' hs hok hstep => wired_step hs hok hstep
  · exact fun s op s' _ hbad hstep => not_wired hbad hstep
  · exact fun ha => nomatch ha

/-- Descriptors 3, 4 and 5. -/
def threeSockets : IpcSetup := ⟨3, 0, 0, 0, 4, 0, 0, 0, 5⟩

theorem wired_iff_threeSockets :
    initIpcSockets threeSockets (Sockets.boot {0, 1, 2})
        = some (⟨insert 5 (insert 4 (insert 3 {0, 1, 2})), 0, 3, 4, 5, 0, 6, 5⟩, 0)
      ∧ ((0 : Int) < 0 ∧ (insert 5 (insert 4 (insert 3 {0, 1, 2})) : Finset Int) = {0, 1, 2}
        ∨ (0 : Int) = 0 ∧ ∀ ops, Throughout (lifeStep littleHost) Wired
            (Life.start nodeTwo ⟨insert 5 (insert 4 (insert 3 {0, 1, 2})), 0, 3, 4, 5, 0, 6, 5⟩) ops
          ↔ Guarded (lifeStep littleHost) OptionsSet
            (Life.start nodeTwo ⟨insert 5 (insert 4 (insert 3 {0, 1, 2})), 0, 3, 4, 5, 0, 6, 5⟩)
            ops) :=
  ⟨rfl, wired_iff littleHost nodeTwo {0, 1, 2} threeSockets _ 0 rfl⟩

end Wires

end Rms.V01
