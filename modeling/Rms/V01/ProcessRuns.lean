/-
Rms.V01.ProcessRuns — what holds along the safe runs of a process.

`Faithful` is what `step_simulates` needs and gives: every buffer is in one
place only, and `outmsgbuf` stands for the map that the node has. It holds
in every state of a safe run (`faithful_run`). Three results about whole
runs are carried over from the node:

* retention with acks (`retention_iff`): the table drops a number too early
  exactly if some branch purges too far;
* the form of what is sent (`emitted_wellFormed_iff`). A process does not
  live to send a NACK (`not_asks`), so nothing is asked of the datagrams
  that arrive;
* `rmcast_leave` (`leaveResets_iff`).
-/
import Rms.V01.ProcessTheorems

namespace Rms.V01

open Rms.ByteMem Rms.Util Rms.Runs Rms.Serial

namespace Process

variable {h : Host} {s s' : Process} {op : Op} {sender : SockaddrIn} {r : RecvResult}

/-! ## Faithful states -/

/-- The table stands for the map, and every buffer is in one place. -/
structure Faithful (s : Process) : Prop where
  stands : Stands s.outmsgbuf s.cb.outmsgbuf
  owned : ∃ hand, Owned s.cb hand

theorem faithful_start (g : Garbage) (garbage : Nat → Hashtable.HtblEntry Nat) (a : InitArgs) :
    Faithful (start g garbage a) :=
  ⟨stands_start g garbage a, [], owned_rmcastInit g a⟩

theorem Faithful.step (f : Faithful s) (hsafe : PoolSafe s op) (hstep : s.step h op = some s') :
    Faithful s' := by
  obtain ⟨hnode, stands⟩ := step_simulates f.stands hsafe hstep
  obtain ⟨hand, hown⟩ := f.owned
  exact ⟨stands, owned_nodeStep hown hnode⟩

/-- Every state of a safe run is faithful. -/
theorem faithful_run {g : Garbage} {garbage : Nat → Hashtable.HtblEntry Nat} {a : InitArgs}
    {ops : List Op} (hsafe : Guarded (Process.step h) PoolSafe (start g garbage a) ops)
    (hrun : run (Process.step h) (start g garbage a) ops = some s) : Faithful s :=
  run_invariant (fun _ _ _ f hok hstep => f.step hok hstep) (faithful_start g garbage a) hsafe hrun

/-! ## Retention with acks -/

/-- A step drops a number from `outmsgbuf` only if every member has
acknowledged it, and `oldest_seq` stays within the numbers used. -/
def Retains (s s' : Process) : Prop :=
  (∀ k, (s.kept k).isSome → s'.kept k = none →
    ∀ mp, MemberOf s.cb mp → k ≤ (s.cb.mems mp).sequenceSync)
  ∧ s'.cb.oldestSeq ≤ s'.cb.self.sequence

theorem retains_iff (st : Stands s.outmsgbuf s.cb.outmsgbuf)
    (st' : Stands s'.outmsgbuf s'.cb.outmsgbuf) : Retains s s' ↔ V01.Retains s.cb s'.cb := by
  have hkept : s.kept = htblGet s.cb.outmsgbuf := st.kept s.cb
  have hkept' : s'.kept = htblGet s'.cb.outmsgbuf := st'.kept s'.cb
  rw [Retains, V01.Retains, hkept, hkept']

/-- The client's message does not use up the numbers, and no removal links
an entry of a bucket into the pool. -/
def SafeBranch (s : Process) (b : Branch) : Prop := NoWrap s.cb b ∧ PoolSafe s (.branch b)

instance (s : Process) (b : Branch) : Decidable (SafeBranch s b) :=
  inferInstanceAs (Decidable (_ ∧ _))

/-- **Retention with acks.** A safe run drops no number that some member
has not acknowledged, and keeps `oldest_seq` within the numbers used,
exactly if no branch purges too far. -/
theorem retention_iff (h : Host) (g : Garbage) (garbage : Nat → Hashtable.HtblEntry Nat)
    (a : InitArgs) (hack : a.hbAck = true) {bs : List Branch}
    (hsafe : Guarded (branch h) SafeBranch (start g garbage a) bs) :
    Guarded (branch h) (fun s b => ∀ s', s.branch h b = some s' → Retains s s')
        (start g garbage a) bs
      ↔ Guarded (branch h) (fun s b => AckSafe s.cb b) (start g garbage a) bs := by
  refine guarded_congr (I := fun s => Acking s.cb ∧ Stands s.outmsgbuf s.cb.outmsgbuf) ?_ ?_
    ⟨acking_rmcastInit g hack, stands_start g garbage a⟩ hsafe
  · rintro s b s' ⟨k, st⟩ ⟨hwrap, hpool⟩ hb
    obtain ⟨hnode, st'⟩ := step_simulates st hpool hb
    rw [← retains_branch_iff k hwrap hnode, ← retains_iff st st']
    refine ⟨fun hall => hall s' hb, fun hone s₁ hb₁ => ?_⟩
    obtain rfl := Option.some.inj (hb.symm.trans hb₁)
    exact hone
  · rintro s b s' ⟨k, st⟩ ⟨hwrap, hpool⟩ hall hb
    obtain ⟨hnode, st'⟩ := step_simulates st hpool hb
    exact ⟨acking_branch k hwrap ((retains_iff st st').mp (hall s' hb)) hnode, st'⟩

/-- The process of node 1 with acks, and one without. -/
def ackStart : Process := start zeroGarbage Hashtable.blank ackArgs

def plainStart : Process := start zeroGarbage Hashtable.blank plainArgs

theorem retention_iff_oneAhead :
    ackArgs.hbAck = true
      ∧ Guarded (branch littleHost) SafeBranch ackStart (oneAhead ++ [.ack])
      ∧ (Guarded (branch littleHost)
            (fun s b => ∀ s', s.branch littleHost b = some s' → Retains s s')
            ackStart (oneAhead ++ [.ack])
          ↔ Guarded (branch littleHost) (fun s b => AckSafe s.cb b) ackStart
              (oneAhead ++ [.ack])) := by
  have hsafe : Guarded (branch littleHost) SafeBranch ackStart (oneAhead ++ [.ack]) := by
    decide +kernel
  exact ⟨rfl, hsafe, retention_iff littleHost zeroGarbage Hashtable.blank ackArgs rfl hsafe⟩

/-- The next ack branch drops number 1, which node 3 has not acknowledged. -/
theorem retention_fails :
    ∃ s s', run (branch littleHost) ackStart oneAhead = some s
      ∧ s.branch littleHost .ack = some s' ∧ ¬ Retains s s' := by
  have hrun : (run (branch littleHost) ackStart oneAhead).bind (fun s =>
      (s.branch littleHost .ack).map fun s' =>
        ((s.kept 1).isSome, s'.kept 1, decide (0 < mqueueSize s.cb.membersq),
          mqueueContent s.cb.membersq 0, (s.cb.mems 1).sequenceSync))
      = some (true, none, true, some 1, 0) := by decide +kernel
  obtain ⟨s, hs, hstep⟩ := Option.bind_eq_some_iff.mp hrun
  obtain ⟨s', hs', heq⟩ := Option.map_eq_some_iff.mp hstep
  simp only [Prod.mk.injEq, decide_eq_true_eq] at heq
  obtain ⟨hkept, hgone, hsize, hmember, hsync⟩ := heq
  refine ⟨s, s', hs, hs', fun hkeep => ?_⟩
  have hle := hkeep.1 1 hkept hgone 1 ⟨0, hsize, hmember⟩
  rw [hsync] at hle
  exact absurd hle (by decide)

/-! ## The form of what is sent -/

/-- A process with the log of the datagrams it passed to `sendto`, each
with its kind. -/
structure Emitter where
  process : Process
  emitted : List (MsgType × List UInt8)

namespace Emitter

def start (g : Garbage) (garbage : Nat → Hashtable.HtblEntry Nat) (a : InitArgs) : Emitter :=
  { process := Process.start g garbage a, emitted := [] }

def step (h : Host) (x : Emitter) (op : Op) : Option Emitter :=
  (x.process.step h op).map fun s' =>
    { process := s'
      emitted := x.emitted ++ (s'.cb.sent.drop x.process.cb.sent.length).map
        fun y => (kindOf h x.process.cb (op.node x.process), y.bytes) }

/-- Everything sent so far was well formed. -/
def AllWellFormed (x : Emitter) : Prop :=
  ∀ y ∈ x.emitted, WellFormed x.process.cb.version y.1 y.2

/-- The log beside the node. -/
def node (x : Emitter) : V01.Emitter := { cb := x.process.cb, emitted := x.emitted }

theorem step_simulates {x x' : Emitter} (st : Stands x.process.outmsgbuf x.process.cb.outmsgbuf)
    (hsafe : PoolSafe x.process op) (hstep : x.step h op = some x') :
    x.node.step h (op.node x.process) = some x'.node
      ∧ Stands x'.process.outmsgbuf x'.process.cb.outmsgbuf := by
  obtain ⟨s', hs, rfl⟩ := Option.map_eq_some_iff.mp hstep
  obtain ⟨hnode, st'⟩ := Process.step_simulates st hsafe hs
  exact ⟨Option.map_eq_some_iff.mpr ⟨s'.cb, hnode, rfl⟩, st'⟩

end Emitter

/-- What a step is about to send has the right version in its buffer and a
length of sixteen bits. The switch sends nothing but what was sent before. -/
def CleanSend (h : Host) (s : Process) : Op → Prop
  | .branch (.mcast _ _) => True
  | op => V01.CleanSend h s.cb (op.node s)

/-- A process that has nothing cached does not survive a datagram that asks
for a NACK. -/
theorem not_asks (st : Stands s.outmsgbuf s.cb.outmsgbuf) (hempty : Bounded.Uncached s.cb)
    (hb : mcastBranch h sender r s = some s') (sequence : UInt32) (t : Htbl Nat) :
    ¬ Asks h r s.cb sequence t := by
  intro ha
  obtain ⟨⟨flag, hbounded⟩, -⟩ := mcastBranch_simulates st hb
  have hdies := (Bounded.mcastBranch_of_uncached h sender r hempty).1 ⟨sequence, t, ha⟩
  exact absurd (hdies.symm.trans hbounded) nofun

theorem cleanSend_of_not_asks (hno : ∀ sequence t, ¬ Asks h r s.cb sequence t) :
    V01.CleanSend h s.cb (.branch (.mcast sender r)) := by
  intro m v hacc hv hahead
  exact ⟨fun hev => absurd (.data hacc hev hv hahead) (hno _ _),
    fun hev => absurd (.hbeat hacc hev hv hahead) (hno _ _)⟩

/-- For a process, the condition on the node is one on what it sends of its
own accord. -/
theorem cleanSend_iff (st : Stands s.outmsgbuf s.cb.outmsgbuf) (hempty : Bounded.Uncached s.cb)
    (hstep : s.step h op = some s') :
    V01.CleanSend h s.cb (op.node s) ↔ CleanSend h s op := by
  cases op with
  | branch b =>
    cases b with
    | mcast sender r =>
      exact ⟨fun _ => trivial, fun _ => cleanSend_of_not_asks (not_asks st hempty hstep)⟩
    | ipc i => exact Iff.rfl
    | hbeat => exact Iff.rfl
    | ack => exact Iff.rfl
  | leave keys => exact Iff.rfl
  | exit => exact Iff.rfl

/-- Nothing is ever cached. -/
theorem uncached_step (f : Faithful s) (hempty : Bounded.Uncached s.cb) (hsafe : PoolSafe s op)
    (hstep : s.step h op = some s') : Bounded.Uncached s'.cb := by
  obtain ⟨hand, hown⟩ := f.owned
  obtain ⟨hnode, -⟩ := step_simulates f.stands hsafe hstep
  by_cases harr : (op.node s).isArrival = false
  · exact (shrinks_nodeStep h.endian hown harr hnode).empty hempty
  · cases op with
    | branch b =>
      cases b with
      | mcast sender r =>
        obtain ⟨⟨flag, hbounded⟩, -⟩ := mcastBranch_simulates f.stands hstep
        exact empty_mcastBranch hown hempty (not_asks f.stands hempty hstep)
          (Bounded.mcastBranch_free hbounded)
      | ipc i => exact absurd rfl harr
      | hbeat => exact absurd rfl harr
      | ack => exact absurd rfl harr
    | leave keys => exact absurd rfl harr
    | exit => exact absurd rfl harr

theorem uncached_start (g : Garbage) (garbage : Nat → Hashtable.HtblEntry Nat) (a : InitArgs) :
    Bounded.Uncached (start g garbage a).cb := by
  intro x v hv
  rw [show (start g garbage a).cb = rmcastInit g a from rfl, peerAt,
    (rmcastInit_node g a).2.1] at hv
  cases hv

/-- What holds along the safe runs: the log holds what is kept, and all of
it is well formed. -/
structure Emitting (x : Emitter) : Prop where
  faithful : Faithful x.process
  uncached : Bounded.Uncached x.process.cb
  logged : Logged x.node
  wellFormed : x.AllWellFormed

/-- **One step** sends only well-formed datagrams exactly if it is clean. -/
theorem Emitting.step_iff {x x' : Emitter} (e : Emitting x) (hsafe : PoolSafe x.process op)
    (hstep : x.step h op = some x') : x'.AllWellFormed ↔ CleanSend h x.process op := by
  obtain ⟨hnode, -⟩ := Emitter.step_simulates e.faithful.stands hsafe hstep
  obtain ⟨s', hs, -⟩ := Option.map_eq_some_iff.mp hstep
  rw [← cleanSend_iff e.faithful.stands e.uncached hs]
  exact allWellFormed_step_iff e.logged e.wellFormed hnode

theorem Emitting.step {x x' : Emitter} (e : Emitting x) (hsafe : PoolSafe x.process op)
    (hclean : CleanSend h x.process op) (hstep : x.step h op = some x') : Emitting x' := by
  obtain ⟨hnode, -⟩ := Emitter.step_simulates e.faithful.stands hsafe hstep
  have hall := (e.step_iff hsafe hstep).mpr hclean
  obtain ⟨s', hs, rfl⟩ := Option.map_eq_some_iff.mp hstep
  exact ⟨e.faithful.step hsafe hs, uncached_step e.faithful e.uncached hsafe hs,
    logged_step e.logged hnode, hall⟩

theorem emitting_start (g : Garbage) (garbage : Nat → Hashtable.HtblEntry Nat) (a : InitArgs) :
    Emitting (Emitter.start g garbage a) := by
  refine ⟨faithful_start g garbage a, uncached_start g garbage a,
    ⟨⟨[], owned_rmcastInit g a⟩, fun k q hk => ?_⟩, nofun⟩
  rw [show (Emitter.start g garbage a).node.cb = rmcastInit g a from rfl,
    (rmcastInit_frame g a).1] at hk
  cases hk

/-- **Format.** In every safe run, all the datagrams passed to `sendto` are
well formed exactly if every step is clean. -/
theorem emitted_wellFormed_iff (h : Host) (g : Garbage)
    (garbage : Nat → Hashtable.HtblEntry Nat) (a : InitArgs) {ops : List Op}
    (hsafe : Guarded (Emitter.step h) (fun x op => PoolSafe x.process op)
      (Emitter.start g garbage a) ops) :
    Throughout (Emitter.step h) Emitter.AllWellFormed (Emitter.start g garbage a) ops
      ↔ Guarded (Emitter.step h) (fun x op => CleanSend h x.process op)
          (Emitter.start g garbage a) ops := by
  refine throughout_iff_of_invariant_under (I := Emitting) ?_ ?_ ?_ (emitting_start g garbage a)
    hsafe
  · exact fun x e => e.wellFormed
  · exact fun x op x' e hpool hclean hstep => e.step hpool hclean hstep
  · exact fun x op x' e hpool hbad hstep hall => hbad ((e.step_iff hpool hstep).mp hall)

/-- Node 2 asks for number 0. The count is in the order of a little-endian
host, as the switch reads it. -/
def askForZero : Branch :=
  .mcast anyAddr (.ok (Datagram.mk 0 MsgType.nack.toByte 8 0 2 [1, 0, 0, 0, 0, 0, 0, 0]).bytes)

/-- Node 2 is heard of, a message is sent, asked for and sent again, a
heartbeat follows, and the node leaves. -/
def sendAndLeave : List Op :=
  [.branch (hbeatFrom 2 none), .branch (.ipc (.whole .little [9])), .branch askForZero,
   .branch .hbeat, .leave [2], .exit]

theorem emitted_wellFormed_iff_sendAndLeave :
    (run (Emitter.step littleHost) (Emitter.start zeroGarbage Hashtable.blank plainArgs)
        sendAndLeave).map (fun x => x.emitted.map Prod.fst) = some [.data, .data, .hbeat, .leave]
      ∧ Guarded (Emitter.step littleHost) (fun x op => PoolSafe x.process op)
        (Emitter.start zeroGarbage Hashtable.blank plainArgs) sendAndLeave
      ∧ (Throughout (Emitter.step littleHost) Emitter.AllWellFormed
            (Emitter.start zeroGarbage Hashtable.blank plainArgs) sendAndLeave
          ↔ Guarded (Emitter.step littleHost) (fun x op => CleanSend littleHost x.process op)
              (Emitter.start zeroGarbage Hashtable.blank plainArgs) sendAndLeave) := by
  have hsafe : Guarded (Emitter.step littleHost) (fun x op => PoolSafe x.process op)
      (Emitter.start zeroGarbage Hashtable.blank plainArgs) sendAndLeave := by decide +kernel
  exact ⟨by decide +kernel, hsafe,
    emitted_wellFormed_iff littleHost zeroGarbage Hashtable.blank plainArgs hsafe⟩

/-- A datagram of version 5 that nobody handles, and a heartbeat: it is
built in the buffer of that datagram. -/
theorem emitted_wellFormed_fails :
    ∃ x, run (Emitter.step littleHost) (Emitter.start zeroGarbage Hashtable.blank plainArgs)
        [.branch (.mcast anyAddr (.ok (5 :: List.replicate 11 0))), .branch .hbeat] = some x
      ∧ x.process.cb.version = 0
      ∧ x.emitted.map (fun y => (y.1, y.2.take 2)) = [(.hbeat, [5, 61])]
      ∧ ¬ x.AllWellFormed := by
  have hrun : (run (Emitter.step littleHost) (Emitter.start zeroGarbage Hashtable.blank plainArgs)
      [.branch (.mcast anyAddr (.ok (5 :: List.replicate 11 0))), .branch .hbeat]).map
        (fun x => (x.process.cb.version, x.emitted.map fun y => (y.1, y.2.take 2)))
      = some (0, [(.hbeat, [5, 61])]) := by decide +kernel
  obtain ⟨x, hx, heq⟩ := Option.map_eq_some_iff.mp hrun
  obtain ⟨hversion, hemitted⟩ := Prod.mk.inj heq
  refine ⟨x, hx, hversion, hemitted, fun hall => ?_⟩
  obtain ⟨y, hy, hkind⟩ := List.mem_map.mp (hemitted ▸ List.mem_singleton.mpr rfl :
    (MsgType.hbeat, [(5 : UInt8), 61]) ∈ x.emitted.map fun y => (y.1, y.2.take 2))
  have hfirst : y.2[0]? = some 5 := by
    rw [← List.getElem?_take_of_lt (show 0 < 2 by decide), (Prod.mk.inj hkind).2]
    rfl
  have hzero := (hall y hy).version
  rw [hfirst, hversion] at hzero
  exact absurd hzero (by decide)

/-! ## Leaving -/

/-- What is expected of `rmcast_leave`, from `s` to `s'`: the tables and the
queue of members are empty, every buffer that was kept or cached is in the
pool once, and no key is written behind the end of an array. -/
structure LeaveResets (s s' : Process) (arrays : List KeyArray) : Prop where
  count : Hashtable.htblCount s'.outmsgbuf = 0
  kept : ∀ k, s'.kept k = none
  members : s'.cb.members = ∅
  membersq : mqueueSize s'.cb.membersq = 0
  returnedKept : ∀ k p, s.kept k = some p → s'.cb.bufmsgq.count p = 1
  returnedCached : ∀ p ∈ cachedMsgs s.cb, s'.cb.bufmsgq.count p = 1
  arrays : ∀ a ∈ arrays, a.keys.length ≤ a.slots

/-- With a table that stands for its map, and a drain that is safe, leaving
is what it is for the node. -/
theorem rmcastLeaveIn_simulates (st : Stands s.outmsgbuf s.cb.outmsgbuf)
    (hsafe : RemovalsSafe s.outmsgbuf (s.outKeys.getD [])) (members : List (List UInt32))
    (unseqMsgs : Nat → List (List UInt32)) :
    ∃ buckets t, buckets.flatten.Perm s.cb.outmsgbuf.keys
      ∧ rmcastLeaveIn members unseqMsgs s
        = some (⟨(V01.rmcastLeaveIn ⟨buckets, members, unseqMsgs⟩ s.cb).1, t⟩,
            (V01.rmcastLeaveIn ⟨buckets, members, unseqMsgs⟩ s.cb).2)
      ∧ Stands t (V01.rmcastLeaveIn ⟨buckets, members, unseqMsgs⟩ s.cb).1.outmsgbuf := by
  obtain ⟨buckets, hkeys, hperm⟩ := st.outKeys
  rw [hkeys, Option.getD_some] at hsafe
  obtain ⟨t, hdrain, st'⟩ := drainOut_simulates _ st hsafe
  have hdrain' : drainOut (enumInto (htblCount s.cb.outmsgbuf) buckets).keys s = _ := hdrain
  have hcount : (Hashtable.htblCount s.outmsgbuf).toNat = htblCount s.cb.outmsgbuf := by
    rw [st.count, Int.toNat_natCast]
  refine ⟨buckets, t, hperm, ?_, ?_⟩
  · simp only [rmcastLeaveIn, hkeys, hcount, Option.bind_some, hdrain', Option.map_some]
    rfl
  · obtain ⟨buf, mems, t', freed, hleave, -⟩ := leaveMembers_frame unseqMsgs
      (enumInto (htblCount s.cb.outmsgbuf) members).keys
      (V01.drainOut (enumInto (htblCount s.cb.outmsgbuf) buckets).keys s.cb)
    simp only [V01.rmcastLeaveIn, hleave]
    exact st'

theorem leaveResets_node {order : KeyOrder} {t : Hashtable.Hashtbl Nat}
    (st : Stands s.outmsgbuf s.cb.outmsgbuf)
    (st' : Stands t (V01.rmcastLeaveIn order s.cb).1.outmsgbuf) :
    LeaveResets s ⟨(V01.rmcastLeaveIn order s.cb).1, t⟩ (V01.rmcastLeaveIn order s.cb).2
      ↔ V01.LeaveResets order s.cb := by
  have hkept : s.kept = htblGet s.cb.outmsgbuf := st.kept s.cb
  have hkept' := st'.kept (V01.rmcastLeaveIn order s.cb).1
  constructor
  · intro hr
    refine ⟨eq_empty_of_htblGet fun k => ?_, hr.members, hr.membersq, fun p hp => ?_, hr.arrays⟩
    · rw [← hkept']
      exact hr.kept k
    · rcases List.mem_append.mp hp with hp | hp
      · obtain ⟨k, hk⟩ := mem_htblValues.mp hp
        exact hr.returnedKept k p (hkept ▸ hk)
      · exact hr.returnedCached p hp
  · intro hr
    refine ⟨?_, fun k => ?_, hr.members, hr.membersq, fun k p hk => ?_, fun p hp => ?_, hr.arrays⟩
    · rw [st'.count, hr.outmsgbuf]
      rfl
    · rw [hkept', hr.outmsgbuf, htblGet_empty]
    · rw [hkept] at hk
      exact hr.returned p (List.mem_append_left _ (mem_htblValues.mpr ⟨k, hk⟩))
    · exact hr.returned p (List.mem_append_right _ hp)

/-- **Leaving resets the node** exactly if it has no queue of members and no
more members than kept messages. The buckets list the keys of `members`
and of the caches in any order. -/
theorem leaveResets_iff {members : List (List UInt32)} {unseqMsgs : Nat → List (List UInt32)}
    (f : Faithful s) (hsafe : RemovalsSafe s.outmsgbuf (s.outKeys.getD []))
    (hmembers : members.flatten.Perm s.cb.members.keys)
    (hcaches : ∀ mp ∈ htblValues s.cb.members,
      (unseqMsgs mp).flatten.Perm (s.cb.mems mp).unseqMsgs.keys) :
    ∃ s' arrays, rmcastLeaveIn members unseqMsgs s = some (s', arrays)
      ∧ (LeaveResets s s' arrays ↔ mqueueSize s.cb.membersq = 0
          ∧ htblCount s.cb.members ≤ Hashtable.htblCount s.outmsgbuf) := by
  obtain ⟨hand, hown⟩ := f.owned
  obtain ⟨buckets, t, hout, hleave, st'⟩ :=
    rmcastLeaveIn_simulates f.stands hsafe members unseqMsgs
  refine ⟨_, _, hleave, (leaveResets_node f.stands st').trans ?_⟩
  rw [leaveResets_order_iff hown ⟨hout, hmembers, hcaches⟩, f.stands.count, Nat.cast_le]

/-- One message is sent. -/
def oneSent : List Op := [.branch (.ipc (.whole .little [9]))]

theorem leaveResets_iff_oneSent :
    ∃ s, run (step littleHost) plainStart oneSent = some s ∧ Faithful s
      ∧ RemovalsSafe s.outmsgbuf (s.outKeys.getD [])
      ∧ ∃ s' arrays, rmcastLeaveIn [] (fun _ => []) s = some (s', arrays)
        ∧ (LeaveResets s s' arrays ↔ mqueueSize s.cb.membersq = 0
            ∧ htblCount s.cb.members ≤ Hashtable.htblCount s.outmsgbuf) := by
  have hrun : (run (step littleHost) plainStart oneSent).map (fun s =>
      (s.cb.members.keys, decide (RemovalsSafe s.outmsgbuf (s.outKeys.getD []))))
      = some ([], true) := by decide +kernel
  obtain ⟨s, hs, heq⟩ := Option.map_eq_some_iff.mp hrun
  obtain ⟨hkeys, hdrain⟩ := Prod.mk.inj heq
  have hsafe := of_decide_eq_true hdrain
  have hguard : Guarded (step littleHost) PoolSafe plainStart oneSent := by decide +kernel
  have f : Faithful s := faithful_run hguard hs
  have hcaches : ∀ mp ∈ htblValues s.cb.members,
      ([] : List (List UInt32)).flatten.Perm (s.cb.mems mp).unseqMsgs.keys := by
    intro mp hmp
    obtain ⟨k, hk⟩ := mem_htblValues.mp hmp
    have hmem : k ∈ s.cb.members.keys := mem_keys_iff.mpr (by rw [hk]; exact Option.some_ne_none mp)
    rw [hkeys] at hmem
    cases hmem
  exact ⟨s, hs, f, hsafe, leaveResets_iff f hsafe (by rw [hkeys]; exact .nil) hcaches⟩

/-- A node with one kept message and two members. A bucket lists the member
that was added last first. In the same bucket, only that one is listed and
the other stays; in different buckets, the second key lies past the end of
the array. Both are still queued in either case. -/
theorem rmcastLeave_fails :
    (((run (stepState Hashtable.htblStep) (Hashtable.htblInit Hashtable.blank 20 0)
        [.put (.int 2) 0, .put (.int 22) 1]).bind fun t => Hashtable.htblEnumIntKeys t 1)
      = some [22])
    ∧ ((run (step littleHost) plainStart
        (oneSent ++ [.branch (hbeatFrom 2 none), .branch (hbeatFrom 22 none)])).bind fun s =>
          (rmcastLeaveIn [[22, 2]] (fun _ => []) s).map fun x =>
            (mqueueSize x.1.cb.membersq, x.1.cb.members.keys, x.2))
      = some (2, [2], [⟨1, [0]⟩, ⟨1, [22]⟩, ⟨0, []⟩])
    ∧ ((run (step littleHost) plainStart
        (oneSent ++ [.branch (hbeatFrom 2 none), .branch (hbeatFrom 3 none)])).bind fun s =>
          (rmcastLeaveIn [[2], [3]] (fun _ => []) s).map fun x =>
            (mqueueSize x.1.cb.membersq, x.1.cb.members.keys, x.2))
      = some (2, [], [⟨1, [0]⟩, ⟨1, [2, 3]⟩, ⟨0, []⟩, ⟨0, []⟩]) :=
  ⟨by decide +kernel, by decide +kernel, by decide +kernel⟩

end Process

end Rms.V01
