/-
Rms.V01.ProcessNetwork — a network of processes.

The network of `Rms.V01.Network`, with a process at every node. A safe step
of the one is a step of the other (`netStep_simulates`), so what holds of
the nodes along every run holds of the processes along every safe run:
nothing is delivered that was not sent (`delivered_sentBy`), and no process
puts out a DATA datagram that its client did not send (`emitted_genuine`).
-/
import Rms.V01.ProcessRuns

namespace Rms.V01.Process

open Rms.ByteMem Rms.Util Rms.Runs

/-! ## A process with its history -/

structure Node where
  process : Process
  sends : List Send

namespace Node

def start (g : Garbage) (garbage : Nat → Hashtable.HtblEntry Nat) (a : InitArgs) : Node :=
  { process := Process.start g garbage a, sends := [] }

def step (h : Host) (n : Node) (op : Op) : Option Node :=
  (n.process.step h op).map fun s =>
    { process := s, sends := n.sends ++ newSends h n.process.cb (op.node n.process) }

/-- The node with a map in place of the table. -/
def free (n : Node) : V01.Node := { cb := n.process.cb, sends := n.sends }

/-- The table stands for the map. -/
def Stands (n : Node) : Prop := Process.Stands n.process.outmsgbuf n.process.cb.outmsgbuf

theorem step_simulates {h : Host} {n n' : Node} {op : Op} (st : n.Stands)
    (hsafe : PoolSafe n.process op) (hstep : n.step h op = some n') :
    n.free.step h (op.node n.process) = some n'.free ∧ n'.Stands := by
  obtain ⟨s', hs, rfl⟩ := Option.map_eq_some_iff.mp hstep
  obtain ⟨hnode, st'⟩ := Process.step_simulates st hsafe hs
  exact ⟨Option.map_eq_some_iff.mpr ⟨s'.cb, hnode, rfl⟩, st'⟩

end Node

/-- **No forgery.** Whatever bytes a process is sent, and whatever its
sockets return, each DATA datagram that it puts out in a safe run carries
its own id and a message of its own client, under the number that message
went out with. -/
theorem emitted_genuine (h : Host) (g : Garbage) (garbage : Nat → Hashtable.HtblEntry Nat)
    (a : InitArgs) {ops : List Op}
    (hsafe : Guarded (Node.step h) (fun n op => PoolSafe n.process op)
      (Node.start g garbage a) ops) :
    Throughout (Node.step h)
      (fun n => ∀ x ∈ n.process.cb.sent, x.failed = false → Genuine a.id n.sends x.bytes)
      (Node.start g garbage a) ops := by
  refine throughout_of_guarded (I := fun n => Honest a.id n.free ∧ n.Stands) ?_ ?_
    ⟨honest_start g a, stands_start g garbage a⟩ hsafe
  · rintro n op n' ⟨hn, st⟩ hok hstep
    obtain ⟨hfree, st'⟩ := Node.step_simulates st hok hstep
    exact ⟨honest_step hn hfree, st'⟩
  · exact fun n hn => hn.1.sent

theorem emitted_genuine_sendAndLeave :
    (run (Node.step littleHost) (Node.start zeroGarbage Hashtable.blank plainArgs)
        sendAndLeave).map (fun n => n.process.cb.sent.filterMap fun x => x.bytes[1]?)
        = some ([.data, .data, .hbeat, .leave].map MsgType.toByte)
      ∧ Throughout (Node.step littleHost)
        (fun n => ∀ x ∈ n.process.cb.sent, x.failed = false →
          Genuine plainArgs.id n.sends x.bytes)
        (Node.start zeroGarbage Hashtable.blank plainArgs) sendAndLeave :=
  ⟨by decide +kernel,
    emitted_genuine littleHost zeroGarbage Hashtable.blank plainArgs (by decide +kernel)⟩

/-! ## The network -/

variable {ι : Type*} [DecidableEq ι] {hosts : ι → Host} {net net' : ι → Node}

/-- What happens: a process does something of its own accord, or the
datagram `k` of process `j` arrives at process `i`. -/
inductive NetOp (ι : Type*) where
  | act (i : ι) (op : Op)
  | arrive (i j : ι) (k : Nat) (source : SockaddrIn)

/-- The step is the arrival of a datagram. -/
def Op.isArrival : Op → Bool
  | .branch (.mcast _ _) => true
  | _ => false

/-- Process `i` makes a step. -/
def stepAt (hosts : ι → Host) (net : ι → Node) (i : ι) (op : Op) : Option (ι → Node) :=
  ((net i).step (hosts i) op).map (Function.update net i)

def netStep (hosts : ι → Host) (net : ι → Node) : NetOp ι → Option (ι → Node)
  | .act i op => if op.isArrival then none else stepAt hosts net i op
  | .arrive i j k source =>
      match (net j).process.cb.sent[k]? with
      | none => none
      | some x =>
          if x.failed then none
          else stepAt hosts net i (.branch (.mcast source (.ok x.bytes)))

/-- All processes fresh from `rmcast_init`. -/
def netStart (g : ι → Garbage) (garbage : ι → Nat → Hashtable.HtblEntry Nat)
    (a : ι → InitArgs) (i : ι) : Node := .start (g i) (garbage i) (a i)

/-- No removal of the step links an entry of a bucket into the pool. -/
def NetSafe (net : ι → Node) : NetOp ι → Prop
  | .act i op => PoolSafe (net i).process op
  | .arrive _ _ _ _ => True

instance (net : ι → Node) : ∀ op, Decidable (NetSafe net op)
  | .act i op => inferInstanceAs (Decidable (PoolSafe (net i).process op))
  | .arrive _ _ _ _ => isTrue trivial

/-- The network of nodes. -/
def free (net : ι → Node) (i : ι) : V01.Node := (net i).free

def NetOp.free (net : ι → Node) : NetOp ι → V01.NetOp ι
  | .act i op => .act i (op.node (net i).process)
  | .arrive i j k source => .arrive i j k source

theorem isArrival_node (s : Process) (op : Op) : (op.node s).isArrival = op.isArrival := by
  cases op with
  | branch b => cases b <;> rfl
  | leave keys => rfl
  | exit => rfl

theorem free_update (i : ι) (n : Node) :
    free (Function.update net i n) = Function.update (free net) i n.free := by
  funext j
  by_cases hj : j = i
  · subst hj
    rw [free, Function.update_self, Function.update_self]
  · rw [free, Function.update_of_ne hj, Function.update_of_ne hj, free]

theorem stepAt_simulates {i : ι} {op : Op} (st : ∀ j, (net j).Stands)
    (hsafe : PoolSafe (net i).process op) (hstep : stepAt hosts net i op = some net') :
    V01.stepAt hosts (free net) i (op.node (net i).process) = some (free net')
      ∧ ∀ j, (net' j).Stands := by
  obtain ⟨n', hn, rfl⟩ := Option.map_eq_some_iff.mp hstep
  obtain ⟨hfree, st'⟩ := Node.step_simulates (st i) hsafe hn
  refine ⟨?_, fun j => ?_⟩
  · rw [free_update]
    exact Option.map_eq_some_iff.mpr ⟨n'.free, hfree, rfl⟩
  · by_cases hj : j = i
    · subst hj
      rw [Function.update_self]
      exact st'
    · rw [Function.update_of_ne hj]
      exact st j

/-- **Simulation.** A safe step of the processes is a step of the nodes. -/
theorem netStep_simulates {op : NetOp ι} (st : ∀ j, (net j).Stands) (hsafe : NetSafe net op)
    (hstep : netStep hosts net op = some net') :
    V01.netStep hosts (free net) (op.free net) = some (free net') ∧ ∀ j, (net' j).Stands := by
  cases op with
  | act i op =>
    simp only [netStep] at hstep
    split at hstep
    · cases hstep
    · rename_i harr
      obtain ⟨hfree, st'⟩ := stepAt_simulates st hsafe hstep
      refine ⟨?_, st'⟩
      simp only [NetOp.free, V01.netStep, isArrival_node, if_neg harr]
      exact hfree
  | arrive i j k source =>
    simp only [netStep] at hstep
    split at hstep
    · cases hstep
    · rename_i x hx
      split at hstep
      · cases hstep
      · rename_i hok
        have hnone : PoolSafe (net i).process (.branch (.mcast source (.ok x.bytes))) := trivial
        obtain ⟨hfree, st'⟩ := stepAt_simulates st hnone hstep
        have hx' : (free net j).cb.sent[k]? = some x := hx
        refine ⟨?_, st'⟩
        simp only [NetOp.free, V01.netStep, hx', if_neg hok]
        exact hfree

/-- **Integrity.** On any network of processes, at any time of a safe run,
every record that a daemon has written for its client is a message that
the client of a node with the record's id had multicast, under the
record's number. -/
theorem delivered_sentBy (hosts : ι → Host) (g : ι → Garbage)
    (garbage : ι → Nat → Hashtable.HtblEntry Nat) (a : ι → InitArgs) {ops : List (NetOp ι)}
    (hsafe : Guarded (netStep hosts) NetSafe (netStart g garbage a) ops) :
    Throughout (netStep hosts)
      (fun net => ∀ i, ∀ r ∈ (net i).process.cb.ipcOut,
        SentBy a (free net) r.id r.sequence r.payload)
      (netStart g garbage a) ops := by
  refine throughout_of_guarded (I := fun net => Sound hosts a (free net) ∧ ∀ j, (net j).Stands)
    ?_ ?_ ⟨sound_start hosts g a, fun j => stands_start (g j) (garbage j) (a j)⟩ hsafe
  · rintro net op net' ⟨hs, st⟩ hok hstep
    obtain ⟨hfree, st'⟩ := netStep_simulates st hok hstep
    exact ⟨sound_step hs hfree, st'⟩
  · exact fun net hs i r hr => (hs.1.holding i).delivered r hr

/-- Two nodes. -/
def twoNodes (second : Bool) : InitArgs := { plainArgs with id := if second then 2 else 1 }

/-- The first one makes itself known, sends and leaves, and the second one
hears it. -/
def contactAndLeave : List (NetOp Bool) :=
  [.act false (.branch .hbeat), .arrive true false 0 anyAddr,
   .act false (.branch (.ipc (.whole .little [7, 8]))), .arrive true false 1 anyAddr,
   .act false (.leave []), .act false .exit, .arrive true false 2 anyAddr]

theorem delivered_sentBy_contactAndLeave :
    (run (netStep fun _ => littleHost)
        (netStart (fun _ => zeroGarbage) (fun _ => Hashtable.blank) twoNodes)
        contactAndLeave).map (fun net => (net true).process.cb.ipcOut.map IpcRecord.payload)
        = some [[7, 8]]
      ∧ Throughout (netStep fun _ => littleHost)
        (fun net => ∀ i, ∀ r ∈ (net i).process.cb.ipcOut,
          SentBy twoNodes (free net) r.id r.sequence r.payload)
        (netStart (fun _ => zeroGarbage) (fun _ => Hashtable.blank) twoNodes) contactAndLeave :=
  ⟨by decide +kernel, delivered_sentBy _ _ _ _ (by decide +kernel)⟩

end Rms.V01.Process
