/-
Rms.V01.Network — any number of nodes on one network.

Every node runs its daemon (`nodeStep`), with a client that sends, leaves
and comes back as it likes. Whatever a daemon passed to `sendto` without
an error may arrive at any node, its sender included, at any time, any
number of times and in any order, or never. The address a datagram was
sent to plays no part, so a network that takes a NACK to nobody but its
addressee is one of those meant here. Nothing else arrives, and
`recvfrom` does not fail.

`sends` is a history variable: the messages that a client had its daemon
multicast, each with the number it went under.
-/
import Rms.V01.Format

namespace Rms.V01

open Rms.ByteMem Rms.Util

/-! ## A node with its history -/

/-- A message of a client and its number. -/
structure Send where
  sequence : UInt32
  data : List UInt8
  deriving DecidableEq, Repr

/-- The datagram that carries a message of the node `id`. -/
def Send.dgram (version : UInt8) (id : UInt32) (y : Send) : Datagram :=
  { version := version, type := MsgType.data.toByte, length := UInt16.ofNat y.data.length
    sequence := y.sequence, id := id, body := y.data }

/-- As much of a message as its datagram announces: the length field has
sixteen bits. -/
def Send.announced (y : Send) : List UInt8 := y.data.take (y.data.length % 65536)

/-- The message that the IPC branch multicasts: what the second `recv`
returned, if it is as long as the length word says and `sendto` takes the
datagram. -/
def clientMsg (h : Host) (i : IpcInput) (cb : RmcCtrlBlock) : Option (List UInt8) :=
  match i.body.limit (sizeT (ipcLen h i cb)) with
  | .err => none
  | .ok data =>
      if 0 < (i.len.limit sizeofLong).ret ∧ (data.length : Int) = ipcLen h i cb ∧ 0 < i.sendto then
        some data
      else none

structure Node where
  cb : RmcCtrlBlock
  sends : List Send

/-- What a step adds to the history. -/
def newSends (h : Host) (cb : RmcCtrlBlock) : NodeOp → List Send
  | .branch (.ipc i) => (clientMsg h i cb).toList.map fun data => ⟨cb.self.sequence, data⟩
  | _ => []

def Node.start (g : Garbage) (a : InitArgs) : Node := { cb := rmcastInit g a, sends := [] }

def Node.step (h : Host) (n : Node) (op : NodeOp) : Option Node :=
  (nodeStep h n.cb op).map fun cb => { cb := cb, sends := n.sends ++ newSends h n.cb op }

/-! ## The network -/

variable {ι : Type*} [DecidableEq ι]

/-- What happens: a node does something of its own accord, or the datagram
`k` of node `j` arrives at node `i`. -/
inductive NetOp (ι : Type*) where
  | act (i : ι) (op : NodeOp)
  | arrive (i j : ι) (k : Nat) (source : SockaddrIn)

/-- The step is the arrival of a datagram. -/
def NodeOp.isArrival : NodeOp → Bool
  | .branch (.mcast _ _) => true
  | _ => false

/-- Node `i` makes a step. -/
def stepAt (hosts : ι → Host) (net : ι → Node) (i : ι) (op : NodeOp) : Option (ι → Node) :=
  ((net i).step (hosts i) op).map (Function.update net i)

def netStep (hosts : ι → Host) (net : ι → Node) : NetOp ι → Option (ι → Node)
  | .act i op => if op.isArrival then none else stepAt hosts net i op
  | .arrive i j k source =>
      match (net j).cb.sent[k]? with
      | none => none
      | some x =>
          if x.failed then none
          else stepAt hosts net i (.branch (.mcast source (.ok x.bytes)))

/-- All nodes fresh from `rmcast_init`. -/
def netStart (g : ι → Garbage) (a : ι → InitArgs) (i : ι) : Node := .start (g i) (a i)

/-! ## What is delivered -/

/-- A node of that id sent a message under that number, and this is as much
of it as its datagram announced. -/
def SentBy (a : ι → InitArgs) (net : ι → Node) (id sequence : UInt32) (payload : List UInt8) :
    Prop :=
  ∃ j, (a j).id = id ∧ ∃ y ∈ (net j).sends, y.sequence = sequence ∧ y.announced = payload

/-- No node goes back to a number it has used: none leaves, and none sends
beyond the last number. -/
def NoReuse (net : ι → Node) : NetOp ι → Prop
  | .act i (.branch (.ipc _)) => (net i).cb.self.sequence.toNat + 1 < 4294967296
  | .act _ (.leave _ _) => False
  | _ => True

instance (net : ι → Node) : ∀ op, Decidable (NoReuse net op)
  | .act i (.branch (.ipc _)) =>
      inferInstanceAs (Decidable ((net i).cb.self.sequence.toNat + 1 < 4294967296))
  | .act _ (.leave _ _) => isFalse id
  | .act _ (.branch (.mcast _ _)) => isTrue trivial
  | .act _ (.branch .hbeat) => isTrue trivial
  | .act _ (.branch .ack) => isTrue trivial
  | .act _ .exit => isTrue trivial
  | .arrive _ _ _ _ => isTrue trivial

end Rms.V01
