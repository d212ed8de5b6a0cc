/-
Rms.V01.Delivery — a sender, a receiver and the network between them.

The sender's daemon multicasts messages of its client and heartbeats, and
in between hears whatever other nodes send it. `wire` is what it has put
on the network. A datagram on the wire may arrive at the receiver's
daemon at any time, any number of times, or never, so the network loses,
reorders and duplicates but does not alter; a retransmission of the
sender is one more arrival of the datagram it repeats.

Two history variables come with the two daemons and the wire: the
payloads sent so far, and how many datagrams of the wire have arrived,
counted up to the latest one. A network that keeps the order is a
restriction on the events: `Fifo` lets the next datagram arrive, or one
that has arrived.
-/
import Rms.V01.DataTheorems
import Rms.V01.SendTheorems

namespace Rms.V01

open Rms.ByteMem Rms.Util

/-- The two hosts, and the address the receiver sees datagrams come from. -/
structure Link where
  sHost : Host
  rHost : Host
  addr : SockaddrIn

/-- What happens at the sender, and the arrival of a datagram at the
receiver. -/
inductive Event where
  | send (payload : List UInt8)
  | hbeat
  | hear (addr : SockaddrIn) (r : RecvResult)
  | ack
  | arrive (i : Nat)

structure System where
  sender : RmcCtrlBlock
  receiver : RmcCtrlBlock
  wire : List Sendto
  payloads : List (List UInt8)
  arrived : Nat

/-- A sender fresh from `rmcast_init` and a receiver. -/
def System.start (g : Garbage) (a : InitArgs) (receiver : RmcCtrlBlock) : System :=
  { sender := rmcastInit g a, receiver := receiver, wire := [], payloads := [], arrived := 0 }

/-- The sender goes on to `cb`, and what it multicast on the way is on
the wire. -/
def System.multicast (s : System) (cb : RmcCtrlBlock) : System :=
  { s with sender := cb, wire := s.wire ++ cb.sent.drop s.sender.sent.length }

def System.step (l : Link) (s : System) : Event → Option System
  | .send payload =>
      some { s.multicast (ipcBranch l.sHost (.whole l.sHost.endian payload) s.sender) with
        payloads := s.payloads ++ [payload] }
  | .hbeat => (hbeatBranch l.sHost s.sender).map s.multicast
  | .hear addr r =>
      (mcastBranch l.sHost addr r s.sender).map fun r => { s with sender := r.1 }
  | .ack => (ackBranch s.sender).map fun cb => { s with sender := cb }
  | .arrive i =>
      match s.wire[i]? with
      | none => none
      | some x =>
          (mcastBranch l.rHost l.addr (.ok x.bytes) s.receiver).map fun r =>
            { s with receiver := r.1, arrived := max s.arrived (i + 1) }

/-- Fewer than `bound` messages are sent, and every message and every
heartbeat in one datagram of at most `room` bytes. -/
def Allowed (bound room : Nat) (s : System) : Event → Prop
  | .send payload => s.payloads.length + 1 < bound ∧ sizeofHdr + payload.length ≤ room
  | .hbeat => sizeofHdr + (sizeofHbeat + ackCount s.sender * (2 * sizeofLong)) ≤ room
  | _ => True

instance (bound room : Nat) (s : System) : ∀ ev, Decidable (Allowed bound room s ev)
  | .send payload => inferInstanceAs
      (Decidable (s.payloads.length + 1 < bound ∧ sizeofHdr + payload.length ≤ room))
  | .hbeat => inferInstanceAs (Decidable (_ ≤ room))
  | .hear _ _ => isTrue trivial
  | .ack => isTrue trivial
  | .arrive _ => isTrue trivial

/-- No DATA message of the sender arrives in its turn while its number is
in the cache. -/
def NoRepeat (id : UInt32) (s : System) : Event → Prop
  | .arrive i => ∀ x d mp, s.wire[i]? = some x → x.bytes = Datagram.bytes d →
      d.type = MsgType.data.toByte → htblGet s.receiver.members id = some mp →
      (s.receiver.mems mp).sequence + 1 = d.sequence →
      htblGet (s.receiver.mems mp).unseqMsgs d.sequence = none
  | _ => True

/-- Datagrams arrive in the order they were sent in, and then again. -/
def Fifo (s : System) : Event → Prop
  | .arrive i => i ≤ s.arrived
  | _ => True

instance (s : System) : ∀ ev, Decidable (Fifo s ev)
  | .arrive i => inferInstanceAs (Decidable (i ≤ s.arrived))
  | .send _ => isTrue trivial
  | .hbeat => isTrue trivial
  | .hear _ _ => isTrue trivial
  | .ack => isTrue trivial

/-! ## What is on the wire -/

/-- A multicast datagram is DATA. -/
def isData (x : Sendto) : Bool := x.bytes[1]? == some MsgType.data.toByte

/-- The number of DATA datagrams on a wire. -/
def dataCount (wire : List Sendto) : Nat := wire.countP isData

/-- The sequence number of the first heartbeat on a wire. -/
def firstHbeat (wire : List Sendto) : Option UInt32 :=
  (wire.find? fun x => x.bytes[1]? == some MsgType.hbeat.toByte).map fun x =>
    be32At (fun i => x.bytes.getD i 0) 4

end Rms.V01
