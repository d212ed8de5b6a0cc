/-
Rms.V01.Rejoin — a sender that leaves and joins again, and one receiver.

`Rejoin` holds both nodes and the network between them, which delivers
the sender's datagrams in order and loses any of them. After
`rmcast_leave` the sender's datagrams are those of a new incarnation.
Four history variables say what became of it at the receiver: the
heartbeat just processed, the numbers of the heartbeats heard so far,
the numbers delivered since the first of them, and the numbers that were
discarded as retransmissions although they had not been delivered.

Everything else that happens at the receiver, datagrams of other peers
included, is `other`.
-/
import Rms.V01.Leave
import Rms.V01.PeerTheorems
import Rms.V01.Window

namespace Rms.V01

open Rms.ByteMem Rms.Util

structure Rejoin where
  sender : RmcCtrlBlock
  receiver : RmcCtrlBlock
  /-- The sender's id. -/
  id : UInt32
  /-- How many datagrams the sender had sent when it left last. -/
  mark : Option Nat
  /-- How many datagrams have arrived or are lost. -/
  past : Nat
  /-- The number in the heartbeat of the new incarnation that was processed
  in the last step. -/
  announced : Option UInt32
  /-- The numbers in the heartbeats of the new incarnation heard so far. -/
  heard : List UInt32
  /-- The numbers delivered since the first of them. -/
  delivered : List UInt32
  /-- Numbers from an announced one on that were discarded as retransmissions
  before they were delivered. -/
  discarded : List UInt32

inductive RejoinOp where
  /-- A branch of the sender's loop. -/
  | send (b : Branch)
  /-- The sender calls `rmcast_leave`; `keys` are the members it drops. -/
  | leave (keys : List UInt32)
  /-- The sender's daemon ends with a LEAVE. -/
  | exit
  /-- The sender's datagram `i` arrives; those between are lost. -/
  | arrive (source : SockaddrIn) (i : Nat)
  /-- Anything else at the receiver. -/
  | other (b : Branch)

namespace Rejoin

def start (gs : Garbage) (s : InitArgs) (gr : Garbage) (r : InitArgs) : Rejoin :=
  { sender := rmcastInit gs s, receiver := rmcastInit gr r, id := s.id, mark := none, past := 0
    announced := none, heard := [], delivered := [], discarded := [] }

/-- The message of the new incarnation that the datagram `i` brings to the
receiver's switch. -/
def news (h : Host) (s : Rejoin) (i : Nat) : Option RmcMsg :=
  match s.mark, s.sender.sent[i]? with
  | some k, some x =>
      if k ≤ i then
        (accepted h (.ok x.bytes) s.receiver).filter fun m => m.hdrId h.endian = s.id
      else none
  | _, _ => none

/-- The heartbeat goes on with a session that the receiver knows. -/
def resumes (s : Rejoin) (session : UInt32) : Bool :=
  (peerAt s.receiver s.id).any fun v => session = v.session

/-- A message from an announced number on is dropped as a retransmission,
and was not delivered. -/
def discards (s : Rejoin) (n : UInt32) : Bool :=
  ((peerAt s.receiver s.id).any fun v => v.sequence + 1 ≠ n ∧ ¬ v.sequence < n)
    && (s.heard.any fun q => q ≤ n) && decide (n ∉ s.delivered)

/-- The history after the datagram `i` took the receiver to `cb`. -/
def note (h : Host) (s : Rejoin) (i : Nat) (cb : RmcCtrlBlock) : Rejoin :=
  match s.news h i with
  | none => { s with receiver := cb, past := i + 1, announced := none }
  | some m =>
      match eventOf h.endian m () with
      | .hbeat session q =>
          { s with
            receiver := cb, past := i + 1, announced := some q
            heard := if s.resumes session then q :: s.heard else [q]
            delivered := if s.resumes session then s.delivered else [] }
      | .data _ =>
          let n := m.hdrSequence h.endian
          let new := (cb.ipcOut.drop s.receiver.ipcOut.length).filter fun r => r.id = s.id
          { s with
            receiver := cb, past := i + 1, announced := none
            delivered := s.delivered ++ new.map IpcRecord.sequence
            discarded := if s.discards n then n :: s.discarded else s.discarded }
      | _ => { s with receiver := cb, past := i + 1, announced := none }

/-- The branch is a datagram that reaches the switch with the sender's id. -/
def fromSender (h : Host) (s : Rejoin) : Branch → Bool
  | .mcast _ r => (accepted h r s.receiver).any fun m => m.hdrId h.endian = s.id
  | _ => false

/-- One step; `hs` and `hr` are the hosts of the sender and the receiver. -/
def step (hs hr : Host) (s : Rejoin) : RejoinOp → Option Rejoin
  | .send b => (branch hs s.sender b).map fun cb => { s with sender := cb, announced := none }
  | .leave keys =>
      some { s with
        sender := rmcastLeave keys s.sender, mark := some s.sender.sent.length
        announced := none, heard := [], delivered := [] }
  | .exit => some { s with sender := daemonExit hs s.sender, announced := none }
  | .arrive source i =>
      match s.sender.sent[i]? with
      | none => none
      | some x =>
          if s.past ≤ i ∧ x.failed = false then
            (branch hr s.receiver (.mcast source (.ok x.bytes))).map (s.note hr i)
          else none
  | .other b =>
      if s.fromSender hr b then none
      else (branch hr s.receiver b).map fun cb => { s with receiver := cb, announced := none }

/-! ## The property and its conditions -/

/-- After a heartbeat of the new incarnation, the receiver expects no number
above the one it announces. -/
def Expects (s : Rejoin) : Prop :=
  ∀ q, s.announced = some q → ∃ v, peerAt s.receiver s.id = some v ∧ v.sequence + 1 ≤ q

/-- A heartbeat of the new incarnation finds the sender unknown, or with
another session, or expected at no number above its own. -/
def Separated (h : Host) (s : Rejoin) : RejoinOp → Prop
  | .arrive _ i => ∀ m session q v, s.news h i = some m →
      eventOf h.endian m () = .hbeat session q → peerAt s.receiver s.id = some v →
      session = v.session → v.sequence + 1 ≤ q
  | _ => True

/-- A DATA message of the new incarnation is number 0 if that number is due,
and is not due while its number is cached. -/
def InTurn (h : Host) (s : Rejoin) : RejoinOp → Prop
  | .arrive _ i => ∀ m v, s.news h i = some m → eventOf h.endian m () = .data () →
      s.heard ≠ [] → peerAt s.receiver s.id = some v →
      (v.sequence + 1 = 0 → m.hdrSequence h.endian = 0)
        ∧ (v.sequence + 1 = m.hdrSequence h.endian →
            htblGet v.unseqMsgs (m.hdrSequence h.endian) = none)
  | _ => True

end Rejoin

end Rms.V01
