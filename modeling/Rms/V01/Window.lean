/-
Rms.V01.Window — the messages a sender keeps for retransmission.

A message that was multicast stays in `outmsgbuf` under its number until
it is purged. Three branches of the daemon's loop work on this window:
the IPC branch adds the next number, a heartbeat drops what is older than
three heartbeats, and the ack branch drops what it takes for
acknowledged. `branch` is one branch of the loop as a step of its own; a
pass through the loop is a run of branches.

`Sender` adds two history variables to the control block: the value of
`self->sequence` at each heartbeat, and the number of messages the client
handed over for sending. `Window` says which numbers are kept.
-/
import Rms.V01.Delivery

namespace Rms.V01

open Rms.ByteMem Rms.Util Rms.Runs

/-- The branches of the daemon's loop, each with what the outside world
does in it. -/
inductive Branch where
  | mcast (sender : SockaddrIn) (r : RecvResult)
  | ipc (i : IpcInput)
  | hbeat
  | ack

def branch (h : Host) (cb : RmcCtrlBlock) : Branch → Option RmcCtrlBlock
  | .mcast sender r => (mcastBranch h sender r cb).map Prod.fst
  | .ipc i => some (ipcBranch h i cb)
  | .hbeat => hbeatBranch h cb
  | .ack => ackBranch cb

/-- The branches below the datagram switch that a pass goes through. -/
def lowerBranches (i : Iteration) : List Branch :=
  (i.ipc.map Branch.ipc).toList ++ ((if i.hbeat then [.hbeat] else []) ++ [.ack])

/-! ## The sender with its history -/

structure Sender where
  cb : RmcCtrlBlock
  /-- `self->sequence` at each heartbeat, the latest first. -/
  marks : List UInt32
  /-- How often the client's socket was read. -/
  sends : Nat

def Sender.start (g : Garbage) (a : InitArgs) : Sender :=
  { cb := rmcastInit g a, marks := [], sends := 0 }

def Sender.step (h : Host) (s : Sender) (b : Branch) : Option Sender :=
  (branch h s.cb b).map fun cb =>
    { cb := cb
      marks := match b with
        | .hbeat => s.cb.self.sequence :: s.marks
        | _ => s.marks
      sends := match b with
        | .ipc _ => s.sends + 1
        | _ => s.sends }

/-- `self->sequence` at the heartbeat `n` before the latest one, and 0 if
there was none. -/
def Sender.mark (s : Sender) (n : Nat) : UInt32 := s.marks.getD n 0

/-! ## What the group was sent -/

/-- A DATA datagram for the group whose `sendto` succeeded. -/
def isSent (x : Sendto) : Bool := toGroup x && (!x.failed && isData x)

/-- The DATA datagrams multicast so far, in order. -/
def datagrams (sent : List Sendto) : List (List UInt8) := (sent.filter isSent).map Sendto.bytes

/-- The number in the header of a datagram. -/
def wireSequence (bytes : List UInt8) : UInt32 := be32At (fun i => bytes.getD i 0) 4

/-- What a retransmission of a kept message sends. -/
def keptBytes (m : RmcMsg) : List UInt8 := readBytes m.buf 0 (sizeT (m.length + sizeofHdr))

/-! ## The window -/

/-- The keys of a table are the numbers from `lo` to `hi`, `hi` excluded. -/
def KeysAre (t : Htbl Nat) (lo hi : UInt32) : Prop :=
  ∀ k, (htblGet t k).isSome ↔ lo ≤ k ∧ k < hi

/-- The messages kept are those from `oldest_seq` on, and the marks of the
last heartbeats lie in order behind the next number. -/
structure Window (cb : RmcCtrlBlock) : Prop where
  keys : KeysAre cb.outmsgbuf cb.oldestSeq cb.self.sequence
  oldest : cb.oldestSeq ≤ cb.self.sequence
  p1 : cb.hbSeqP1 ≤ cb.self.sequence
  p2 : cb.hbSeqP2 ≤ cb.hbSeqP1
  p3 : cb.hbSeqP3 ≤ cb.hbSeqP2

/-- The message kept under a number is the datagram that was multicast
with it, and the datagrams were numbered from 0 on. -/
structure Stored (cb : RmcCtrlBlock) : Prop where
  owned : ∃ hand, Owned cb hand
  count : (datagrams cb.sent).length = cb.self.sequence.toNat
  numbers : ∀ (n : Nat) (x : List UInt8), (datagrams cb.sent)[n]? = some x →
    wireSequence x = UInt32.ofNat n
  stored : ∀ (k : UInt32) (q : Nat), htblGet cb.outmsgbuf k = some q →
    (datagrams cb.sent)[k.toNat]? = some (keptBytes (cb.msgs q))

/-- The sender without acks: only heartbeats purge, so the lower end of
the window is the oldest mark. -/
structure Unacked (s : Sender) : Prop where
  window : Window s.cb
  stored : Stored s.cb
  hbAck : s.cb.hbAck = false
  oldest : s.cb.oldestSeq = s.cb.hbSeqP3
  p1 : s.cb.hbSeqP1 = s.mark 0
  p2 : s.cb.hbSeqP2 = s.mark 1
  p3 : s.cb.hbSeqP3 = s.mark 2
  sends : s.cb.self.sequence.toNat ≤ s.sends

end Rms.V01
