/-
Rms.V01.Format — the form of what a node sends.

Every datagram that is passed to `sendto` begins with the node's version,
the type of its kind and the number of bytes behind the header. `Emitter`
adds to the control block the log of these datagrams, each with the kind
it was built as: a step of the daemon builds messages of one kind only
(`kindOf`).

The version is written when a buffer is created. A buffer that comes out
of the pool holds whatever was received or sent in it last, and
`CleanSend` says which of them may be used.
-/
import Rms.Lib.Serial
import Rms.V01.Leave
import Rms.V01.PeerTheorems
import Rms.V01.SendTheorems
import Rms.V01.Window

namespace Rms.V01

open Rms.ByteMem Rms.Util Rms.Serial

/-- A datagram of a kind, as it should be. -/
structure WellFormed (version : UInt8) (kind : MsgType) (bytes : List UInt8) : Prop where
  version : bytes[0]? = some version
  type : bytes[1]? = some kind.toByte
  length : bytes.length = sizeofHdr + (be16At (fun i => bytes.getD i 0) 2).toNat

/-! ## The node as a sender of datagrams -/

/-- What a node does: the branches of the daemon's loop, `rmcast_leave` in
the client's thread with the keys it lists, and the end of the daemon. -/
inductive NodeOp where
  | branch (b : Branch)
  | leave (out keys : List UInt32)
  | exit

def nodeStep (h : Host) (cb : RmcCtrlBlock) : NodeOp → Option RmcCtrlBlock
  | .branch b => V01.branch h cb b
  | .leave out keys => some (leaveWith out keys cb)
  | .exit => some (daemonExit h cb)

/-- The kind of the messages a step builds. The switch answers a NACK with
DATA, and everything else that it answers with a NACK. -/
def kindOf (h : Host) (cb : RmcCtrlBlock) : NodeOp → MsgType
  | .branch (.mcast _ r) =>
      match (accepted h r cb).bind fun m => MsgType.ofByte m.hdrType with
      | some .nack => .data
      | _ => .nack
  | .branch .hbeat => .hbeat
  | .exit => .leave
  | _ => .data

structure Emitter where
  cb : RmcCtrlBlock
  /-- The datagrams passed to `sendto`, each with its kind. -/
  emitted : List (MsgType × List UInt8)

namespace Emitter

def start (g : Garbage) (a : InitArgs) : Emitter := { cb := rmcastInit g a, emitted := [] }

def step (h : Host) (s : Emitter) (op : NodeOp) : Option Emitter :=
  (nodeStep h s.cb op).map fun cb' =>
    { cb := cb'
      emitted := s.emitted
        ++ (cb'.sent.drop s.cb.sent.length).map fun x => (kindOf h s.cb op, x.bytes) }

/-- Everything sent so far was well formed. -/
def AllWellFormed (s : Emitter) : Prop := ∀ x ∈ s.emitted, WellFormed s.cb.version x.1 x.2

end Emitter

/-! ## The condition -/

/-- The version byte in the buffer that `alloc_msg` will return after `n`
more calls; a new buffer has the node's version. -/
def versionAt (cb : RmcCtrlBlock) (n : Nat) : UInt8 :=
  match cb.bufmsgq[n]? with
  | some p => (cb.msgs p).hdrVersion
  | none => cb.version

/-- How many numbers are neither the last one of a member, nor the one
before it, nor cached. -/
def missing (sequence : UInt32) (unseqMsgs : Htbl Nat) : Nat :=
  ((span (sequence + 1) 4294967294).filter fun k => (htblGet unseqMsgs k).isNone).length

/-- A NACK for these numbers has a length of sixteen bits. -/
def NackFits (sequence : UInt32) (unseqMsgs : Htbl Nat) : Prop :=
  (1 + missing sequence unseqMsgs) * sizeofLong % 4294967296 < 65536

/-- The message with number `n` comes ahead of what is expected. -/
def Ahead (v : Peer Nat) (n : UInt32) : Prop := v.sequence + 1 ≠ n ∧ v.sequence < n

/-- What a step is about to send has the right version in its buffer and a
length of sixteen bits:

* a NACK for a DATA message ahead is built in the buffer behind the one
  that the message is received into;
* a NACK for a heartbeat ahead is built over the heartbeat;
* everything else is built in the next buffer of the pool. -/
def CleanSend (h : Host) (cb : RmcCtrlBlock) : NodeOp → Prop
  | .branch (.mcast _ r) => ∀ m v, accepted h r cb = some m →
      peerAt cb (m.hdrId h.endian) = some v → Ahead v (m.hdrSequence h.endian) →
        (eventOf h.endian m () = .data () → versionAt cb 1 = cb.version
          ∧ NackFits v.sequence
              (htblPut v.unseqMsgs (m.hdrSequence h.endian) (allocMsg cb).2))
        ∧ (eventOf h.endian m () = .hbeat v.session (m.hdrSequence h.endian) →
            m.hdrVersion = cb.version ∧ NackFits v.sequence v.unseqMsgs)
  | .branch (.ipc i) => 0 < (i.len.limit sizeofLong).ret →
      (i.body.limit (sizeT (ipcLen h i cb))).ret = ipcLen h i cb →
        versionAt cb 0 = cb.version ∧ 0 ≤ ipcLen h i cb ∧ ipcLen h i cb < 65536
  | .branch .hbeat => versionAt cb 0 = cb.version
      ∧ sizeofHbeat + ackCount cb % 65536 * (2 * sizeofLong) < 65536
  | .exit => versionAt cb 0 = cb.version
  | _ => True

end Rms.V01
