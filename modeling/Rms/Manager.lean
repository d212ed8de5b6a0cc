/-
Rms.Manager — `rms_manager.c`: the datagram switch of the successor of
v0.1, its DATA and HEARTBEAT cases.

A datagram is taken as the fields that the switch reads once the header
was converted (`rms_internal.h` and `rms_manager.c` do not agree on the
header, so there is no byte layout to be faithful to). Two slips on the
way there are repaired: `recvfrom` is given `&msg->buf`, and the `recv` of
the IPC branch `&msg->data`. These are the addresses of the pointers, and
the calls would write over the fields of `msg`; they are taken to write
where the pointers lead.

Peers are heap objects reached through the table `ht_peers` and the queue
`mq_peers`. What their
caches hold is a parameter: the messages as values here, and pointers to
them in `Rms.ManagerLoop`. `ipcOut` lists the messages written on
`ipc_sock`, and `nacks` what `send_nack` sent.

The handler keeps two counters for a peer. `sequence_sent` is the number
of the last DATA datagram, whatever it was; `sequence_rcvd` counts the
messages forwarded. Both start at 0, whatever the heartbeat says.
-/
import Rms.Util.Htbl
import Rms.Util.Mqueue

namespace Rms.Manager

open Rms.Util

variable {α : Type}

/-- A DATA message: its number, the id of the sender and the
`hdr->length` bytes behind the header. -/
structure RmsMetaMsg where
  sequence : UInt32
  id : UInt32
  data : List UInt8
  deriving DecidableEq

/-- A peer, with a cache of `α`. -/
structure RmsMetaPeer (α : Type) where
  id : UInt32
  hostname : List UInt8
  sequenceSent : UInt32
  sequenceRcvd : UInt32
  sequenceSync : UInt32
  lost : UInt32
  htUnseqMsgs : Htbl α

def rmsMetaPeerInit (hostname : List UInt8) (id : UInt32) : RmsMetaPeer α :=
  { id := id, hostname := hostname, sequenceSent := 0, sequenceRcvd := 0, sequenceSync := 0
    lost := 0, htUnseqMsgs := ∅ }

/-- A heartbeat: the header's number and id, the value stored in
`peer->lost`, the name if there is one, and the pairs of the ack list. -/
structure RmsMsgHbeat where
  sequence : UInt32
  id : UInt32
  lost : UInt32
  name : Option (List UInt8)
  acks : List (UInt32 × UInt32)

/-- What `send_nack` sends. -/
structure Nack where
  sequence : UInt32
  id : UInt32
  listed : List UInt32

structure Rmscb (α : Type) where
  selfId : UInt32
  selfLost : UInt32
  htPeers : Htbl Nat
  mqPeers : Mqueue Nat
  peers : Nat → RmsMetaPeer α
  npeers : Nat
  ipcOut : List RmsMetaMsg
  nacks : List Nack

def Rmscb.setPeer (cb : Rmscb α) (pp : Nat) (peer : RmsMetaPeer α) : Rmscb α :=
  { cb with peers := Function.update cb.peers pp peer }

/-- Write a message on `ipc_sock`. -/
def Rmscb.forward (cb : Rmscb α) (msg : RmsMetaMsg) : Rmscb α :=
  { cb with ipcOut := cb.ipcOut ++ [msg] }

/-! ## NACKs -/

/-- The loop of `send_nack`: the numbers that are not cached. -/
def nackScan (unseq : Htbl α) : (rounds : Nat) → (itr : UInt32) → List UInt32
  | 0, _ => []
  | n + 1, itr =>
      match htblGet unseq itr with
      | none => itr :: nackScan unseq n (itr + 1)
      | some _ => nackScan unseq n (itr + 1)

/-- `send_nack`. The loop runs from `sequence_rcvd + 1` until it meets
`sequence_sent - 1`. -/
def sendNack (pp : Nat) (cb : Rmscb α) : Rmscb α :=
  let peer := cb.peers pp
  let seq2 := peer.sequenceSent - 1
  let itr := peer.sequenceRcvd + 1
  let listed := nackScan peer.htUnseqMsgs (seq2 - itr).toNat itr
  let lost := UInt32.ofNat listed.length
  { cb.setPeer pp { peer with lost := peer.lost + lost } with
      selfLost := cb.selfLost + lost
      nacks := cb.nacks ++ [⟨peer.sequenceRcvd, peer.id, listed⟩] }

/-! ## The cases of the switch -/

/-- The loop that releases out-of-sequence data. It looks for the number of
the datagram that is being handled. -/
def releaseUnseq (pp : Nat) : (rounds : Nat) → Rmscb RmsMetaMsg → Rmscb RmsMetaMsg
  | 0, cb => cb
  | n + 1, cb =>
      let peer := cb.peers pp
      match htblRemove peer.htUnseqMsgs peer.sequenceSent with
      | none => cb
      | some (msg, t) =>
          releaseUnseq pp n ((cb.forward msg).setPeer pp
            { peer with htUnseqMsgs := t, sequenceRcvd := peer.sequenceRcvd + 1 })

/-- `case RMS_DATA`. -/
def dataMsg (cb : Rmscb RmsMetaMsg) (msg : RmsMetaMsg) : Rmscb RmsMetaMsg :=
  match htblGet cb.htPeers msg.id with
  | none => cb
  | some pp =>
      let peer := { cb.peers pp with sequenceSent := msg.sequence }
      if peer.sequenceRcvd + 1 ≠ msg.sequence then
        if peer.sequenceRcvd < msg.sequence then
          sendNack pp (cb.setPeer pp
            { peer with htUnseqMsgs := htblPut peer.htUnseqMsgs msg.sequence msg })
        else cb.setPeer pp peer
      else
        releaseUnseq pp (htblCount peer.htUnseqMsgs) ((cb.forward msg).setPeer pp
          { peer with sequenceRcvd := peer.sequenceRcvd + 1 })

/-- The string literal `"noname"`. -/
def noname : List UInt8 := [110, 111, 110, 97, 109, 101]

/-- Register the sender of a heartbeat, if it is unknown. -/
def hbeatPeer (cb : Rmscb α) (hbeat : RmsMsgHbeat) : Rmscb α × Nat :=
  match htblGet cb.htPeers hbeat.id with
  | some pp => (cb, pp)
  | none =>
      ({ cb with
          peers := Function.update cb.peers cb.npeers
            (rmsMetaPeerInit (hbeat.name.getD noname) hbeat.id)
          npeers := cb.npeers + 1
          htPeers := htblPut cb.htPeers hbeat.id cb.npeers
          mqPeers := mqueueAdd cb.mqPeers cb.npeers }, cb.npeers)

/-- The number that the ack list has for our own id. -/
def ackFor (id : UInt32) (acks : List (UInt32 × UInt32)) : Option UInt32 :=
  (acks.find? fun a => a.1 = id).map Prod.snd

/-- `case RMS_HEARTBEAT`. -/
def heartbeatMsg (cb : Rmscb RmsMetaMsg) (hbeat : RmsMsgHbeat) : Rmscb RmsMetaMsg :=
  let (cb, pp) := hbeatPeer cb hbeat
  let peer := { cb.peers pp with lost := hbeat.lost }
  let peer := { peer with sequenceSync := (ackFor cb.selfId hbeat.acks).getD peer.sequenceSync }
  let cb := cb.setPeer pp peer
  if peer.sequenceSent + 1 ≠ hbeat.sequence then
    if peer.sequenceSent < hbeat.sequence then sendNack pp cb else cb
  else cb

end Rms.Manager
