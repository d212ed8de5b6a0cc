/-
Rms.V01.EndToEnd — from one client to the other.

Two daemons with the network between them (`System`), and a client on
either side. The sending client writes on its stream with `rmcast_send`,
and the IPC branch of its daemon reads from there, with `recv`s that return
what they like (`Pipe`); the receiving daemon writes its records on the
stream that `rmcast_timed_recvfrom` reads. That the reads of the daemon
are whole is a condition on the events (`Orderly`); those of the client
are, as in `Client`. How much a `send` of the daemon takes is up to the
host, but none fails.

The history variables are the messages written, and the calls that found
something on the stream: the sizes of their buffers and what they
returned.
-/
import Rms.V01.Delivery
import Rms.V01.FramingTheorems
import Rms.V01.PipeTheorems

namespace Rms.V01

open Rms.ByteMem

structure EndToEnd where
  net : System
  pipe : List UInt8
  sock : ClientSock
  written : List (List UInt8)
  lens : List Int
  got : List Received

/-- One client writes, the IPC branch of its daemon runs with `recv`s of `n`
and of `k` bytes, something else happens between the daemons, or the other
client asks for a message. -/
inductive ClientEvent where
  | write (data : List UInt8)
  | read (n k : Nat)
  | net (ev : Event)
  | recv (len : Int)

/-- Two nodes fresh from `rmcast_init`, and clients that have not called
anything yet. -/
def EndToEnd.start (g g' : Garbage) (a a' : InitArgs) (discardSize : Int) : EndToEnd :=
  { net := .start g a (rmcastInit g' a'), pipe := [], sock := ⟨[], discardSize⟩
    written := [], lens := [], got := [] }

/-- The sending daemon and its stream. -/
def EndToEnd.sending (s : EndToEnd) : Pipe := ⟨s.net.sender, s.pipe, [], []⟩

/-- The daemons go on to `net`, and the new records of the receiving one are
on its client's stream. -/
def EndToEnd.goOn (s : EndToEnd) (net : System) : EndToEnd :=
  let new := ipcStream (net.receiver.ipcOut.drop s.net.receiver.ipcOut.length)
  { s with net := net, sock := { s.sock with stream := s.sock.stream ++ new } }

def EndToEnd.step (l : Link) (s : EndToEnd) : ClientEvent → Option EndToEnd
  | .write data =>
      some { s with pipe := s.pipe ++ (rmcastSend l.sHost.endian true data).2
                    written := s.written ++ [data] }
  | .read n k =>
      (s.sending.step l.sHost (.recv n k)).map fun p =>
        let net := s.net.multicast p.daemon
        let sent := p.multicast.map fun x => x.bytes.drop sizeofHdr
        { s with net := { net with payloads := s.net.payloads ++ sent }, pipe := p.stream }
  | .net (.send _) => none
  | .net ev => (System.step l s.net ev).map s.goOn
  | .recv len =>
      match s.sock.stream with
      | [] => some s -- `select` times out and 0 is returned
      | _ :: _ =>
          (rmcastTimedRecvfrom l.rHost.endian true 1 len s.sock).map fun r =>
            { s with sock := r.2, lens := s.lens ++ [len], got := s.got ++ [r.1] }

/-- Every message and every heartbeat fits into `room` bytes, there are fewer
messages than numbers, every `recv` of the IPC branch returns all it asks
for, the network keeps the order, and no buffer of a client has a negative
size. -/
def Orderly (h : Host) (room : Nat) (s : EndToEnd) : ClientEvent → Prop
  | .write data => s.written.length + 1 < 4294967295 ∧ sizeofHdr + data.length ≤ room
  | .read n k => WholeReads h s.sending (.recv n k)
  | .net ev => Allowed 4294967295 room s.net ev ∧ Fifo s.net ev
  | .recv len => 0 ≤ len

instance (h : Host) (room : Nat) (s : EndToEnd) : ∀ ev, Decidable (Orderly h room s ev)
  | .write data => inferInstanceAs (Decidable
      (s.written.length + 1 < 4294967295 ∧ sizeofHdr + data.length ≤ room))
  | .read n k => inferInstanceAs (Decidable (WholeReads h s.sending (.recv n k)))
  | .net ev => inferInstanceAs (Decidable (Allowed 4294967295 room s.net ev ∧ Fifo s.net ev))
  | .recv len => inferInstanceAs (Decidable (0 ≤ len))

/-- What a call with a buffer of `len` bytes returns of a message. -/
def cutTo (sender : SockaddrIn) (len : Int) (payload : List UInt8) : Received :=
  ⟨min len payload.length, payload.take (min len payload.length).toNat, sender.bytes⟩

/-- The messages that are the receiving client's: from the number of the
first heartbeat that arrived up to the last message that did. -/
def EndToEnd.due (s : EndToEnd) : List (List UInt8) :=
  match firstHbeat (s.net.wire.take s.net.arrived) with
  | none => []
  | some q => (s.written.take (dataCount (s.net.wire.take s.net.arrived))).drop q.toNat

/-- The bytes of a message on the receiving client's stream. -/
def framed (e : Endian) (sender : SockaddrIn) (payload : List UInt8) : List UInt8 :=
  ipcMetadata e (UInt32.ofNat payload.length) sender ++ payload

end Rms.V01
