/-
Rms.V01.Client — the client's half of `rmcast.c`.

A client talks to the daemon over a stream socket. `rmcast_send` writes a
length word and the message; `rmcast_timed_recvfrom` reads a
`struct ipc_metadata` and then the message, cut to the caller's buffer,
with the rest of it read into `discard`.

The reading side is modelled on a stream from which every `recv` returns
all the bytes it asks for; `none` stands for a `recv` that would have to
wait for bytes nobody writes.
-/
import Rms.V01.Daemon

namespace Rms.V01

open Rms.ByteMem

/-! ## Streams -/

/-- `recv` of exactly `n` bytes. -/
def recvExact (n : Nat) (stream : List UInt8) : Option (List UInt8 × List UInt8) :=
  if n ≤ stream.length then some (stream.take n, stream.drop n) else none

theorem recvExact_append {n : Nat} {xs : List UInt8} (h : xs.length = n) (ys : List UInt8) :
    recvExact n (xs ++ ys) = some (xs, ys) := by
  subst h
  simp [recvExact]

theorem recvExact_length {n : Nat} {stream xs ys : List UInt8}
    (h : recvExact n stream = some (xs, ys)) :
    xs.length = n ∧ stream.length = n + ys.length := by
  unfold recvExact at h
  split at h
  · cases h
    rw [List.length_take, List.length_drop]
    omega
  · cases h

/-! ## Sending -/

/-- `rmcast_send`: what is returned, and what the two `send`s put on the
stream. -/
def rmcastSend (e : Endian) (active : Bool) (data : List UInt8) : Int × List UInt8 :=
  if active then (data.length, enc32 e (UInt32.ofNat data.length) ++ data) else (-1, [])

/-! ## Receiving -/

/-- The client's end of the stream, and the size of the discard buffer. -/
structure ClientSock where
  stream : List UInt8
  discardSize : Int

/-- What a call returns: `ret`, what it put into `data`, and the address
it found. -/
structure Received where
  ret : Int
  data : List UInt8
  addr : List UInt8
  deriving DecidableEq, Repr

/-- The size of `struct ipc_metadata`. -/
def sizeofIpcMetadata : Nat := 20

/-- `rcvd.nbytes`. -/
def ipcNbytes (e : Endian) (rcvd : List UInt8) : Int :=
  toInt32 (load32 e (fun i => rcvd.getD i 0) 0)

/-- The second part of `rmcast_timed_recvfrom`, once the metadata is read:
the whole message, or as much as there is room for. -/
def recvData (len nbytes : Int) (addr : List UInt8) (c : ClientSock) :
    Option (Received × ClientSock) :=
  if nbytes ≤ len then
    match recvExact (sizeT nbytes) c.stream with
    | none => none
    | some (data, rest) => some (⟨data.length, data, addr⟩, { c with stream := rest })
  else
    match recvExact (sizeT len) c.stream with
    | none => none
    | some (data, rest) =>
        let nbytes := nbytes - len
        match recvExact (sizeT nbytes) rest with
        | none => none
        | some (_, rest) =>
            some (⟨data.length, data, addr⟩, ⟨rest, max c.discardSize nbytes⟩)

/-- `rmcast_timed_recvfrom`. `select` is what `select` returns. -/
def rmcastTimedRecvfrom (e : Endian) (active : Bool) (select len : Int) (c : ClientSock) :
    Option (Received × ClientSock) :=
  if active = false then some (⟨-1, [], []⟩, c)
  else if 0 < select then
    match recvExact sizeofIpcMetadata c.stream with
    | none => none
    | some (rcvd, rest) =>
        recvData len (ipcNbytes e rcvd) (rcvd.drop sizeofLong) { c with stream := rest }
  else some (⟨0, [], []⟩, c)

/-- Successive calls on a stream that has data, with buffers of the given
sizes. -/
def recvCalls (e : Endian) : List Int → ClientSock → Option (List Received × ClientSock)
  | [], c => some ([], c)
  | len :: lens, c =>
      match rmcastTimedRecvfrom e true 1 len c with
      | none => none
      | some (r, c) =>
          match recvCalls e lens c with
          | none => none
          | some (rs, c) => some (r :: rs, c)

/-! ## Discarding -/

/-- What the last `recv` of `rmcast_timed_recvfrom` stores in `discard`, if
it is reached, and `discard_size` by then. -/
def recvDiscard (len nbytes : Int) (c : ClientSock) : Option (List UInt8 × Int) :=
  if nbytes ≤ len then none
  else
    match recvExact (sizeT len) c.stream with
    | none => none
    | some (_, rest) =>
        let nbytes := nbytes - len
        let discardSize := if c.discardSize < nbytes then nbytes else c.discardSize
        (recvExact (sizeT nbytes) rest).map fun r => (r.1, discardSize)

/-- The same over successive calls, for those that discard something. -/
def discardCalls (e : Endian) : List Int → ClientSock → List (List UInt8 × Int)
  | [], _ => []
  | len :: lens, c =>
      match recvExact sizeofIpcMetadata c.stream, rmcastTimedRecvfrom e true 1 len c with
      | some (rcvd, rest), some (_, c') =>
          (recvDiscard len (ipcNbytes e rcvd) { c with stream := rest }).toList
            ++ discardCalls e lens c'
      | _, _ => []

end Rms.V01
