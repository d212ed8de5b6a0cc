/-
Rms.V01.ClientThreads — several threads of a client call `rmcast_send`.

`rmcast_send` puts a message on the stream to the daemon with two calls of
`send`, the length word and then the bytes, and holds no lock in between.
A `Piece` is what one `send` writes. A message is known by its place in
the order of the length words; what it says is left open, so that the
state is the same for all contents, and `Writers.stream` has the bytes for
the contents one chooses.

The daemon's side is that of `Pipe`: `reading` has the daemon and its
stream, and `readAll` runs the IPC branch again and again, with `recv`s
that return given numbers of bytes.
-/
import Rms.V01.PipeTheorems

namespace Rms.V01

open Rms.ByteMem Rms.Runs

variable {τ : Type*} [DecidableEq τ]

/-- The byte at a position of a message. -/
def Contents := (msg pos : Nat) → UInt8

/-- The first `len` bytes of a message. -/
def Contents.bytes (c : Contents) (msg len : Nat) : List UInt8 := (List.range len).map (c msg)

/-- What one `send` writes. -/
inductive Piece
  | length (len : Nat)
  | data (msg len : Nat)

def Piece.bytes (e : Endian) (c : Contents) : Piece → List UInt8
  | .length len => enc32 e (UInt32.ofNat len)
  | .data msg len => c.bytes msg len

/-- The stream, the message of each thread that is between its two calls of
`send`, with its length, and the lengths of all messages in the order of
their length words. -/
structure Writers (τ : Type*) where
  pieces : List Piece
  pending : τ → Option (Nat × Nat)
  lengths : List Nat

def Writers.stream (e : Endian) (c : Contents) (s : Writers τ) : List UInt8 :=
  s.pieces.flatMap (Piece.bytes e c)

def Writers.messages (c : Contents) (s : Writers τ) : List (List UInt8) :=
  s.lengths.mapIdx c.bytes

/-- What one thread would write, message after message. -/
def Writers.serial (e : Endian) (c : Contents) (s : Writers τ) : List UInt8 :=
  (s.messages c).flatMap fun msg => (rmcastSend e true msg).2

/-- The first and the second `send` of a call. -/
inductive WriteOp (τ : Type*)
  | length (t : τ) (len : Nat)
  | data (t : τ)

def writeStep (s : Writers τ) : WriteOp τ → Option (Writers τ)
  | .length t len =>
      if s.pending t = none ∧ len < 65536 then
        some { pieces := s.pieces ++ [.length len]
               pending := Function.update s.pending t (some (s.lengths.length, len))
               lengths := s.lengths ++ [len] }
      else none
  | .data t =>
      match s.pending t with
      | none => none
      | some (msg, len) =>
          some { s with pieces := s.pieces ++ [.data msg len]
                        pending := Function.update s.pending t none }

def Writers.start (τ : Type*) : Writers τ :=
  { pieces := [], pending := fun _ => none, lengths := [] }

/-- The daemon before a stream. -/
def reading (cb : RmcCtrlBlock) (stream : List UInt8) : Pipe := ⟨cb, stream, [], []⟩

/-- The IPC branch runs once for each pair of numbers: as many bytes the
first and the second `recv` return. -/
def readAll (h : Host) (cb : RmcCtrlBlock) (stream : List UInt8) (reads : List (Nat × Nat)) :
    Option Pipe :=
  run (Pipe.step h) (reading cb stream) (reads.map fun x => .recv x.1 x.2)

/-- All of these `recv`s return what they ask for. -/
def AllWhole (h : Host) (cb : RmcCtrlBlock) (stream : List UInt8) (reads : List (Nat × Nat)) :
    Prop :=
  Guarded (Pipe.step h) (WholeReads h) (reading cb stream) (reads.map fun x => .recv x.1 x.2)

/-- The messages that the daemon has multicast. -/
def Pipe.bodies (p : Pipe) : List (List UInt8) := p.multicast.map fun x => x.bytes.drop sizeofHdr

end Rms.V01
