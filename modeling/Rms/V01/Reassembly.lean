/-
Rms.V01.Reassembly — the DATA handler as a machine of one member.

`Reassembly` is what the handler keeps for a member: the number last
handed over and the messages that came ahead of their turn. `arrive` is
what it does with one message, over messages of any type; the daemon is
shown to refine it in `DataTheorems`.

`Board` is bookkeeping about the arrivals alone: the number that is due,
and the numbers that came ahead so far, when only arrivals in their turn
advance it. `firstRepeat` finds the first arrival of a number that is
due although it came ahead before. Up to there the handler follows the
board; what it does at that point decides whether it is complete
(`ReassemblyTheorems`).
-/
import Rms.Lib.Serial
import Rms.Util.Htbl

namespace Rms.V01

open Rms.Util

/-- What the DATA handler keeps for one member. -/
structure Reassembly (α : Type*) where
  sequence : UInt32
  unseqMsgs : Htbl α

/-- How a message reached the client: from its own datagram, or out of
the cache. -/
inductive Handed (α : Type*) where
  | direct (a : α)
  | released (a : α)

variable {α : Type*}

def Handed.msg : Handed α → α
  | .direct a => a
  | .released a => a

/-- The release loop, with the messages it hands over. It looks for the
number last handed over, not for the one after it. -/
def release : (rounds : Nat) → Reassembly α → Reassembly α × List α
  | 0, s => (s, [])
  | n + 1, s =>
      match htblRemove s.unseqMsgs s.sequence with
      | none => (s, [])
      | some (a, t) =>
          let r := release n ⟨s.sequence + 1, t⟩
          (r.1, a :: r.2)

/-- One message of the member. `num` is its sequence number. -/
def arrive (num : α → UInt32) (s : Reassembly α) (a : α) : Reassembly α × List (Handed α) :=
  if s.sequence + 1 ≠ num a then
    if s.sequence < num a then ({ s with unseqMsgs := htblPut s.unseqMsgs (num a) a }, [])
    else (s, [])
  else
    let r := release (htblCount s.unseqMsgs) { s with sequence := s.sequence + 1 }
    (r.1, .direct a :: r.2.map .released)

/-- A list of messages, one after the other. -/
def arriveAll (num : α → UInt32) : Reassembly α → List α → Reassembly α × List (Handed α)
  | s, [] => (s, [])
  | s, a :: as =>
      let r := arrive num s a
      let r' := arriveAll num r.1 as
      (r'.1, r.2 ++ r'.2)

/-! ## The board -/

/-- The number that is due and the numbers that came ahead of it. -/
structure Board where
  due : UInt32
  ahead : List UInt32
  deriving DecidableEq, Repr

/-- Note one arrival. -/
def Board.note (b : Board) (k : UInt32) : Board :=
  if k = b.due then { b with due := b.due + 1 }
  else if b.due - 1 < k then { b with ahead := k :: b.ahead }
  else b

/-- The board at the first arrival of a number that is due and came ahead
before. -/
def Board.firstRepeat (b : Board) : List UInt32 → Option Board
  | [] => none
  | k :: ks => if k = b.due ∧ k ∈ b.ahead then some b else (b.note k).firstRepeat ks

end Rms.V01
