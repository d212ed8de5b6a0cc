/-
Rms.V01.Drain — the drain of a cache in `case RMCAST_MSG_LEAVE` of
`v0.1/rmcast.c`, on the table of `lib/util/hashtable.c` and for both
common sizes of `unsigned long`.

The handler counts the entries, lets `htbl_enum_int_keys` write the keys
into a zeroed array of `unsigned long`, and removes the key in each
element of it. The enumeration writes `int`s, four bytes each. The bytes
are those of a little-endian machine.
-/
import Rms.Lib.ByteMem
import Rms.Util.Hashtable

namespace Rms.V01

open Rms.ByteMem Rms.Util Rms.Util.Hashtable

/-- `unsigned long` has four bytes or eight; `int` has four in both. -/
inductive DataModel where
  | ilp32
  | lp64
  deriving DecidableEq

variable {α : Type*}

/-- The array `keys` behind `memset` and `htbl_enum_int_keys`. -/
def keysArray (ikeys : List Int32) : Mem :=
  writeBytes (fun _ => 0) 0 ((ikeys.map Int32.toUInt32).flatMap (enc32 .little))

/-- The value of an `unsigned long` of eight bytes. -/
def load64 (m : Mem) (off : Nat) : Nat :=
  (load32 .little m off).toNat + 4294967296 * (load32 .little m (off + 4)).toNat

/-- `keys[itr]`, as the `int` that `htbl_remove` takes. -/
def keyAt (model : DataModel) (keys : Mem) (itr : Nat) : Int32 :=
  match model with
  | .ilp32 => (load32 .little keys (4 * itr)).toInt32
  | .lp64 => (UInt32.ofNat (load64 keys (8 * itr))).toInt32

/-- The loop of `htbl_remove` calls, and the messages it hands out. -/
def removeKeys : (keys : List Int32) → Hashtbl α → Option (Hashtbl α × List α)
  | [], t => some (t, [])
  | key :: keys, t =>
      match Hashtable.htblRemove t key with
      | none => none
      | some (t, answer) =>
          let msg := if answer.ret ≠ 0 then answer.data.toList else []
          (removeKeys keys t).map fun r => (r.1, msg ++ r.2)

/-- Count, list the keys, remove each. -/
def drainTable (model : DataModel) (t : Hashtbl α) : Option (Hashtbl α × List α) :=
  match Hashtable.htblEnumIntKeys t (Hashtable.htblCount t) with
  | none => none
  | some ikeys =>
      removeKeys ((List.range ikeys.length).map (keyAt model (keysArray ikeys))) t

end Rms.V01
