/-
Rms.Util.EnumTheorems — listing the keys of a table into an array.

`htbl_enum_int_keys` and `htbl_enum_str_keys` are given the number of
slots of the array. They look at it behind each write and then leave the
chain they are on, but not the loop over the buckets, so every bucket
that is not empty gets a slot. `htblEnumIntKeys_eq` and
`htblEnumStrKeys_eq` say what is written, in terms of the loop
`Rms.Buckets.gather`.

`htbl_enum_bounded_iff`: the array is not overrun exactly if no bucket
that is not empty lies behind `nkeys` entries or more (`Roomy`). With as
many slots as there are entries this is so.
-/
import Mathlib.Algebra.Ring.Int.Defs
import Rms.Lib.Buckets
import Rms.Util.RehashTheorems

namespace Rms.Util.Hashtable

open Rms.Chains Rms.Runs Rms.Buckets

variable {α β : Type*} {t : Hashtbl α} {chains : Nat → List Nat} {fs : List Nat}
  {m : AList fun _ : HtblKey => α} {slot : HtblEntry α → β}

/-! ## What is written -/

theorem enumChain_eq {as : List Nat} {nkeys : Nat} :
    ∀ {n : Nat} {p : Option Nat} {keys : List β}, Path (links t) p as none → as.length < n →
      enumChain t slot nkeys n p keys
        = some (gatherBucket nkeys keys (as.map fun a => slot (t.nodes a))) := by
  induction as with
  | nil =>
    intro n p keys h hn
    obtain ⟨n, rfl⟩ := Nat.exists_eq_succ_of_ne_zero (Nat.ne_of_gt hn)
    obtain rfl : p = none := h
    rfl
  | cons a as ih =>
    intro n p keys h hn
    obtain ⟨n, rfl⟩ := Nat.exists_eq_succ_of_ne_zero
      (Nat.ne_of_gt (Nat.lt_of_le_of_lt (Nat.zero_le _) hn))
    obtain ⟨rfl, h⟩ := h
    have hrest : enumChain t slot nkeys n (t.nodes a).next (keys ++ [slot (t.nodes a)])
        = some (gatherBucket nkeys (keys ++ [slot (t.nodes a)])
            (as.map fun a => slot (t.nodes a))) := ih h (Nat.lt_of_succ_lt_succ hn)
    simp only [enumChain, List.map_cons, gatherBucket, Int.ofNat_le, hrest]
    split <;> rfl

/-- What the entries of the buckets are listed as. -/
def slotBuckets (t : Hashtbl α) (slot : HtblEntry α → β) (chains : Nat → List Nat)
    (hs : List Nat) : List (List β) :=
  hs.map fun h => (chains h).map fun a => slot (t.nodes a)

theorem enumBuckets_eq (r : Represents t chains fs m) {nkeys : Nat} (n : Nat) :
    ∀ {itr : Nat} {keys : List β}, enumBuckets t slot nkeys n itr keys
      = some (gather nkeys (slotBuckets t slot chains (List.range' itr n)) keys) := by
  induction n with
  | zero =>
    intro itr keys
    rfl
  | succ n ih =>
    intro itr keys
    rw [enumBuckets, enumChain_eq (r.chain itr) (Nat.lt_succ_of_le (r.length_le itr))]
    simp only [ih, List.range'_succ, slotBuckets, List.map_cons, gather]

theorem htblEnumIntKeys_eq (r : Represents t chains fs m) (nkeys : Nat) :
    htblEnumIntKeys t nkeys = some (gather nkeys
      (slotBuckets t HtblEntry.intKey chains (List.range' 0 t.tblSize)) []) :=
  enumBuckets_eq r t.tblSize

theorem htblEnumStrKeys_eq (r : Represents t chains fs m) (nkeys : Nat) :
    htblEnumStrKeys t nkeys = some (gather nkeys
      (slotBuckets t HtblEntry.key chains (List.range' 0 t.tblSize)) []) :=
  enumBuckets_eq r t.tblSize

theorem intKey_eq {entry : HtblEntry α} (htype : entry.type = entry.key.type)
    (hint : entry.key.type = .int) : HtblKey.int entry.intKey = entry.key := by
  obtain ⟨type, hash, key, data, next⟩ := entry
  obtain rfl : type = key.type := htype
  cases key with
  | int key => rfl
  | str key => cases hint

theorem slotBuckets_flatten (t : Hashtbl α) (slot : HtblEntry α → β) (chains : Nat → List Nat)
    (hs : List Nat) :
    (slotBuckets t slot chains hs).flatten = (hs.flatMap chains).map fun a => slot (t.nodes a) := by
  simp [slotBuckets, List.flatMap_def, List.map_flatten, Function.comp_def]

/-- The keys in the buckets are those of the map. -/
theorem Represents.keys_perm (r : Represents t chains fs m) (hsize : 0 < t.tblSize) :
    (((List.range' 0 t.tblSize).flatMap chains).map fun a => (t.nodes a).key).Perm m.keys := by
  have he := r.entries t.tblSize
  rw [List.perm_ext_iff_of_nodup (he.nodup.map_on he.once) m.keys_nodup]
  intro k
  rw [← AList.mem_keys, ← AList.lookup_isSome, Option.isSome_iff_exists]
  simp only [r.lookup_iff hsize, List.mem_map]
  constructor
  · intro ⟨a, ha, hkey⟩
    exact ⟨_, a, ha, hkey, rfl⟩
  · intro ⟨_, a, ha, hkey, _⟩
    exact ⟨a, ha, hkey⟩

theorem Represents.length_slots (r : Represents t chains fs m) (hsize : 0 < t.tblSize)
    (slot : HtblEntry α → β) :
    ((slotBuckets t slot chains (List.range' 0 t.tblSize)).flatten.length : Int) = htblCount t := by
  have hlen := (r.keys_perm hsize).length_eq
  rw [List.length_map] at hlen
  rw [slotBuckets_flatten, List.length_map, hlen]
  exact r.count.symm

/-! ## Room -/

/-- No bucket that is not empty lies behind `nkeys` entries or more. -/
def Roomy (t : Hashtbl α) (nkeys : Nat) : Prop :=
  ∀ h < t.tblSize, t.entries h ≠ none →
    ((List.range h).map t.entriesChainLengths).sum < (nkeys : Int)

theorem Represents.roomy_iff (r : Represents t chains fs m) (slot : HtblEntry α → β) (nkeys : Nat) :
    BeginBelow nkeys 0 (slotBuckets t slot chains (List.range' 0 t.tblSize)) ↔ Roomy t nkeys := by
  have hsum : ∀ hs : List Nat, (((slotBuckets t slot chains hs).map List.length).sum : Int)
      = (hs.map t.entriesChainLengths).sum := by
    intro hs
    induction hs with
    | nil => rfl
    | cons h hs ih =>
      simp only [slotBuckets, List.map_cons, List.sum_cons, List.length_map, Int.natCast_add,
        r.lengths h] at ih ⊢
      rw [ih]
  have hempty : ∀ h, t.entries h ≠ none ↔ chains h ≠ [] := by
    intro h
    rw [(r.chain h).head?]
    simp
  have htake : ∀ i ≤ t.tblSize, (slotBuckets t slot chains (List.range' 0 t.tblSize)).take i
      = slotBuckets t slot chains (List.range i) := by
    intro i hi
    rw [slotBuckets, slotBuckets, ← List.map_take, ← List.range_eq_range', List.take_range,
      Nat.min_eq_left hi]
  rw [beginBelow_iff, Roomy]
  constructor
  · intro hb h hh hne
    have hlt := hb h (by simpa [slotBuckets] using hh)
      (by simpa [slotBuckets] using (hempty h).mp hne)
    rw [htake h (Nat.le_of_lt hh)] at hlt
    rw [← hsum]
    omega
  · intro hroomy i hi hne
    have hi' : i < t.tblSize := by simpa [slotBuckets] using hi
    have hlt := hroomy i hi' ((hempty i).mpr (by simpa [slotBuckets] using hne))
    rw [htake i (Nat.le_of_lt hi')]
    rw [← hsum] at hlt
    omega

/-! ## Bounded enumeration -/

/-- What the slots written should be, for a function that lists keys of a
type. `asKey` is the key that a slot means. -/
structure Lists (t : Hashtbl α) (keys : List HtblKey) (type : HtblKeyType) (asKey : β → HtblKey)
    (nkeys : Nat) (slots : List β) : Prop where
  room : slots.length ≤ nkeys
  count : (slots.length : Int) = min (nkeys : Int) (htblCount t)
  distinct : (∀ k ∈ keys, k.type = type) → (slots.map asKey).Nodup
  present : (∀ k ∈ keys, k.type = type) → ∀ s ∈ slots, asKey s ∈ keys
  complete : (∀ k ∈ keys, k.type = type) → htblCount t ≤ nkeys → ∀ k ∈ keys, ∃ s ∈ slots, asKey s = k

theorem Represents.lists_iff (r : Represents t chains fs m) (hsize : 0 < t.tblSize)
    {type : HtblKeyType} {asKey : β → HtblKey}
    (hslot : ∀ entry : HtblEntry α, entry.type = entry.key.type → entry.key.type = type →
      asKey (slot entry) = entry.key) (nkeys : Nat) :
    Lists t m.keys type asKey nkeys
        (gather nkeys (slotBuckets t slot chains (List.range' 0 t.tblSize)) [])
      ↔ Roomy t nkeys := by
  rw [← r.roomy_iff slot]
  constructor
  · intro h
    exact (length_gather_le_iff (Nat.zero_le nkeys)).mp h.room
  · intro h
    have hlen := r.length_slots hsize slot
    have hperm := r.keys_perm hsize
    -- on a table of the one type the slots mean the keys, in the order of the buckets
    have hkeys : (∀ k ∈ m.keys, k.type = type) →
        ((slotBuckets t slot chains (List.range' 0 t.tblSize)).flatten.map asKey)
          = ((List.range' 0 t.tblSize).flatMap chains).map fun a => (t.nodes a).key := by
      intro htype
      rw [slotBuckets_flatten, List.map_map]
      apply List.map_congr_left
      intro a ha
      exact hslot _ ((r.entries t.tblSize).types a ha)
        (htype _ (hperm.mem_iff.mp (List.mem_map_of_mem ha)))
    rw [gather_of_beginBelow h]
    simp only [List.nil_append, List.length_nil, Nat.sub_zero]
    constructor
    case room => exact List.length_take_le _ _
    case count =>
      rw [List.length_take]
      omega
    case distinct =>
      intro htype
      rw [List.map_take, hkeys htype]
      exact ((r.entries t.tblSize).nodup.map_on (r.entries t.tblSize).once).sublist
        (List.take_sublist _ _)
    case present =>
      intro htype s hs
      rw [← hperm.mem_iff, ← hkeys htype]
      exact List.mem_map_of_mem (List.mem_of_mem_take hs)
    case complete =>
      intro htype hroom k hk
      rw [List.take_of_length_le (by omega)]
      rw [← hperm.mem_iff, ← hkeys htype] at hk
      exact List.mem_map.mp hk

/-- **Bounded enumeration.** On every table that calls lead to, each of the
two functions keeps to the array exactly if the table leaves room. -/
theorem htbl_enum_bounded_iff (garbage : Nat → HtblEntry α) {init : Nat} (hinit : 1 ≤ init)
    (calls : List (HtblCall α)) (nkeys : Nat) :
    ∃ t, run htblCall (htblInit garbage init 0) calls = some t
      ∧ ((∃ slots, htblEnumIntKeys t nkeys = some slots
            ∧ Lists t (calls.foldl mapCall ∅).keys .int .int nkeys slots) ↔ Roomy t nkeys)
      ∧ ((∃ slots, htblEnumStrKeys t nkeys = some slots
            ∧ Lists t (calls.foldl mapCall ∅).keys .str id nkeys slots) ↔ Roomy t nkeys) := by
  obtain ⟨t, hrun, ⟨chains, fs, r⟩, hsize, -⟩ := represents_run_htblCall garbage hinit calls
  refine ⟨t, hrun, ?_, ?_⟩
  · rw [htblEnumIntKeys_eq r, ← r.lists_iff hsize (fun _ => intKey_eq) nkeys]
    simp
  · have hslot : ∀ entry : HtblEntry α, entry.type = entry.key.type → entry.key.type = .str →
        id entry.key = entry.key := fun _ _ _ => rfl
    rw [htblEnumStrKeys_eq r, ← r.lists_iff hsize hslot nkeys]
    simp

/-- The string "b", which is 98. -/
def strB : CString := ⟨[98], by decide⟩

/-- Two `int` keys in two buckets, and two string keys. -/
def spread : List (HtblCall Nat) := [.op (.put (.int 0) 10), .op (.put (.int 1) 11)]

def spreadStr : List (HtblCall Nat) := [.op (.put (.str strA) 20), .op (.put (.str strB) 21)]

theorem htbl_enum_bounded_iff_spread :
    1 ≤ 2 ∧ ∃ t, run htblCall (htblInit blank 2 0) spread = some t
      ∧ ((∃ slots, htblEnumIntKeys t (2 : Nat) = some slots
            ∧ Lists t (spread.foldl mapCall ∅).keys .int .int 2 slots) ↔ Roomy t 2)
      ∧ ((∃ slots, htblEnumStrKeys t (2 : Nat) = some slots
            ∧ Lists t (spread.foldl mapCall ∅).keys .str id 2 slots) ↔ Roomy t 2) :=
  ⟨by decide, htbl_enum_bounded_iff blank (by decide) spread 2⟩

/-- An array of one slot, or of none, gets two keys. -/
theorem htbl_enum_overruns :
    ((run htblCall (htblInit blank 2 0) spread).bind fun t => htblEnumIntKeys t 1) = some [0, 1]
      ∧ ((run htblCall (htblInit blank 2 0) spread).bind fun t => htblEnumIntKeys t 0) = some [0, 1]
      ∧ ((run htblCall (htblInit blank 2 0) spreadStr).bind fun t => htblEnumStrKeys t 1)
        = some [.str strB, .str strA] := by
  decide +kernel

end Rms.Util.Hashtable
