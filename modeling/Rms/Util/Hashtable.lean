/-
Rms.Util.Hashtable — the hash table of `lib/util/hashtable.c`, entry by
entry.

A table is an array of bucket chains. Entries are heap nodes with a
`next` link, as the items of `Rms.Util.Mqueue` are, and come from a pool
(`entryFront` … `entryBack`, `nbuf`) when the table was created with
`initbuf ≠ 0`. Integer and string keys share the chains; the field `type`
tells them apart.

`int` and `char *` versions of a function differ in the hash and the
comparison only, so each pair is one definition over `HtblKey` and its
two instances. A loop over a chain that comes back to itself never ends:
the operations are `none` then.
-/
import Mathlib.Data.List.AList
import Mathlib.Logic.Function.Basic

namespace Rms.Util.Hashtable

/-- A string: its characters before the NUL. `char` is signed. -/
structure CString where
  chars : List Int8
  noNul : 0 ∉ chars
  deriving DecidableEq

/-- `HTBL_KEY_INT` and `HTBL_KEY_STR`. -/
inductive HtblKeyType where
  | int
  | str
  deriving DecidableEq

/-- What the field `key` of an entry stands for. -/
inductive HtblKey where
  | int (key : Int32)
  | str (key : CString)
  deriving DecidableEq

def HtblKey.type : HtblKey → HtblKeyType
  | .int _ => .int
  | .str _ => .str

structure HtblEntry (α : Type*) where
  type : HtblKeyType
  hash : Nat
  key : HtblKey
  data : α
  next : Option Nat

structure Hashtbl (α : Type*) where
  tblSize : Nat
  nEntries : Int
  entries : Nat → Option Nat
  entriesChainLengths : Nat → Int
  nbuf : Int
  initbuf : Int
  entryFront : Option Nat
  entryBack : Option Nat
  nodes : Nat → HtblEntry α
  brk : Nat

variable {α : Type*}

namespace Hashtbl

def setNode (t : Hashtbl α) (a : Nat) (entry : HtblEntry α) : Hashtbl α :=
  { t with nodes := Function.update t.nodes a entry }

def setNext (t : Hashtbl α) (a : Nat) (next : Option Nat) : Hashtbl α :=
  t.setNode a { t.nodes a with next := next }

def setBucket (t : Hashtbl α) (h : Nat) (first : Option Nat) : Hashtbl α :=
  { t with entries := Function.update t.entries h first }

/-- `n_entries` and the length of a chain move together. -/
def addCount (t : Hashtbl α) (h : Nat) (n : Int) : Hashtbl α :=
  { t with nEntries := t.nEntries + n
           entriesChainLengths :=
             Function.update t.entriesChainLengths h (t.entriesChainLengths h + n) }

/-- `malloc(sizeof(htbl_entry))`: the entry is whatever the memory held. -/
def malloc (t : Hashtbl α) : Hashtbl α × Nat :=
  ({ t with brk := t.brk + 1 }, t.brk)

end Hashtbl

/-! ## Hashes -/

def hashString (str : CString) (m : Nat) : Nat :=
  (str.chars.foldl (fun i c => 131 * i + c.toInt32.toUInt32) (0 : UInt32)).toNat % m

def hashInt (key : Int32) (m : Nat) : Nat := key.toUInt32.toNat % m

def HtblKey.hash : HtblKey → Nat → Nat
  | .int key => hashInt key
  | .str key => hashString key

/-! ## The entry pool -/

def allocEntry (t : Hashtbl α) : Hashtbl α × Nat :=
  match decide (t.initbuf ≠ 0), t.entryFront with
  | true, some entry =>
      let front := (t.nodes entry).next
      ({ t with
          entryFront := front
          nbuf := t.nbuf - 1
          entryBack := if front = none then none else t.entryBack }, entry)
  | _, _ => t.malloc

/-- `release_entry`. The pool's back pointer stays where it is when the
pool is not empty. -/
def releaseEntry (t : Hashtbl α) (entry : Nat) : Hashtbl α :=
  let t := t.setNext entry none
  if t.initbuf ≠ 0 ∧ t.nbuf < 3 * t.initbuf then
    match t.entryBack with
    | some back => { t.setNext back (some entry) with nbuf := t.nbuf + 1 }
    | none => { t with entryFront := some entry, entryBack := some entry, nbuf := t.nbuf + 1 }
  else t

/-- The pool loop of `htbl_init`: `n` more entries behind `entryBack`. -/
def htblInitPool : Nat → Nat → Hashtbl α → Hashtbl α
  | 0, _, t => t
  | n + 1, back, t =>
      let (t, entry) := t.malloc
      let t := (t.setNext back (some entry)).setNext entry none
      htblInitPool n entry { t with entryBack := some entry, nbuf := t.nbuf + 1 }

/-- `htbl_init`, in memory whose entries hold `garbage`. -/
def htblInit (garbage : Nat → HtblEntry α) (init : Nat) (initbuf : Int) : Hashtbl α :=
  let t : Hashtbl α :=
    { tblSize := init, nEntries := 0, entries := fun _ => none
      entriesChainLengths := fun _ => 0, nbuf := 0, initbuf := initbuf
      entryFront := none, entryBack := none, nodes := garbage, brk := 0 }
  if t.initbuf ≠ 0 then
    let (t, entry) := t.malloc
    let t := t.setNext entry none
    htblInitPool (initbuf - 1).toNat entry
      { t with entryFront := some entry, entryBack := some entry, nbuf := 1 }
  else t

/-! ## Finding an entry -/

/-- An entry is of the key's type and holds the key. -/
def HtblEntry.holds (entry : HtblEntry α) (key : HtblKey) : Bool :=
  entry.type = key.type ∧ entry.key = key

/-- The loop over a chain from `entry` on, with the entry before it. -/
def walk (t : Hashtbl α) (key : HtblKey) :
    Nat → (entry prev : Option Nat) → Option (Option Nat × Option Nat)
  | 0, _, _ => none
  | _ + 1, none, prev => some (none, prev)
  | n + 1, some a, prev =>
      if (t.nodes a).holds key then some (some a, prev)
      else walk t key n (t.nodes a).next (some a)

/-- The walk along the bucket of a key. -/
def walkBucket (t : Hashtbl α) (key : HtblKey) : Option (Option Nat × Option Nat) :=
  walk t key (t.brk + 1) (t.entries (key.hash t.tblSize)) none

def locate (t : Hashtbl α) (key : HtblKey) : Option (Option Nat) :=
  (walkBucket t key).map Prod.fst

def locateEntry (t : Hashtbl α) (key : Int32) : Option (Option Nat) := locate t (.int key)

def locateStrEntry (t : Hashtbl α) (key : CString) : Option (Option Nat) := locate t (.str key)

/-! ## The operations -/

/-- What a call returns, and what it stores through its out-parameter. -/
structure HtblAnswer (α : Type*) where
  ret : Int
  data : Option α
  deriving DecidableEq

def put (t : Hashtbl α) (key : HtblKey) (data : α) : Option (Hashtbl α × HtblAnswer α) :=
  match locate t key with
  | none => none
  | some (some _) => some (t, ⟨-1, none⟩)
  | some none =>
      let h := key.hash t.tblSize
      let (t, entry) := allocEntry t
      let t := t.setNode entry
        { type := key.type, hash := h, key := key, data := data, next := t.entries h }
      some ((t.setBucket h (some entry)).addCount h 1, ⟨0, none⟩)

def htblPut (t : Hashtbl α) (key : Int32) (data : α) : Option (Hashtbl α × HtblAnswer α) :=
  put t (.int key) data

def htblStrPut (t : Hashtbl α) (key : CString) (data : α) : Option (Hashtbl α × HtblAnswer α) :=
  put t (.str key) data

def get (t : Hashtbl α) (key : HtblKey) : Option (Hashtbl α × HtblAnswer α) :=
  match locate t key with
  | none => none
  | some (some entry) => some (t, ⟨1, some (t.nodes entry).data⟩)
  | some none => some (t, ⟨0, none⟩)

def htblGet (t : Hashtbl α) (key : Int32) : Option (Hashtbl α × HtblAnswer α) := get t (.int key)

def htblStrGet (t : Hashtbl α) (key : CString) : Option (Hashtbl α × HtblAnswer α) :=
  get t (.str key)

/-- Take an entry out of its chain. -/
def unlink (t : Hashtbl α) (h entry : Nat) (prev : Option Nat) : Hashtbl α :=
  match prev with
  | some p => t.setNext p (t.nodes entry).next
  | none => t.setBucket h (t.nodes entry).next

def remove (t : Hashtbl α) (key : HtblKey) : Option (Hashtbl α × HtblAnswer α) :=
  match walkBucket t key with
  | none => none
  | some (none, _) => some (t, ⟨0, none⟩)
  | some (some entry, prev) =>
      let h := key.hash t.tblSize
      let t := unlink t h entry prev
      let data := (t.nodes entry).data
      some ((releaseEntry t entry).addCount h (-1), ⟨1, some data⟩)

def htblRemove (t : Hashtbl α) (key : Int32) : Option (Hashtbl α × HtblAnswer α) :=
  remove t (.int key)

def htblStrRemove (t : Hashtbl α) (key : CString) : Option (Hashtbl α × HtblAnswer α) :=
  remove t (.str key)

/-- A present key is given the new data; the type is written again. -/
def replace (t : Hashtbl α) (key : HtblKey) (data : α) : Option (Hashtbl α × HtblAnswer α) :=
  match put t key data with
  | none => none
  | some (t, put) =>
      if put.ret < 0 then
        match locate t key with
        | some (some entry) =>
            some (t.setNode entry { t.nodes entry with data := data, type := key.type },
              ⟨1, some (t.nodes entry).data⟩)
        | _ => none
      else some (t, ⟨0, none⟩)

def htblReplace (t : Hashtbl α) (key : Int32) (data : α) : Option (Hashtbl α × HtblAnswer α) :=
  replace t (.int key) data

def htblStrReplace (t : Hashtbl α) (key : CString) (data : α) :
    Option (Hashtbl α × HtblAnswer α) :=
  replace t (.str key) data

/-! ## The size of a table, and its end -/

def htblCount (t : Hashtbl α) : Int := t.nEntries

def htblSize (t : Hashtbl α) : Nat := t.tblSize

/-- The loop of `htbl_empty_slots` from `itr` on. -/
def emptySlots (t : Hashtbl α) : Nat → (itr : Nat) → (n : Int) → Int
  | 0, _, n => n
  | k + 1, itr, n => emptySlots t k (itr + 1) (if t.entries itr = none then n + 1 else n)

def htblEmptySlots (t : Hashtbl α) : Int := emptySlots t t.tblSize 0 0

/-- The loop of `htbl_longest_chain` from `itr` on. -/
def longestChain (t : Hashtbl α) : Nat → (itr : Nat) → (longest : Int) → (ix : Option Nat) →
    Int × Option Nat
  | 0, _, longest, ix => (longest, ix)
  | k + 1, itr, longest, ix =>
      if longest < t.entriesChainLengths itr then
        longestChain t k (itr + 1) (t.entriesChainLengths itr) (some itr)
      else longestChain t k (itr + 1) longest ix

/-- `htbl_longest_chain`, with what it stores through `index`. The variable
has no value until a chain is found. -/
def htblLongestChain (t : Hashtbl α) : Int × Option Nat := longestChain t t.tblSize 0 0 none

/-- The loop of `htbl_free` along a chain, with the entries it frees. -/
def freeChain (t : Hashtbl α) : Nat → (entry : Option Nat) → Option (List Nat)
  | 0, _ => none
  | _ + 1, none => some []
  | n + 1, some prev => (freeChain t n (t.nodes prev).next).map (prev :: ·)

/-- The loop over the buckets from `itr` on. -/
def freeBuckets (t : Hashtbl α) : Nat → (itr : Nat) → Option (List Nat)
  | 0, _ => some []
  | k + 1, itr => do
      let chain ← freeChain t (t.brk + 1) (t.entries itr)
      let rest ← freeBuckets t k (itr + 1)
      return chain ++ rest

/-- `htbl_free`: the entries it frees. It frees no key and looks at no pool. -/
def htblFree (t : Hashtbl α) : Option (List Nat) := freeBuckets t t.tblSize 0

/-! ## Listing the keys -/

section Enum

variable {β : Type*} (t : Hashtbl α) (slot : HtblEntry α → β) (nkeys : Int)

/-- The loop of `htbl_enum_int_keys` and `htbl_enum_str_keys` along a chain.
`keys` are the slots written so far, so `count` is their number, and `slot`
is what an entry is listed as. The limit is looked at behind the write. -/
def enumChain : Nat → (entry : Option Nat) → (keys : List β) → Option (List β)
  | 0, _, _ => none
  | _ + 1, none, keys => some keys
  | n + 1, some a, keys =>
      let keys := keys ++ [slot (t.nodes a)]
      if nkeys ≤ keys.length then some keys
      else enumChain n (t.nodes a).next keys

/-- The loop over the buckets from `itr` on. The `break` of the inner loop
does not end this one. -/
def enumBuckets : Nat → (itr : Nat) → (keys : List β) → Option (List β)
  | 0, _, keys => some keys
  | n + 1, itr, keys =>
      match enumChain t slot nkeys (t.brk + 1) (t.entries itr) keys with
      | none => none
      | some keys => enumBuckets n (itr + 1) keys

end Enum

/-- What `htbl_enum_int_keys` lists an entry as. -/
def HtblEntry.intKey (entry : HtblEntry α) : Int32 :=
  match entry.type, entry.key with
  | .int, .int key => key
  | _, _ => 0

/-- `htbl_enum_int_keys`: the slots it writes, as many as it returns. -/
def htblEnumIntKeys (t : Hashtbl α) (nkeys : Int) : Option (List Int32) :=
  enumBuckets t HtblEntry.intKey nkeys t.tblSize 0 []

/-- `htbl_enum_str_keys`. Both branches of the source store the field `key`. -/
def htblEnumStrKeys (t : Hashtbl α) (nkeys : Int) : Option (List HtblKey) :=
  enumBuckets t HtblEntry.key nkeys t.tblSize 0 []

/-! ## Changing the number of buckets -/

/-- The put of `htbl_rehash` for an entry of an old chain. -/
def reinsert (t : Hashtbl α) (entry : HtblEntry α) : Option (Hashtbl α × HtblAnswer α) :=
  match entry.type, entry.key with
  | .int, .int key => htblPut t key entry.data
  | .str, .str key => htblStrPut t key entry.data
  | _, _ => none

/-- The loop of `htbl_rehash` along an old chain: each entry is put again,
and then released. -/
def rehashChain : Nat → (entry : Option Nat) → Hashtbl α → Option (Hashtbl α)
  | 0, _, _ => none
  | _ + 1, none, t => some t
  | n + 1, some prev, t =>
      match reinsert t (t.nodes prev) with
      | none => none
      | some (t, _) => rehashChain n (t.nodes prev).next (releaseEntry t prev)

/-- The loop over the old buckets from `itr` on. -/
def rehashBuckets (oldEntries : Nat → Option Nat) : Nat → (itr : Nat) → Hashtbl α → Option (Hashtbl α)
  | 0, _, t => some t
  | n + 1, itr, t =>
      match rehashChain (t.brk + 1) (oldEntries itr) t with
      | none => none
      | some t => rehashBuckets oldEntries n (itr + 1) t

/-- The table with `newsize` buckets that are still empty. -/
def emptied (t : Hashtbl α) (newsize : Nat) : Hashtbl α :=
  { t with tblSize := newsize, entries := fun _ => none
           entriesChainLengths := fun _ => 0, nEntries := 0 }

/-- `htbl_rehash`, when its two arrays have the `newsize` slots it asks
for. -/
def htblRehash (t : Hashtbl α) (newsize : Nat) : Option (Hashtbl α) :=
  if newsize = t.tblSize then some t
  else rehashBuckets t.entries t.tblSize 0 (emptied t newsize)

/-- `itr = newsize * sizeof(...)`: the product is kept in an `int`. -/
def byteCount (newsize size : Nat) : Int :=
  ((newsize * size : Nat) + 2147483648 : Int) % 4294967296 - 2147483648

/-- The block that `malloc(itr)` returns has `newsize` slots. A negative
`itr` asks for more than half of all addresses, and gets nothing. -/
def HasSlots (newsize size : Nat) : Prop :=
  ((newsize * size : Nat) : Int) ≤ byteCount newsize size

instance (newsize size : Nat) : Decidable (HasSlots newsize size) :=
  inferInstanceAs (Decidable (_ ≤ _))

/-- `htbl_rehash` with the sizes of its two arrays, for pointers of `ptr`
bytes and an `int` of four. `none` also when an array has fewer slots than
the table has buckets: what is behind it is not the table's. -/
def htblRehashIn (ptr : Nat) (t : Hashtbl α) (newsize : Nat) : Option (Hashtbl α) :=
  if newsize = t.tblSize then some t
  else if HasSlots newsize ptr ∧ HasSlots newsize 4 then
    rehashBuckets t.entries t.tblSize 0 (emptied t newsize)
  else none

/-! ## Taking the next entry -/

/-- The body of the loop of `htbl_remove_next` for a bucket that is not
empty. The link of the entry is read behind its release. -/
def takeFirst (t : Hashtbl α) (itr entry : Nat) : Hashtbl α × HtblAnswer α :=
  let data := (t.nodes entry).data
  let t := releaseEntry t entry
  let t := t.setBucket itr (t.nodes entry).next
  (t.addCount itr (-1), ⟨0, some data⟩)

/-- The loop of `htbl_remove_next`, `n` more rounds from `itr` on. It is
bounded by `n_entries`, so it may come to the end of the array. -/
def removeNextFrom (t : Hashtbl α) : Nat → (itr : Nat) → Option (Hashtbl α × HtblAnswer α)
  | 0, _ => some (t, ⟨0, none⟩)
  | n + 1, itr =>
      if itr < t.tblSize then
        match t.entries itr with
        | some entry => some (takeFirst t itr entry)
        | none => removeNextFrom t n (itr + 1)
      else none

/-- `htbl_remove_next`. `none` when it reads behind the array. -/
def htblRemoveNext (t : Hashtbl α) : Option (Hashtbl α × HtblAnswer α) :=
  removeNextFrom t t.nEntries.toNat 0

/-! ## Calls -/

inductive HtblOp (α : Type*) where
  | put (key : HtblKey) (data : α)
  | get (key : HtblKey)
  | remove (key : HtblKey)
  | replace (key : HtblKey) (data : α)

/-- One call. `none` when a loop over a chain does not end. -/
def htblStep (t : Hashtbl α) : HtblOp α → Option (Hashtbl α × HtblAnswer α)
  | .put (.int key) data => htblPut t key data
  | .put (.str key) data => htblStrPut t key data
  | .get (.int key) => htblGet t key
  | .get (.str key) => htblStrGet t key
  | .remove (.int key) => htblRemove t key
  | .remove (.str key) => htblStrRemove t key
  | .replace (.int key) data => htblReplace t key data
  | .replace (.str key) data => htblStrReplace t key data

/-- What the calls mean: a finite map from tagged keys. -/
def mapStep (m : AList fun _ : HtblKey => α) :
    HtblOp α → (AList fun _ : HtblKey => α) × HtblAnswer α
  | .put key data =>
      match m.lookup key with
      | some _ => (m, ⟨-1, none⟩)
      | none => (m.insert key data, ⟨0, none⟩)
  | .get key =>
      match m.lookup key with
      | some data => (m, ⟨1, some data⟩)
      | none => (m, ⟨0, none⟩)
  | .remove key =>
      match m.lookup key with
      | some data => (m.erase key, ⟨1, some data⟩)
      | none => (m, ⟨0, none⟩)
  | .replace key data =>
      match m.lookup key with
      | some old => (m.insert key data, ⟨1, some old⟩)
      | none => (m.insert key data, ⟨0, none⟩)

/-- The calls that change a table, a change of its size included. -/
inductive HtblCall (α : Type*) where
  | op (op : HtblOp α)
  | rehash (newsize : Nat) (pos : 1 ≤ newsize)

def htblCall (t : Hashtbl α) : HtblCall α → Option (Hashtbl α)
  | .op op => (htblStep t op).map Prod.fst
  | .rehash newsize _ => htblRehash t newsize

/-- The calls, with the sizes of the arrays. -/
def htblCallIn (ptr : Nat) (t : Hashtbl α) : HtblCall α → Option (Hashtbl α)
  | .op op => (htblStep t op).map Prod.fst
  | .rehash newsize _ => htblRehashIn ptr t newsize

/-- Another size is the same map. -/
def mapCall (m : AList fun _ : HtblKey => α) : HtblCall α → AList fun _ : HtblKey => α
  | .op op => (mapStep m op).1
  | .rehash _ _ => m

/-- The calls that change a table, `htbl_remove_next` included. -/
inductive HtblAction (α : Type*) where
  | call (call : HtblCall α)
  | removeNext

def htblAct (t : Hashtbl α) : HtblAction α → Option (Hashtbl α)
  | .call call => htblCall t call
  | .removeNext => (htblRemoveNext t).map Prod.fst

end Rms.Util.Hashtable
