/-
Rms.Util.Mqueue — the queue of `lib/util/mqueue.c`, node by node.

Items are heap nodes with a `next` link; `items` is their memory and
`brk` the address the next `malloc` returns. A pointer is an
`Option Nat` with `none` for NULL, and a content is itself a pointer,
so `content` is an `Option` too. Following a NULL link ends the program:
the operations that can do so return `none` for it.

`free` leaves the node's memory as it was and no address is handed out
twice by `malloc`, so a dangling link reads what the node held when it
was freed. This is the kindest memory the C code can run on; a defect
that shows here shows on every other one.

The queue also keeps a pool of unused nodes (`bufFront` … `bufBack`,
`nbuf`) when it is created with `init ≠ 0`, and a cursor (`index`,
`indexed`) that `mqueuePeekAtIndex` leaves on the node it last visited.
-/
import Mathlib.Data.List.Basic
import Mathlib.Logic.Function.Basic

namespace Rms.Util

structure MqueueItem (α : Type*) where
  content : Option α
  next : Option Nat

structure Mqueue (α : Type*) where
  count : Int
  init : Int
  nbuf : Int
  index : Int
  indexed : Option Nat
  bufFront : Option Nat
  bufBack : Option Nat
  first : Option Nat
  last : Option Nat
  items : Nat → MqueueItem α
  brk : Nat

variable {α : Type*}

namespace Mqueue

def setNext (q : Mqueue α) (a : Nat) (next : Option Nat) : Mqueue α :=
  { q with items := Function.update q.items a { q.items a with next := next } }

def setContent (q : Mqueue α) (a : Nat) (content : Option α) : Mqueue α :=
  { q with items := Function.update q.items a { q.items a with content := content } }

/-- `malloc(sizeof(mqueue_item))`: the node is whatever the memory held. -/
def malloc (q : Mqueue α) : Mqueue α × Nat :=
  ({ q with brk := q.brk + 1 }, q.brk)

end Mqueue

/-- The pool loop of `mqueue_init`: `n` more nodes behind `bufBack`. -/
def mqueueInitPool : Nat → Nat → Mqueue α → Mqueue α
  | 0, _, q => q
  | n + 1, back, q =>
      let (q, item) := q.malloc
      let q := (q.setNext back (some item)).setNext item none
      mqueueInitPool n item { q with bufBack := some item, nbuf := q.nbuf + 1 }

/-- `mqueue_init`, in memory whose nodes hold `garbage`. -/
def mqueueInit (garbage : Nat → MqueueItem α) (nitems : Int) : Mqueue α :=
  let q : Mqueue α :=
    { count := 0, init := nitems, nbuf := 0, index := 0, indexed := none,
      bufFront := none, bufBack := none, first := none, last := none,
      items := garbage, brk := 0 }
  if q.init ≠ 0 then
    let (q, item) := q.malloc
    let q := q.setNext item none
    mqueueInitPool (nitems - 1).toNat item
      { q with bufFront := some item, bufBack := some item, nbuf := 1 }
  else q

def mqueueAllocItem (q : Mqueue α) : Mqueue α × Nat :=
  match decide (q.init ≠ 0), q.bufFront with
  | true, some item =>
      let front := (q.items item).next
      ({ q with
          bufFront := front
          nbuf := q.nbuf - 1
          bufBack := if front = none then none else q.bufBack }, item)
  | _, _ => q.malloc

/-- `mqueue_free_item`. The pool's back pointer stays where it is when
the pool is not empty. -/
def mqueueFreeItem (q : Mqueue α) (item : Nat) : Mqueue α :=
  let q := q.setNext item none
  if q.init ≠ 0 ∧ q.nbuf < 3 * q.init then
    match q.bufBack with
    | some back => { q.setNext back (some item) with nbuf := q.nbuf + 1 }
    | none => { q with bufFront := some item, bufBack := some item, nbuf := q.nbuf + 1 }
  else q

/-- The loop of `mqueue_free` from `item` on, with the nodes it frees. A walk
over more nodes than there are never ends. -/
def mqueueFreeLoop (q : Mqueue α) : Nat → (item : Option Nat) → Option (List Nat)
  | _, none => some []
  | 0, some _ => none
  | n + 1, some item => (mqueueFreeLoop q n (q.items item).next).map (item :: ·)

/-- `mqueue_free`: the nodes it frees. It does not look at the queue. -/
def mqueueFree (q : Mqueue α) : Option (List Nat) :=
  if q.init ≠ 0 then mqueueFreeLoop q q.brk q.bufFront else some []

def mqueueResizeBuffer (q : Mqueue α) (num : Int) : Mqueue α := { q with init := num }

/-- The loop of `mqueue_downsize_buffer`, with the nodes it frees. -/
def mqueueDownsize : (clear : Nat) → Mqueue α → Mqueue α × List Nat
  | 0, q => (q, [])
  | n + 1, q =>
      let (q, item) := mqueueAllocItem q
      let (q, freed) := mqueueDownsize n q
      (q, item :: freed)

/-- `mqueue_downsize_buffer`. A negative `clear` is counted down for ever. -/
def mqueueDownsizeBuffer (q : Mqueue α) (percent : Int) : Option (Mqueue α × List Nat) :=
  let clear := (q.nbuf * percent).tdiv 100
  if clear < 0 then none else some (mqueueDownsize clear.toNat q)

/-- `mqueue_add`: to the front of the queue. -/
def mqueueAdd (q : Mqueue α) (content : α) : Mqueue α :=
  let (q, item) := mqueueAllocItem q
  let q := (q.setContent item (some content)).setNext item none
  match q.last with
  | none =>
      { q with last := some item, first := some item, index := 0, indexed := some item,
               count := q.count + 1 }
  | some _ =>
      { q.setNext item q.first with first := some item, index := q.index + 1,
                                    count := q.count + 1 }

/-- `mqueue_append`: to the end of the queue. -/
def mqueueAppend (q : Mqueue α) (content : α) : Mqueue α :=
  let (q, item) := mqueueAllocItem q
  let q := (q.setContent item (some content)).setNext item none
  match q.last with
  | none =>
      { q with last := some item, first := some item, index := 0, indexed := some item,
               count := q.count + 1 }
  | some last => { q.setNext last (some item) with last := some item, count := q.count + 1 }

/-- `mqueue_remove`: from the front of the queue, NULL when it is empty. -/
def mqueueRemove (q : Mqueue α) : Mqueue α × Option α :=
  match q.first with
  | none => (q, none)
  | some item =>
      let retval := (q.items item).content
      let first := (q.items item).next
      let q := { q with first := first, last := if first = none then none else q.last,
                        index := 0, indexed := first }
      let q := mqueueFreeItem q item
      ({ q with count := q.count - 1 }, retval)

def mqueueSize (q : Mqueue α) : Int := q.count

/-- The cursor walk of `mqueue_peek_at_index`: `n` links onwards. -/
def mqueueWalk : Nat → Mqueue α → Option (Mqueue α)
  | 0, q => some q
  | n + 1, q =>
      match q.indexed with
      | none => none
      | some a => mqueueWalk n { q with indexed := (q.items a).next, index := q.index + 1 }

def mqueuePeekAtIndex (q : Mqueue α) (index : Int) : Option (Mqueue α × Option α) :=
  if index < q.count then
    let q := if q.index > index then { q with indexed := q.first, index := 0 } else q
    match mqueueWalk (index - q.index).toNat q with
    | none => none
    | some q =>
        match q.indexed with
        | none => none
        | some a => some (q, (q.items a).content)
  else some (q, none)

/-- The walk of `mqueue_remove_at_index`: from node `indexed`, `n` links
onwards, remembering the node before the last one reached. -/
def mqueueWalkPrev (q : Mqueue α) :
    Nat → (indexed prev : Option Nat) → Option (Option Nat × Option Nat)
  | 0, indexed, prev => some (indexed, prev)
  | n + 1, indexed, _ =>
      match indexed with
      | none => none
      | some a => mqueueWalkPrev q n (q.items a).next (some a)

/-- `mqueue_remove_at_index`. The cursor is reset to the first node
before the unlinking, which then works on the first node and not on the
one that the walk reached. -/
def mqueueRemoveAtIndex (q : Mqueue α) (index : Int) : Option (Mqueue α × Option α) :=
  if index < q.count then
    match mqueueWalkPrev q index.toNat q.first none with
    | none => none
    | some (_, prev) =>
        let q := { q with indexed := q.first, index := 0 }
        match q.indexed with
        | none => none
        | some item =>
            let next := (q.items item).next
            let q := match prev with
              | some p => q.setNext p next
              | none => { q with first := next }
            let retval := (q.items item).content
            let q := mqueueFreeItem q item
            some ({ q with count := q.count - 1 }, retval)
  else some (q, none)

/-- The search loop of `mqueue_remove_item` at `item`. The loop ends at
the last node without looking at its content. A walk longer than there
are nodes never ends. -/
def mqueueSearch [DecidableEq α] (q : Mqueue α) (content : α) :
    Nat → (item : Option Nat) → (index : Int) → Option (Option Int)
  | 0, _, _ => none
  | n + 1, item, index =>
      if item = q.last then some none
      else match item with
        | none => none
        | some a =>
            if (q.items a).content ≠ some content then
              mqueueSearch q content n (q.items a).next (index + 1)
            else some (some index)

/-- `mqueue_remove_item`. The second component is `retval`, which is
never assigned when the search finds nothing. -/
def mqueueRemoveItem [DecidableEq α] (q : Mqueue α) (content : α) :
    Option (Mqueue α × Option (Option α)) :=
  match mqueueSearch q content (q.brk + 1) q.first 0 with
  | none => none
  | some none => some ({ q with index := 0, indexed := q.first }, none)
  | some (some index) =>
      match mqueueRemoveAtIndex q index with
      | none => none
      | some (q, retval) => some ({ q with index := 0, indexed := q.first }, some retval)

/-- The loop `for(itr=0; itr < n; itr++) mqueue_peek_at_index(queue, itr)`
from `itr` on, with the contents it meets. -/
def mqueuePeeks : Nat → (itr : Int) → Mqueue α → Option (Mqueue α × List (Option α))
  | 0, _, q => some (q, [])
  | n + 1, itr, q =>
      match mqueuePeekAtIndex q itr with
      | none => none
      | some (q, c) =>
          match mqueuePeeks n (itr + 1) q with
          | none => none
          | some (q, cs) => some (q, c :: cs)

theorem mqueuePeeks_length {n : Nat} :
    ∀ {itr : Int} {q q' : Mqueue α} {cs : List (Option α)},
      mqueuePeeks n itr q = some (q', cs) → cs.length = n := by
  induction n with
  | zero =>
    intro itr q q' cs h
    cases h
    rfl
  | succ n ih =>
    intro itr q q' cs h
    unfold mqueuePeeks at h
    split at h
    · simp at h
    split at h
    · simp at h
    rename_i hpeeks
    cases h
    exact congrArg (· + 1) (ih hpeeks)

/-- Contents that are all there. -/
theorem mapM_id_eq_some {cs : List (Option α)} {l : List α} (h : cs.mapM id = some l) :
    cs = l.map some := by
  induction cs generalizing l with
  | nil =>
    cases h
    rfl
  | cons c cs ih =>
    rw [List.mapM_cons] at h
    obtain ⟨a, ha, h⟩ := Option.bind_eq_some_iff.mp h
    obtain ⟨l', hl', h⟩ := Option.bind_eq_some_iff.mp h
    cases h
    rw [List.map_cons, ← ih hl']
    exact congrArg (· :: cs) ha

end Rms.Util
