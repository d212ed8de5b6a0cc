/-
Rms.Util.MqueueRefinement — the queue of `lib/util/mqueue.c` is a list.

`Represents q as fs xs` ties the nodes of a queue to the list it stands
for: the chain from `first` is `as` and holds the contents `xs`, the pool
is the chain `fs`, no node is on both, and the cursor is on the node that
its index says. One lemma per operation keeps it, so that by simulation
every sequence of calls answers as the list does.

The pool is where this can fail. `mqueue_free_item` links a freed node
behind `buf_back` and leaves `buf_back` where it is, so once the pool has
been drained past that node, `buf_back` is a node of the queue and the
next removal writes into the middle of it. `ReleaseSafe` is the condition
on a call under which that does not happen; a queue without a pool meets
it always.
-/
import Rms.Lib.Chains
import Rms.Lib.Refinement
import Rms.Util.MqueueTheorems
import Mathlib.Data.List.Perm.Subperm

namespace Rms.Util

open Rms.Chains Rms.Runs

variable {α : Type*}

/-! ## Calls -/

/-- The calls. The index is an `int`; those below 0 are left out. They are
read as 0 where there are elements (`mqueuePeekAtIndex_neg`), and follow
NULL where there are none. -/
inductive MqueueOp (α : Type*) where
  | add (content : α)
  | append (content : α)
  | remove
  | size
  | peek (index : Nat)

inductive MqueueAnswer (α : Type*) where
  | done
  | item (content : Option α)
  | size (count : Int)
  deriving DecidableEq

/-- One call. `none` when the cursor walk follows a NULL link. -/
def mqueueStep (q : Mqueue α) : MqueueOp α → Option (Mqueue α × MqueueAnswer α)
  | .add content => some (mqueueAdd q content, .done)
  | .append content => some (mqueueAppend q content, .done)
  | .remove => some ((mqueueRemove q).1, .item (mqueueRemove q).2)
  | .size => some (q, .size (mqueueSize q))
  | .peek index => (mqueuePeekAtIndex q index).map fun r => (r.1, .item r.2)

/-- What the calls mean: a list with its front at the head. -/
def listStep (xs : List α) : MqueueOp α → List α × MqueueAnswer α
  | .add content => (content :: xs, .done)
  | .append content => (xs ++ [content], .done)
  | .remove => (xs.tail, .item xs.head?)
  | .size => (xs, .size xs.length)
  | .peek index => (xs, .item xs[index]?)

/-- A removal that puts the first node into the pool finds `buf_back` on no
other node of the queue. -/
def ReleaseSafe (q : Mqueue α) : MqueueOp α → Prop
  | .remove => q.init ≠ 0 → q.nbuf < 3 * q.init →
      ∀ i < q.count.toNat, q.bufBack ≠ none → mqueueNode q (i + 1) ≠ q.bufBack
  | _ => True

instance (q : Mqueue α) : ∀ op, Decidable (ReleaseSafe q op)
  | .remove => by unfold ReleaseSafe; infer_instance
  | .add _ => isTrue trivial
  | .append _ => isTrue trivial
  | .size => isTrue trivial
  | .peek _ => isTrue trivial

/-! ## Links and contents -/

def links (q : Mqueue α) (a : Nat) : Option Nat := (q.items a).next

def contentOf (q : Mqueue α) (a : Nat) : Option α := (q.items a).content

@[simp] theorem links_setNext (q : Mqueue α) (a : Nat) (link : Option Nat) :
    links (q.setNext a link) = Function.update (links q) a link := by
  funext b
  by_cases h : b = a
  · subst h
    simp [links, Mqueue.setNext]
  · simp [links, Mqueue.setNext, h]

@[simp] theorem links_setContent (q : Mqueue α) (a : Nat) (content : Option α) :
    links (q.setContent a content) = links q := by
  funext b
  by_cases h : b = a
  · subst h
    simp [links, Mqueue.setContent]
  · simp [links, Mqueue.setContent, h]

@[simp] theorem contentOf_setNext (q : Mqueue α) (a : Nat) (link : Option Nat) :
    contentOf (q.setNext a link) = contentOf q := by
  funext b
  by_cases h : b = a
  · subst h
    simp [contentOf, Mqueue.setNext]
  · simp [contentOf, Mqueue.setNext, h]

@[simp] theorem contentOf_setContent (q : Mqueue α) (a : Nat) (content : Option α) :
    contentOf (q.setContent a content) = Function.update (contentOf q) a content := by
  funext b
  by_cases h : b = a
  · subst h
    simp [contentOf, Mqueue.setContent]
  · simp [contentOf, Mqueue.setContent, h]

/-! ## Representation -/

/-- The queue holds `xs` in the nodes `as`, and its pool is `fs`. -/
structure Represents (q : Mqueue α) (as fs : List Nat) (xs : List α) : Prop where
  chain : Path (links q) q.first as none
  contents : as.map (contentOf q) = xs.map some
  last : q.last = as.getLast?
  count : q.count = as.length
  index : as ≠ [] → 0 ≤ q.index ∧ q.index < as.length
  indexed : as ≠ [] → q.indexed = as[q.index.toNat]?
  pool : Path (links q) q.bufFront fs none
  back : q.bufFront = none → q.bufBack = none
  apart : ∀ a ∈ fs, a ∉ as
  bound : ∀ a, a ∈ as ∨ a ∈ fs → a < q.brk

variable {q : Mqueue α} {as fs : List Nat} {xs : List α} {item : Nat}

theorem Represents.length (r : Represents q as fs xs) : as.length = xs.length := by
  simpa using congrArg List.length r.contents

theorem Represents.node (r : Represents q as fs xs) (i : Nat) : mqueueNode q i = as[i]? := by
  induction i with
  | zero => rw [mqueueNode, r.chain.head?, List.head?_eq_getElem?]
  | succ i ih =>
    rw [mqueueNode, ih]
    cases h : as[i]? with
    | none =>
      rw [List.getElem?_eq_none (by rw [List.getElem?_eq_none_iff] at h; omega)]
      rfl
    | some a => exact r.chain.getElem?_succ h

theorem Represents.content (r : Represents q as fs xs) {i a : Nat} (h : as[i]? = some a) :
    contentOf q a = xs[i]? := by
  have hmap := congrArg (·[i]?) r.contents
  simp only [List.getElem?_map, h, Option.map_some] at hmap
  cases hx : xs[i]? with
  | none =>
    rw [hx] at hmap
    cases hmap
  | some x =>
    rw [hx] at hmap
    exact Option.some.inj hmap

/-- A queue of the same nodes whose cursor was not touched. -/
theorem Represents.mono {q' : Mqueue α} {fs' : List Nat} (r : Represents q as fs xs)
    (hchain : Path (links q') q'.first as none)
    (hcontents : ∀ a ∈ as, contentOf q' a = contentOf q a)
    (hlast : q'.last = q.last) (hcount : q'.count = q.count) (hindex : q'.index = q.index)
    (hindexed : q'.indexed = q.indexed)
    (hpool : Path (links q') q'.bufFront fs' none) (hback : q'.bufFront = none → q'.bufBack = none)
    (hapart : ∀ a ∈ fs', a ∉ as) (hbound : ∀ a, a ∈ as ∨ a ∈ fs' → a < q'.brk) :
    Represents q' as fs' xs where
  chain := hchain
  contents := (List.map_congr_left hcontents).trans r.contents
  last := hlast.trans r.last
  count := hcount.trans r.count
  index := by rw [hindex]; exact r.index
  indexed := by rw [hindex, hindexed]; exact r.indexed
  pool := hpool
  back := hback
  apart := hapart
  bound := hbound

/-! ## Allocating and freeing a node -/

/-- Where a new node comes from: it was the first of the pool `fs`, or
`malloc` returned it. -/
inductive Taken (brk : Nat) (fs : List Nat) : (item : Nat) → (fs' : List Nat) → (brk' : Nat) → Prop
  | pool {item : Nat} {fs' : List Nat} (hfs : fs = item :: fs') : Taken brk fs item fs' brk
  | heap : Taken brk fs brk fs (brk + 1)

/-- A node for a new item: on no chain, whether it comes from the pool or
from the heap. -/
theorem represents_mqueueAllocItem (r : Represents q as fs xs) :
    ∃ fs', Represents (mqueueAllocItem q).1 as fs' xs ∧ (mqueueAllocItem q).2 ∉ as
      ∧ (mqueueAllocItem q).2 ∉ fs' ∧ (mqueueAllocItem q).2 < (mqueueAllocItem q).1.brk
      ∧ Taken q.brk fs (mqueueAllocItem q).2 fs' (mqueueAllocItem q).1.brk := by
  unfold mqueueAllocItem
  split
  · rename_i item _ hfront
    cases fs with
    | nil =>
      have hnull : q.bufFront = none := r.pool
      rw [hfront] at hnull
      cases hnull
    | cons b fs =>
      obtain ⟨hb, hpool⟩ := r.pool
      obtain rfl : item = b := Option.some.inj (hfront.symm.trans hb)
      have hnodup : item ∉ fs := (List.nodup_cons.mp r.pool.nodup).1
      refine ⟨fs, ?_, r.apart item (List.mem_cons_self ..), hnodup,
        r.bound item (Or.inr (List.mem_cons_self ..)), .pool rfl⟩
      refine r.mono r.chain (fun _ _ => rfl) rfl rfl rfl rfl hpool ?_ ?_ ?_
      · intro hnull
        exact if_pos hnull
      · exact fun a ha => r.apart a (List.mem_cons_of_mem item ha)
      · exact fun a ha => r.bound a (ha.imp_right (List.mem_cons_of_mem item))
  · have hfresh : ∀ a, a ∈ as ∨ a ∈ fs → a ≠ q.brk := fun a ha => Nat.ne_of_lt (r.bound a ha)
    refine ⟨fs, ?_, fun h => hfresh _ (Or.inl h) rfl, fun h => hfresh _ (Or.inr h) rfl,
      Nat.lt_succ_self _, .heap⟩
    exact r.mono r.chain (fun _ _ => rfl) rfl rfl rfl rfl r.pool r.back r.apart
      fun a ha => Nat.lt_succ_of_lt (r.bound a ha)

/-- Writing into a node that is on no chain. -/
theorem Represents.fill (r : Represents q as fs xs) (has : item ∉ as) (hfs : item ∉ fs)
    (content : Option α) (link : Option Nat) :
    Represents ((q.setContent item content).setNext item link) as fs xs := by
  refine r.mono ?_ ?_ rfl rfl rfl rfl ?_ r.back r.apart r.bound
  · rw [links_setNext, links_setContent]
    exact r.chain.update has link
  · intro a ha
    rw [contentOf_setNext, contentOf_setContent, Function.update_of_ne]
    rintro rfl
    exact has ha
  · rw [links_setNext, links_setContent]
    exact r.pool.update hfs link

/-- The node that `mqueue_add` and `mqueue_append` put on the queue: it
holds the content, and it is on no chain yet. -/
theorem represents_newItem {q₁ q₂ : Mqueue α} (r : Represents q as fs xs) (content : α)
    (halloc : mqueueAllocItem q = (q₁, item))
    (hfill : (q₁.setContent item (some content)).setNext item none = q₂) :
    ∃ fs', Represents q₂ as fs' xs ∧ item ∉ as ∧ item ∉ fs' ∧ item < q₂.brk
      ∧ contentOf q₂ item = some content ∧ links q₂ item = none
      ∧ Taken q.brk fs item fs' q₂.brk := by
  obtain ⟨fs', r₁, has, hfs, hbrk, htaken⟩ := represents_mqueueAllocItem r
  rw [halloc] at r₁ has hfs hbrk htaken
  subst hfill
  refine ⟨fs', r₁.fill has hfs (some content) none, has, hfs, hbrk, ?_, ?_, htaken⟩
  · rw [contentOf_setNext, contentOf_setContent, Function.update_self]
  · rw [links_setNext, Function.update_self]

/-- Freeing a node that is on no chain, with `buf_back` on no node of the
queue. -/
theorem represents_mqueueFreeItem (r : Represents q as fs xs) (has : item ∉ as) (hfs : item ∉ fs)
    (hbrk : item < q.brk)
    (hback : q.init ≠ 0 → q.nbuf < 3 * q.init → ∀ b, q.bufBack = some b → b ∉ as) :
    ∃ fs', Represents (mqueueFreeItem q item) as fs' xs := by
  have hchain : Path (links (q.setNext item none)) q.first as none := by
    rw [links_setNext]
    exact r.chain.update has none
  have hpool : Path (links (q.setNext item none)) q.bufFront fs none := by
    rw [links_setNext]
    exact r.pool.update hfs none
  have hsame : ∀ a ∈ as, contentOf (q.setNext item none) a = contentOf q a := by
    intro a _
    rw [contentOf_setNext]
  unfold mqueueFreeItem
  dsimp only
  split
  · rename_i hroom
    split
    · rename_i b hb
      obtain ⟨fs', hpath, hmem⟩ := r.pool.release hfs b
      have hnot : b ∉ as := hback hroom.1 hroom.2 b hb
      refine ⟨fs', r.mono ?_ ?_ rfl rfl rfl rfl ?_ r.back ?_ ?_⟩
      · show Path (links ((q.setNext item none).setNext b (some item))) q.first as none
        rw [links_setNext]
        exact hchain.update hnot (some item)
      · intro a _
        show contentOf ((q.setNext item none).setNext b (some item)) a = contentOf q a
        rw [contentOf_setNext, contentOf_setNext]
      · show Path (links ((q.setNext item none).setNext b (some item))) q.bufFront fs' none
        rw [links_setNext, links_setNext]
        exact hpath
      · intro a ha
        rcases hmem a ha with h | rfl
        · exact r.apart a h
        · exact has
      · rintro a (ha | ha)
        · exact r.bound a (Or.inl ha)
        rcases hmem a ha with h | rfl
        · exact r.bound a (Or.inr h)
        · exact hbrk
    · -- the pool is empty: the node is all of it
      refine ⟨[item], r.mono hchain hsame rfl rfl rfl rfl ?_ (fun h => by cases h) ?_ ?_⟩
      · refine ⟨rfl, ?_⟩
        show links (q.setNext item none) item = none
        rw [links_setNext, Function.update_self]
      · intro a ha
        rw [List.mem_singleton.mp ha]
        exact has
      · rintro a (ha | ha)
        · exact r.bound a (Or.inl ha)
        · rw [List.mem_singleton.mp ha]
          exact hbrk
  · exact ⟨fs, r.mono hchain hsame rfl rfl rfl rfl hpool r.back r.apart r.bound⟩

/-! ## The operations -/

theorem Represents.last_none (r : Represents q as fs xs) (h : q.last = none) : as = [] := by
  rw [r.last] at h
  exact List.getLast?_eq_none_iff.mp h

/-- The first item of a queue that was empty. -/
theorem Represents.single (r : Represents q [] fs xs) (hfs : item ∉ fs) (hbrk : item < q.brk)
    {content : α} (hcontent : contentOf q item = some content) (hlink : links q item = none) :
    Represents { q with last := some item, first := some item, index := 0, indexed := some item,
                        count := q.count + 1 } [item] fs [content] where
  chain := ⟨rfl, hlink⟩
  contents := congrArg (· :: []) hcontent
  last := rfl
  count := by
    show q.count + 1 = _
    rw [r.count]
    rfl
  index := fun _ => ⟨Int.le_refl 0, Int.zero_lt_one⟩
  indexed := fun _ => rfl
  pool := r.pool
  back := r.back
  apart := by
    intro a ha hmem
    rw [List.mem_singleton.mp hmem] at ha
    exact hfs ha
  bound := by
    rintro a (ha | ha)
    · rw [List.mem_singleton.mp ha]
      exact hbrk
    · exact r.bound a (Or.inr ha)

/-- `mqueue_add`, with the node it takes. -/
theorem taken_mqueueAdd (r : Represents q as fs xs) (content : α) :
    ∃ item fs', Represents (mqueueAdd q content) (item :: as) fs' (content :: xs)
      ∧ Taken q.brk fs item fs' (mqueueAdd q content).brk := by
  unfold mqueueAdd
  rcases halloc : mqueueAllocItem q with ⟨q₁, item⟩
  simp only
  generalize hfill : (q₁.setContent item (some content)).setNext item none = q₂
  obtain ⟨fs', r₂, has, hfs, hbrk₂, hcontent, hlink, htaken⟩ :=
    represents_newItem r content halloc hfill
  split
  · rename_i hlast
    obtain rfl := r₂.last_none hlast
    have hxs : xs = [] := List.length_eq_zero_iff.mp r₂.length.symm
    rw [hxs]
    exact ⟨item, fs', r₂.single hfs hbrk₂ hcontent hlink, htaken⟩
  · rename_i last hlast
    have hne : as ≠ [] := by
      rintro rfl
      rw [r₂.last] at hlast
      cases hlast
    refine ⟨item, fs', ?_, htaken⟩
    constructor
    · show Path (links (q₂.setNext item q₂.first)) (some item) (item :: as) none
      rw [links_setNext]
      exact r₂.chain.cons has
    · show (item :: as).map (contentOf (q₂.setNext item q₂.first)) = _
      rw [contentOf_setNext, List.map_cons, List.map_cons, hcontent, r₂.contents]
    · show q₂.last = _
      rw [r₂.last, List.getLast?_cons, List.getLast?_eq_getLast_of_ne_nil hne]
      rfl
    · show q₂.count + 1 = _
      rw [r₂.count, List.length_cons, Int.natCast_add]
      rfl
    · intro _
      obtain ⟨h₁, h₂⟩ := r₂.index hne
      show 0 ≤ q₂.index + 1 ∧ q₂.index + 1 < ((item :: as).length : Int)
      rw [List.length_cons]
      omega
    · intro _
      have hindex : (q₂.index + 1).toNat = q₂.index.toNat + 1 := by
        have := (r₂.index hne).1
        omega
      show q₂.indexed = (item :: as)[(q₂.index + 1).toNat]?
      rw [hindex, List.getElem?_cons_succ]
      exact r₂.indexed hne
    · show Path (links (q₂.setNext item q₂.first)) q₂.bufFront fs' none
      rw [links_setNext]
      exact r₂.pool.update hfs q₂.first
    · exact r₂.back
    · intro a ha hmem
      rcases List.mem_cons.mp hmem with rfl | hmem
      · exact hfs ha
      · exact r₂.apart a ha hmem
    · rintro a (ha | ha)
      · rcases List.mem_cons.mp ha with rfl | ha
        · exact hbrk₂
        · exact r₂.bound a (Or.inl ha)
      · exact r₂.bound a (Or.inr ha)

theorem represents_mqueueAdd (r : Represents q as fs xs) (content : α) :
    ∃ as' fs', Represents (mqueueAdd q content) as' fs' (content :: xs) := by
  obtain ⟨item, fs', r', -⟩ := taken_mqueueAdd r content
  exact ⟨item :: as, fs', r'⟩

/-- `mqueue_append`, with the node it takes. -/
theorem taken_mqueueAppend (r : Represents q as fs xs) (content : α) :
    ∃ item fs', Represents (mqueueAppend q content) (as ++ [item]) fs' (xs ++ [content])
      ∧ Taken q.brk fs item fs' (mqueueAppend q content).brk := by
  unfold mqueueAppend
  rcases halloc : mqueueAllocItem q with ⟨q₁, item⟩
  simp only
  generalize hfill : (q₁.setContent item (some content)).setNext item none = q₂
  obtain ⟨fs', r₂, has, hfs, hbrk₂, hcontent, hlink, htaken⟩ :=
    represents_newItem r content halloc hfill
  split
  · rename_i hlast
    obtain rfl := r₂.last_none hlast
    have hxs : xs = [] := List.length_eq_zero_iff.mp r₂.length.symm
    rw [hxs]
    exact ⟨item, fs', r₂.single hfs hbrk₂ hcontent hlink, htaken⟩
  · rename_i last hlast
    obtain ⟨l, rfl⟩ : ∃ l, as = l ++ [last] := by
      rw [r₂.last] at hlast
      exact List.getLast?_eq_some_iff.mp hlast
    have hne : l ++ [last] ≠ [] := List.append_ne_nil_of_right_ne_nil l (List.cons_ne_nil _ _)
    have hlastfs : last ∉ fs' := fun h =>
      r₂.apart last h (List.mem_append_right l (List.mem_singleton_self last))
    -- the link written into the new node is the one it has
    have hsame : Function.update (links q₂) item none = links q₂ := by
      rw [← hlink, Function.update_eq_self]
    have hlen : (l ++ [last, item]).length = (l ++ [last]).length + 1 := by simp
    have happend : l ++ [last, item] = (l ++ [last]) ++ [item] := by simp
    refine ⟨item, fs', ?_, htaken⟩
    rw [← happend]
    constructor
    · show Path (links (q₂.setNext last (some item))) q₂.first (l ++ [last, item]) none
      rw [links_setNext, ← hsame]
      exact r₂.chain.concat has
    · show (l ++ [last, item]).map (contentOf (q₂.setNext last (some item))) = _
      rw [contentOf_setNext, happend, List.map_append, r₂.contents, List.map_append,
        List.map_singleton, hcontent]
      rfl
    · show some item = _
      rw [happend, List.getLast?_concat]
    · show q₂.count + 1 = _
      rw [r₂.count, hlen, Int.natCast_add]
      rfl
    · intro _
      obtain ⟨h₁, h₂⟩ := r₂.index hne
      show 0 ≤ q₂.index ∧ q₂.index < ((l ++ [last, item]).length : Int)
      rw [hlen]
      omega
    · intro _
      obtain ⟨h₁, h₂⟩ := r₂.index hne
      show q₂.indexed = (l ++ [last, item])[q₂.index.toNat]?
      rw [happend, List.getElem?_append_left (by omega)]
      exact r₂.indexed hne
    · show Path (links (q₂.setNext last (some item))) q₂.bufFront fs' none
      rw [links_setNext]
      exact r₂.pool.update hlastfs (some item)
    · exact r₂.back
    · intro a ha hmem
      rw [happend, List.mem_append, List.mem_singleton] at hmem
      rcases hmem with hmem | rfl
      · exact r₂.apart a ha hmem
      · exact hfs ha
    · rintro a (ha | ha)
      · rw [happend, List.mem_append, List.mem_singleton] at ha
        rcases ha with ha | rfl
        · exact r₂.bound a (Or.inl ha)
        · exact hbrk₂
      · exact r₂.bound a (Or.inr ha)

theorem represents_mqueueAppend (r : Represents q as fs xs) (content : α) :
    ∃ as' fs', Represents (mqueueAppend q content) as' fs' (xs ++ [content]) := by
  obtain ⟨item, fs', r', -⟩ := taken_mqueueAppend r content
  exact ⟨as ++ [item], fs', r'⟩

/-- The queue behind its first node, before that node is freed. -/
theorem Represents.behind {a : Nat} {x : α} (r : Represents q (a :: as) fs (x :: xs)) :
    Represents
      { q with first := links q a, last := if links q a = none then none else q.last,
               index := 0, indexed := links q a, count := q.count - 1 } as fs xs where
  chain := r.chain.2
  contents := (List.cons.inj r.contents).2
  last := by
    show (if links q a = none then none else q.last) = _
    rw [r.chain.2.head?, r.last]
    cases as with
    | nil => rfl
    | cons b as => exact if_neg (by simp)
  count := by
    show q.count - 1 = _
    rw [r.count, List.length_cons]
    omega
  index := fun hne => by
    have hlen := List.length_pos_iff.mpr hne
    exact ⟨Int.le_refl 0, by show (0 : Int) < _; omega⟩
  indexed := fun _ => by
    show links q a = as[(0 : Int).toNat]?
    rw [r.chain.2.head?, List.head?_eq_getElem?]
    rfl
  pool := r.pool
  back := r.back
  apart := fun b hb hmem => r.apart b hb (List.mem_cons_of_mem a hmem)
  bound := fun b hb => r.bound b (hb.imp_left (List.mem_cons_of_mem a))

theorem mqueueFreeItem_count (q : Mqueue α) (item : Nat) (n : Int) :
    { mqueueFreeItem q item with count := n } = mqueueFreeItem { q with count := n } item := by
  unfold mqueueFreeItem
  dsimp only [Mqueue.setNext]
  split
  · split <;> rfl
  · rfl

@[simp] theorem mqueueFreeItem_count_eq (q : Mqueue α) (item : Nat) :
    (mqueueFreeItem q item).count = q.count := by
  unfold mqueueFreeItem
  dsimp only [Mqueue.setNext]
  split
  · split <;> rfl
  · rfl

/-- `mqueue_remove` on a queue that is not empty. -/
theorem mqueueRemove_eq {a : Nat} (hfirst : q.first = some a) :
    mqueueRemove q = (mqueueFreeItem { q with
        first := links q a, last := if links q a = none then none else q.last,
        index := 0, indexed := links q a, count := q.count - 1 } a, contentOf q a) := by
  unfold mqueueRemove
  rw [hfirst]
  dsimp only
  rw [mqueueFreeItem_count_eq, mqueueFreeItem_count]
  rfl

theorem represents_mqueueRemove (r : Represents q as fs xs) (hsafe : ReleaseSafe q .remove) :
    (mqueueRemove q).2 = xs.head?
      ∧ ∃ as' fs', Represents (mqueueRemove q).1 as' fs' xs.tail := by
  cases as with
  | nil =>
    have hxs : xs = [] := List.length_eq_zero_iff.mp r.length.symm
    have hfirst : q.first = none := r.chain
    subst hxs
    have heq : mqueueRemove q = (q, none) := by
      unfold mqueueRemove
      rw [hfirst]
    rw [heq]
    exact ⟨rfl, [], fs, r⟩
  | cons a as =>
    cases xs with
    | nil => cases r.length
    | cons x xs =>
      have hnodup := List.nodup_cons.mp r.chain.nodup
      have hfs : a ∉ fs := fun h => r.apart a h (List.mem_cons_self ..)
      rw [mqueueRemove_eq r.chain.1]
      refine ⟨(List.cons.inj r.contents).1, as, ?_⟩
      refine represents_mqueueFreeItem r.behind hnodup.1 hfs
        (r.bound a (Or.inl (List.mem_cons_self ..))) ?_
      intro hinit hroom b hb hmem
      obtain ⟨i, hi, rfl⟩ := List.mem_iff_getElem.mp hmem
      have hcount : i < q.count.toNat := by
        rw [r.count, List.length_cons]
        omega
      refine hsafe hinit hroom i hcount (fun hnone => ?_) ?_
      · have hb' : q.bufBack = some as[i] := hb
        rw [hnone] at hb'
        cases hb'
      · rw [r.node, List.getElem?_cons_succ, List.getElem?_eq_getElem hi]
        exact hb.symm

/-! ## Peeking -/

/-- The walk stays on the queue. -/
theorem Represents.walk (r : Represents q as fs xs) (n : Nat) :
    ∀ {i : Nat}, i + n < as.length → mqueueWalk n (cursorAt q i) = some (cursorAt q (i + n)) := by
  induction n with
  | zero =>
    intro i _
    rfl
  | succ n ih =>
    intro i hi
    have hnode : mqueueNode q i = some as[i] := by
      rw [r.node, List.getElem?_eq_getElem (by omega)]
    have hstep : mqueueWalk (n + 1) (cursorAt q i) = mqueueWalk n (cursorAt q (i + 1)) := by
      simp only [mqueueWalk, cursorAt, hnode, mqueueNode, Option.bind_some, Int.natCast_add,
        Int.natCast_one]
    rw [hstep, ih (by omega), Nat.add_right_comm, Nat.add_assoc]

/-- Moving the cursor to a node of the queue. -/
theorem Represents.cursorAt (r : Represents q as fs xs) {i : Nat} (hi : i < as.length) :
    Represents (cursorAt q i) as fs xs where
  chain := r.chain
  contents := r.contents
  last := r.last
  count := r.count
  index := fun _ => ⟨Int.natCast_nonneg i, Int.ofNat_lt.mpr hi⟩
  indexed := fun _ => by
    show mqueueNode q i = as[((i : Nat) : Int).toNat]?
    rw [r.node, Int.toNat_natCast]
  pool := r.pool
  back := r.back
  apart := r.apart
  bound := r.bound

theorem represents_mqueuePeekAtIndex (r : Represents q as fs xs) (i : Nat) :
    ∃ q', mqueuePeekAtIndex q i = some (q', xs[i]?) ∧ Represents q' as fs xs
      ∧ q'.init = q.init := by
  unfold mqueuePeekAtIndex
  split
  · rename_i hi
    rw [r.count, Int.ofNat_lt] at hi
    have hne : as ≠ [] := List.ne_nil_of_length_pos (by omega)
    -- the walk starts at the front or at the cursor, not behind the index
    have hstart : ∃ j ≤ i, (if q.index > (i : Int) then { q with indexed := q.first, index := 0 }
        else q) = Rms.Util.cursorAt q j := by
      obtain ⟨h₁, h₂⟩ := r.index hne
      split
      · exact ⟨0, Nat.zero_le i, rfl⟩
      · refine ⟨q.index.toNat, by omega, ?_⟩
        have hindex : ((q.index.toNat : Nat) : Int) = q.index := Int.toNat_of_nonneg h₁
        rw [Rms.Util.cursorAt, hindex, r.node, ← r.indexed hne]
    obtain ⟨j, hj, hstart⟩ := hstart
    have hsteps : ((i : Int) - (Rms.Util.cursorAt q j).index).toNat = i - j := by
      show ((i : Int) - (j : Int)).toNat = i - j
      omega
    have hwalk := r.walk (i - j) (i := j) (by omega)
    rw [Nat.add_sub_of_le hj] at hwalk
    have hnode : mqueueNode q i = some as[i] := by
      rw [r.node, List.getElem?_eq_getElem hi]
    refine ⟨Rms.Util.cursorAt q i, ?_, r.cursorAt hi, rfl⟩
    simp only [hstart, hsteps, hwalk]
    simp only [Rms.Util.cursorAt, hnode]
    rw [← r.content (List.getElem?_eq_getElem hi)]
    rfl
  · rename_i hi
    rw [r.count, r.length, Int.ofNat_lt] at hi
    exact ⟨q, by rw [List.getElem?_eq_none (by omega)], r, rfl⟩

/-- A negative index gets past the check and back to the front. -/
theorem mqueuePeekAtIndex_neg (r : Represents q as fs xs) (hne : as ≠ []) {index : Int}
    (hneg : index < 0) :
    mqueuePeekAtIndex q index = some (Rms.Util.cursorAt q 0, xs.head?) := by
  have hpos : 0 < as.length := List.length_pos_iff.mpr hne
  have hcount : index < q.count := by
    rw [r.count]
    omega
  have hback : q.index > index := Int.lt_of_lt_of_le hneg (r.index hne).1
  have hsteps : (index - 0).toNat = 0 := by omega
  have hnode : q.first = some as[0] := by
    rw [← List.getElem?_eq_getElem hpos, ← r.node 0]
    rfl
  have hcontent : (q.items as[0]).content = xs[0]? := r.content (List.getElem?_eq_getElem hpos)
  unfold mqueuePeekAtIndex
  rw [if_pos hcount]
  simp only [if_pos hback, hsteps, mqueueWalk, hnode, hcontent]
  rw [List.head?_eq_getElem?, Rms.Util.cursorAt, show mqueueNode q 0 = q.first from rfl, hnode]
  rfl

/-! The pool parameter is set once. -/

theorem mqueueAllocItem_init (q : Mqueue α) : (mqueueAllocItem q).1.init = q.init := by
  unfold mqueueAllocItem
  split <;> rfl

theorem mqueueFreeItem_init (q : Mqueue α) (item : Nat) :
    (mqueueFreeItem q item).init = q.init := by
  unfold mqueueFreeItem
  dsimp only [Mqueue.setNext]
  split
  · split <;> rfl
  · rfl

theorem mqueueAdd_init (q : Mqueue α) (content : α) : (mqueueAdd q content).init = q.init := by
  have halloc := mqueueAllocItem_init q
  unfold mqueueAdd
  dsimp only
  split <;> exact halloc

theorem mqueueAppend_init (q : Mqueue α) (content : α) :
    (mqueueAppend q content).init = q.init := by
  have halloc := mqueueAllocItem_init q
  unfold mqueueAppend
  dsimp only
  split <;> exact halloc

theorem mqueueRemove_init (q : Mqueue α) : (mqueueRemove q).1.init = q.init := by
  unfold mqueueRemove
  split
  · rfl
  · exact mqueueFreeItem_init _ _

/-! ## Removing an item in the middle -/

theorem Represents.length_le (r : Represents q as fs xs) : as.length ≤ q.brk := by
  have hsub : as ⊆ List.range q.brk := fun a ha => List.mem_range.mpr (r.bound a (Or.inl ha))
  have hle := (r.chain.nodup.subperm hsub).length_le
  rwa [List.length_range] at hle

/-- A walk of at least one link remembers a node. -/
theorem mqueueWalkPrev_prev (q : Mqueue α) (n : Nat) :
    ∀ {indexed prev indexed' prev' : Option Nat},
      mqueueWalkPrev q (n + 1) indexed prev = some (indexed', prev') → prev' ≠ none := by
  induction n with
  | zero =>
    intro indexed prev indexed' prev' h
    cases indexed with
    | none => cases h
    | some a =>
      obtain ⟨-, rfl⟩ := Prod.mk.inj (Option.some.inj h)
      exact Option.some_ne_none a
  | succ n ih =>
    intro indexed prev indexed' prev' h
    cases indexed with
    | none => cases h
    | some a =>
      have hrest : mqueueWalkPrev q (n + 1) (q.items a).next (some a) = some (indexed', prev') := h
      exact ih hrest

section RemoveItem

variable [DecidableEq α] {x : α} {k : Nat}

/-- The search looks at the contents in order, and not at the last one. -/
theorem mqueueSearch_path {p : Option Nat} {n : Nat} {index : Int}
    (hchain : Path (links q) p as none)
    (hcontents : as.map (contentOf q) = xs.map some) (hlast : q.last = as.getLast?)
    (hn : as.length < n) :
    mqueueSearch q x n p index
      = some ((xs.dropLast.idxOf? x).map fun k : Nat => index + (k : Int)) := by
  induction as generalizing xs p n index with
  | nil =>
    obtain rfl : xs = [] := by simpa using hcontents.symm
    obtain rfl : p = none := hchain
    obtain ⟨n, rfl⟩ := Nat.exists_eq_succ_of_ne_zero (Nat.ne_of_gt hn)
    simp [mqueueSearch, hlast]
  | cons a as ih =>
    obtain ⟨n, rfl⟩ := Nat.exists_eq_succ_of_ne_zero
      (Nat.ne_of_gt (Nat.lt_of_le_of_lt (Nat.zero_le _) hn))
    obtain ⟨y, ys, rfl⟩ : ∃ y ys, xs = y :: ys := by
      cases xs with
      | nil => cases hcontents
      | cons y ys => exact ⟨y, ys, rfl⟩
    obtain ⟨hy, hys⟩ := List.cons.inj hcontents
    have hnodup := (List.nodup_cons.mp hchain.nodup).1
    obtain ⟨rfl, hrest⟩ := hchain
    cases as with
    | nil =>
      obtain rfl : ys = [] := by simpa using hys.symm
      simp [mqueueSearch, hlast]
    | cons b as =>
      obtain ⟨z, zs, rfl⟩ : ∃ z zs, ys = z :: zs := by
        cases ys with
        | nil => cases hys
        | cons z zs => exact ⟨z, zs, rfl⟩
      rw [List.getLast?_cons_cons] at hlast
      have hne : some a ≠ q.last := by
        intro heq
        exact hnodup (List.mem_of_getLast? (hlast.symm.trans heq.symm))
      have hcontent : (q.items a).content = some y := hy
      have hstep : mqueueSearch q x n (q.items a).next (index + 1)
          = some (((z :: zs).dropLast.idxOf? x).map fun k : Nat => index + 1 + (k : Int)) :=
        ih hrest hys hlast (Nat.lt_of_succ_lt_succ hn)
      simp only [mqueueSearch, if_neg hne, hcontent, List.dropLast_cons_cons,
        List.idxOf?_cons, beq_iff_eq]
      by_cases hyx : y = x
      · simp [hyx]
      · have hsome : some y ≠ some x := fun heq => hyx (Option.some.inj heq)
        rw [if_pos hsome, if_neg hyx, Option.map_map]
        refine hstep.trans (congrArg some ?_)
        apply congrArg (fun f => Option.map f _)
        funext k
        simp only [Function.comp_apply, Int.natCast_add, Int.natCast_one]
        omega

theorem Represents.search_eq (r : Represents q as fs xs) (x : α) :
    mqueueSearch q x (q.brk + 1) q.first 0
      = some ((xs.dropLast.idxOf? x).map fun k : Nat => (k : Int)) := by
  rw [mqueueSearch_path r.chain r.contents r.last (Nat.lt_succ_of_le r.length_le)]
  simp only [Int.zero_add]

/-- Where each item is queued once. -/
theorem Represents.search_first (r : Represents q as fs xs) (hnodup : xs.Nodup)
    (hk : xs[k]? = some x) :
    mqueueSearch q x (q.brk + 1) q.first 0
      = some (if k + 1 = as.length then none else some (k : Int)) := by
  obtain ⟨hklt, hxk⟩ := List.getElem?_eq_some_iff.mp hk
  have hlen := r.length
  have hpos : ∀ j (hj : j < xs.length), xs[j] = x → j = k := by
    intro j hj hxj
    exact hnodup.getElem_inj_iff.mp (hxj.trans hxk.symm)
  rw [r.search_eq]
  by_cases hlast : k + 1 = as.length
  · have hnone : xs.dropLast.idxOf? x = none := by
      rw [List.idxOf?_eq_none_iff]
      intro hmem
      obtain ⟨j, hj, hxj⟩ := List.mem_iff_getElem.mp hmem
      rw [List.getElem_dropLast] at hxj
      rw [List.length_dropLast] at hj
      have := hpos j (by omega) hxj
      omega
    rw [if_pos hlast, hnone]
    rfl
  · have hsome : xs.dropLast.idxOf? x = some k := by
      rw [List.idxOf?_eq_some_iff]
      refine ⟨by rw [List.length_dropLast]; omega, ?_, ?_⟩
      · rw [List.getElem_dropLast, hxk]
      · intro j hj hxj
        rw [List.getElem_dropLast] at hxj
        have := hpos j (by omega) hxj
        omega
    rw [if_neg hlast, hsome]
    rfl

/-- The last item stays. -/
theorem mqueueRemoveItem_last (r : Represents q as fs xs) (hnodup : xs.Nodup)
    (hk : xs[k]? = some x) (hlast : k + 1 = as.length) :
    mqueueRemoveItem q x = some ({ q with index := 0, indexed := q.first }, none) := by
  unfold mqueueRemoveItem
  rw [r.search_first hnodup hk, if_pos hlast]

/-- The first of several items is removed as by `mqueue_remove`. -/
theorem mqueueRemoveItem_first (r : Represents q as fs xs) (hinit : q.init = 0)
    (hnodup : xs.Nodup) (hk : xs[0]? = some x) (hlen : 2 ≤ as.length) :
    mqueueRemoveItem q x = some ((mqueueRemove q).1, some (mqueueRemove q).2) := by
  cases as with
  | nil => simp at hlen
  | cons a as =>
    have hcount : (0 : Int) < q.count := by
      rw [r.count]
      omega
    have hnext : links q a ≠ none := by
      rw [r.chain.2.head?]
      intro hnone
      rw [List.head?_eq_none_iff] at hnone
      subst hnone
      simp at hlen
    unfold mqueueRemoveItem
    rw [r.search_first hnodup hk, if_neg (by omega), mqueueRemove_eq r.chain.1]
    simp only [mqueueRemoveAtIndex, Int.natCast_zero, if_pos hcount, Int.toNat_zero,
      mqueueWalkPrev, r.chain.1]
    rw [mqueueFreeItem_eq (by exact hinit), mqueueFreeItem_eq (by exact hinit), if_neg hnext]
    rfl

/-- An item in between: the first node is cut off from the others and
stays the first one. -/
theorem mqueueRemoveItem_between (r : Represents q as fs xs) (hinit : q.init = 0)
    (hnodup : xs.Nodup) (hk : xs[k]? = some x) (hpos : 0 < k) (hlast : k + 1 < as.length)
    {q' : Mqueue α} {ret : Option (Option α)} (h : mqueueRemoveItem q x = some (q', ret)) :
    q'.count = q.count - 1 ∧ mqueueNode q' 1 = none := by
  cases as with
  | nil => simp at hlast
  | cons a as =>
    obtain ⟨k, rfl⟩ : ∃ j, k = j + 1 := ⟨k - 1, by omega⟩
    have hcount : ((k + 1 : Nat) : Int) < q.count := by
      rw [r.count]
      omega
    unfold mqueueRemoveItem at h
    rw [r.search_first hnodup hk, if_neg (by omega)] at h
    simp only [mqueueRemoveAtIndex, if_pos hcount, Int.toNat_natCast] at h
    cases hwalk : mqueueWalkPrev q (k + 1) q.first none with
    | none =>
      rw [hwalk] at h
      cases h
    | some w =>
      obtain ⟨indexed, prev⟩ := w
      obtain ⟨p, rfl⟩ := Option.ne_none_iff_exists'.mp (mqueueWalkPrev_prev q k hwalk)
      rw [hwalk] at h
      simp only [r.chain.1] at h
      rw [mqueueFreeItem_eq (by exact hinit)] at h
      obtain ⟨rfl, -⟩ := Prod.mk.inj (Option.some.inj h)
      refine ⟨rfl, ?_⟩
      -- the last write is the one to the first node
      simp only [mqueueNode, Mqueue.setNext, Option.bind_some, Function.update_self]

end RemoveItem

/-! ## Whole runs -/

/-- A pool of `n` more nodes behind `back`. -/
theorem pool_mqueueInitPool (n : Nat) :
    ∀ {q : Mqueue α} {l : List Nat} {back : Nat}, Represents q [] (l ++ [back]) [] →
      q.bufBack = some back → (l ++ [back]).Perm (List.range q.brk) →
      ∃ fs, Represents (mqueueInitPool n back q) [] fs []
        ∧ (mqueueInitPool n back q).bufBack = fs.getLast?
        ∧ fs.Perm (List.range (mqueueInitPool n back q).brk) := by
  induction n with
  | zero =>
    intro q l back r hback hperm
    exact ⟨_, r, by rw [List.getLast?_concat]; exact hback, hperm⟩
  | succ n ih =>
    intro q l back r hback hperm
    have hfresh : q.brk ∉ l ++ [back] := fun h => Nat.lt_irrefl _ (r.bound _ (Or.inr h))
    have hne : back ≠ q.brk := by
      rintro rfl
      exact hfresh (List.mem_append_right l (List.mem_singleton_self _))
    have hnodes : l ++ [back, q.brk] = (l ++ [back]) ++ [q.brk] := by simp
    refine ih (l := l ++ [back]) ?_ rfl ?_
    swap
    · show (l ++ [back] ++ [q.brk]).Perm (List.range (q.brk + 1))
      rw [List.range_succ]
      exact hperm.append_right [q.brk]
    rw [← hnodes]
    refine r.mono r.chain (fun a ha => by cases ha) rfl rfl rfl rfl ?_ ?_ ?_ ?_
    · show Path (links ((q.malloc.1.setNext back (some q.brk)).setNext q.brk none)) q.bufFront
        (l ++ [back, q.brk]) none
      have hlinks : links ((q.malloc.1.setNext back (some q.brk)).setNext q.brk none)
          = Function.update (Function.update (links q) q.brk none) back (some q.brk) := by
        rw [links_setNext, links_setNext, Function.update_comm hne]
        rfl
      rw [hlinks]
      exact r.pool.concat hfresh
    · intro hnull
      have hfront := r.pool.head?
      have hnull' : q.bufFront = none := hnull
      rw [hnull'] at hfront
      exact absurd (List.head?_eq_none_iff.mp hfront.symm) (by simp)
    · exact fun a _ h => by cases h
    · rintro a (ha | ha)
      · cases ha
      · show a < q.brk + 1
        simp only [List.mem_append, List.mem_cons, List.not_mem_nil, or_false] at ha
        rcases ha with ha | rfl | rfl
        · exact Nat.lt_succ_of_lt (r.bound a (Or.inr (List.mem_append_left _ ha)))
        · exact Nat.lt_succ_of_lt
            (r.bound a (Or.inr (List.mem_append_right _ (List.mem_singleton_self a))))
        · exact Nat.lt_succ_self _

/-- A new queue is empty, its nodes are all in the pool and `buf_back` is on
the last one. -/
theorem pool_mqueueInit (garbage : Nat → MqueueItem α) (nitems : Int) :
    ∃ fs, Represents (mqueueInit garbage nitems) [] fs []
      ∧ (mqueueInit garbage nitems).bufBack = fs.getLast?
      ∧ fs.Perm (List.range (mqueueInit garbage nitems).brk) := by
  unfold mqueueInit
  dsimp only
  split
  · refine pool_mqueueInitPool (nitems - 1).toNat (l := []) ?_ rfl (List.Perm.refl _)
    constructor
    case chain => rfl
    case contents => rfl
    case last => rfl
    case count => rfl
    case index => exact fun h => absurd rfl h
    case indexed => exact fun h => absurd rfl h
    case pool =>
      refine ⟨rfl, ?_⟩
      simp [links, Mqueue.setNext, Mqueue.malloc]
    case back => exact fun h => by cases h
    case apart => exact fun a _ h => by cases h
    case bound =>
      rintro a (ha | ha)
      · cases ha
      · rw [List.mem_singleton.mp ha]
        exact Nat.zero_lt_one
  · refine ⟨[], ?_, rfl, List.Perm.refl _⟩
    exact ⟨rfl, rfl, rfl, rfl, fun h => absurd rfl h, fun h => absurd rfl h, rfl, fun _ => rfl,
      (fun a h => by cases h), (fun a h => by rcases h with h | h <;> cases h)⟩

theorem represents_mqueueInit (garbage : Nat → MqueueItem α) (nitems : Int) :
    ∃ fs, Represents (mqueueInit garbage nitems) [] fs [] := by
  obtain ⟨fs, r, -⟩ := pool_mqueueInit garbage nitems
  exact ⟨fs, r⟩

/-- **One call.** It answers as the list does. -/
theorem represents_mqueueStep (q : Mqueue α) (xs : List α) (op : MqueueOp α)
    (h : ∃ as fs, Represents q as fs xs) (hsafe : ReleaseSafe q op) :
    ∃ q', mqueueStep q op = some (q', (listStep xs op).2)
      ∧ (∃ as fs, Represents q' as fs (listStep xs op).1) ∧ q'.init = q.init := by
  obtain ⟨as, fs, r⟩ := h
  cases op with
  | add content => exact ⟨_, rfl, represents_mqueueAdd r content, mqueueAdd_init q content⟩
  | append content => exact ⟨_, rfl, represents_mqueueAppend r content, mqueueAppend_init q content⟩
  | remove =>
    obtain ⟨hretval, r'⟩ := represents_mqueueRemove r hsafe
    refine ⟨_, ?_, r', mqueueRemove_init q⟩
    show some (_, MqueueAnswer.item _) = some (_, MqueueAnswer.item _)
    rw [hretval]
  | size =>
    refine ⟨q, ?_, ⟨as, fs, r⟩, rfl⟩
    show some (q, MqueueAnswer.size q.count) = some (q, MqueueAnswer.size xs.length)
    rw [r.count, r.length]
  | peek i =>
    obtain ⟨q', hpeek, r', hinit⟩ := represents_mqueuePeekAtIndex r i
    refine ⟨q', ?_, ⟨as, fs, r'⟩, hinit⟩
    show (mqueuePeekAtIndex q i).map _ = _
    rw [hpeek]
    rfl

/-- Every sequence of calls that meets the condition. -/
theorem answers_mqueueInit (garbage : Nat → MqueueItem α) (nitems : Int) (ops : List (MqueueOp α))
    (hsafe : Checked (stepState mqueueStep) ReleaseSafe (mqueueInit garbage nitems) ops) :
    answers mqueueStep (mqueueInit garbage nitems) ops = some (replies listStep [] ops) := by
  obtain ⟨fs, r⟩ := represents_mqueueInit garbage nitems
  refine (answers_eq_of_simulation (R := fun q xs => ∃ as fs, Represents q as fs xs) ?_
    ⟨[], fs, r⟩ hsafe).1
  intro q xs op h hop
  obtain ⟨q', hstep, r', -⟩ := represents_mqueueStep q xs op h hop
  exact ⟨q', hstep, r'⟩

/-- Without a pool there is no condition. -/
theorem Represents.simulation (r : Represents q as fs xs) (hinit : q.init = 0)
    (ops : List (MqueueOp α)) :
    answers mqueueStep q ops = some (replies listStep xs ops)
      ∧ ∃ q', run (stepState mqueueStep) q ops = some q'
        ∧ (∃ as fs, Represents q' as fs (final listStep xs ops)) ∧ q'.init = 0 := by
  have hsafe : ∀ (q : Mqueue α) op, q.init = 0 → ReleaseSafe q op := by
    intro q op h
    cases op with
    | remove => exact fun hinit => absurd h hinit
    | _ => trivial
  refine answers_eq_of_simulation
    (R := fun q xs => (∃ as fs, Represents q as fs xs) ∧ q.init = 0) ?_ ⟨⟨as, fs, r⟩, hinit⟩
    checked_true
  rintro q xs op ⟨h, hinit⟩ -
  obtain ⟨q', hstep, r', hinit'⟩ := represents_mqueueStep q xs op h (hsafe q op hinit)
  exact ⟨q', hstep, r', hinit'.trans hinit⟩

theorem simulation_mqueueInit_zero (garbage : Nat → MqueueItem α) (ops : List (MqueueOp α)) :
    answers mqueueStep (mqueueInit garbage 0) ops = some (replies listStep [] ops)
      ∧ ∃ q, run (stepState mqueueStep) (mqueueInit garbage 0) ops = some q
        ∧ (∃ as fs, Represents q as fs (final listStep [] ops)) ∧ q.init = 0 := by
  obtain ⟨fs, r⟩ := represents_mqueueInit garbage 0
  exact r.simulation rfl ops

/-- **Refinement.** A queue without a pool answers every sequence of calls
as the list does; in particular every peek has an answer, so the cursor
walk follows no NULL link. -/
theorem mqueue_refines_list (garbage : Nat → MqueueItem α) (ops : List (MqueueOp α)) :
    answers mqueueStep (mqueueInit garbage 0) ops = some (replies listStep [] ops) :=
  (simulation_mqueueInit_zero garbage ops).1

/-- **Pooling.** As long as `buf_back` is on no queued node but the first
one whenever a node goes back to the pool, a queue with a pool answers as
one without. -/
theorem mqueue_pool_transparent (garbage garbage₀ : Nat → MqueueItem α) (nitems : Int)
    (ops : List (MqueueOp α))
    (hsafe : Checked (stepState mqueueStep) ReleaseSafe (mqueueInit garbage nitems) ops) :
    answers mqueueStep (mqueueInit garbage nitems) ops
      = answers mqueueStep (mqueueInit garbage₀ 0) ops := by
  rw [answers_mqueueInit garbage nitems ops hsafe, (simulation_mqueueInit_zero garbage₀ ops).1]

/-- A pool of one node that is emptied and refilled. -/
def refilled : List (MqueueOp Nat) :=
  [.append 1, .append 2, .remove, .append 3, .remove, .size, .remove, .add 4, .remove, .remove]

/-- Memory that holds nothing. -/
def blank (_ : Nat) : MqueueItem Nat := { content := none, next := none }

theorem mqueue_pool_transparent_refilled :
    Checked (stepState mqueueStep) ReleaseSafe (mqueueInit blank 1) refilled
      ∧ answers mqueueStep (mqueueInit blank 1) refilled
        = answers mqueueStep (mqueueInit blank 0) refilled :=
  ⟨by decide +kernel,
    mqueue_pool_transparent blank blank 1 refilled (by decide +kernel)⟩

/-- Two nodes go back to the pool behind `buf_back`, which is then used
again: the removal of 3 links its node behind the node of 4. -/
def staleBack : List (MqueueOp Nat) :=
  [.append 1, .append 2, .append 3, .remove, .remove, .append 4, .remove, .remove, .remove, .size]

/-- The content 3 comes out twice and the size drops below zero. -/
theorem mqueue_pool_duplicates :
    answers mqueueStep (mqueueInit blank 1) staleBack
        = some [.done, .done, .done, .item (some 1), .item (some 2), .done, .item (some 3),
            .item (some 4), .item (some 3), .size (-1)]
      ∧ answers mqueueStep (mqueueInit blank 0) staleBack
        = some [.done, .done, .done, .item (some 1), .item (some 2), .done, .item (some 3),
            .item (some 4), .item none, .size 0] := by
  decide +kernel

end Rms.Util
