/-
Rms.Util.MqueueLedger — where the nodes of a queue are, over its whole life.

A `Ledger` is a queue with the nodes that were handed to `free`, in this
order. The calls are those of `MqueueRefinement` and the two that change
the pool, `mqueue_resize_buffer` and `mqueue_downsize_buffer`;
`mqueue_free` ends the life of the queue. `mqueue_remove_at_index` and
`mqueue_remove_item` unlink the wrong node and are left out.

`Accounted` is what one expects of the memory: every node that was
allocated is on the queue, in the pool or freed, and nowhere twice; and
`mqueue_free` would now end with no node freed twice and leak the nodes
that are still queued, with those of the pool if the pool was turned off
before. It holds all along exactly if every node that is put back into
the pool finds `buf_back` at NULL or on the last node of the pool
(`accounted_iff`). `mqueue_free_item` does not move `buf_back`, so two
removals in a row are enough to lose a node.
-/
import Rms.Lib.Runs
import Rms.Util.MqueueRefinement

namespace Rms.Util

open Rms.Chains Rms.Runs

variable {α : Type*}

/-! ## Calls -/

structure Ledger (α : Type*) where
  q : Mqueue α
  freed : List Nat

inductive LedgerOp (α : Type*) where
  | call (op : MqueueOp α)
  | resizeBuffer (num : Int)
  | downsizeBuffer (percent : Int)

/-- `mqueue_free_item` puts the node into the pool. -/
def Pooled (q : Mqueue α) : Prop := q.init ≠ 0 ∧ q.nbuf < 3 * q.init

instance (q : Mqueue α) : Decidable (Pooled q) := inferInstanceAs (Decidable (_ ∧ _))

/-- The nodes that a call hands to `free`. -/
def callFrees (q : Mqueue α) : MqueueOp α → List Nat
  | .remove =>
      match q.first with
      | some item => if Pooled q then [] else [item]
      | none => []
  | _ => []

def ledgerStep (s : Ledger α) : LedgerOp α → Option (Ledger α)
  | .call op => (mqueueStep s.q op).map fun r => ⟨r.1, s.freed ++ callFrees s.q op⟩
  | .resizeBuffer num => some ⟨mqueueResizeBuffer s.q num, s.freed⟩
  | .downsizeBuffer percent =>
      (mqueueDownsizeBuffer s.q percent).map fun r => ⟨r.1, s.freed ++ r.2⟩

def ledgerInit (garbage : Nat → MqueueItem α) (nitems : Int) : Ledger α :=
  ⟨mqueueInit garbage nitems, []⟩

/-- The node at a position of the pool. -/
def poolNode (q : Mqueue α) : Nat → Option Nat := nodeAt (links q) q.bufFront

/-- A node that is put back into the pool finds `buf_back` at NULL or on the
last node of the pool. -/
def PoolSafe (s : Ledger α) (op : LedgerOp α) : Prop :=
  op = .call .remove → s.q.first ≠ none → Pooled s.q →
    ∀ b, s.q.bufBack = some b → (∃ i, poolNode s.q i = some b) ∧ links s.q b = none

structure Accounted (s : Ledger α) : Prop where
  nodes : ∃ as fs xs, Represents s.q as fs xs ∧ (as ++ fs ++ s.freed).Perm (List.range s.q.brk)
  free : ∃ frees, mqueueFree s.q = some frees ∧ (s.freed ++ frees).Nodup
    ∧ ∀ a < s.q.brk, a ∉ s.freed ++ frees ↔
      (∃ i, mqueueNode s.q i = some a) ∨ s.q.init = 0 ∧ ∃ i, poolNode s.q i = some a

/-- The invariant: the nodes of the queue are `as`, those of the pool are `fs`. -/
structure Books (s : Ledger α) (as fs : List Nat) (xs : List α) : Prop where
  rep : Represents s.q as fs xs
  nodes : (as ++ fs ++ s.freed).Perm (List.range s.q.brk)
  front : s.q.bufBack = none → s.q.bufFront = none

variable {q q' : Mqueue α} {s s' : Ledger α} {as fs fs' : List Nat} {xs : List α} {item : Nat}

/-! ## `mqueue_free` -/

theorem mqueueFreeLoop_eq {n : Nat} {p : Option Nat} (h : Path (links q) p fs none)
    (hn : fs.length ≤ n) : mqueueFreeLoop q n p = some fs := by
  induction fs generalizing p n with
  | nil =>
    obtain rfl : p = none := h
    cases n <;> rfl
  | cons a fs ih =>
    obtain ⟨rfl, hrest⟩ := h
    cases n with
    | zero => simp at hn
    | succ n =>
      rw [mqueueFreeLoop, show (q.items a).next = links q a from rfl,
        ih hrest (Nat.succ_le_succ_iff.mp hn)]
      rfl

theorem Books.mqueueFree_eq (h : Books s as fs xs) :
    mqueueFree s.q = some (if s.q.init ≠ 0 then fs else []) := by
  have hlen := h.nodes.length_eq
  simp only [List.length_append, List.length_range] at hlen
  unfold mqueueFree
  split
  · exact mqueueFreeLoop_eq h.rep.pool (by omega)
  · rfl

theorem Books.accounted (h : Books s as fs xs) : Accounted s where
  nodes := ⟨as, fs, xs, h.rep, h.nodes⟩
  free := by
    refine ⟨_, h.mqueueFree_eq, ?_⟩
    have hnodup : (as ++ fs ++ s.freed).Nodup := h.nodes.nodup_iff.mpr List.nodup_range
    have hmem : ∀ a, a ∈ as ++ fs ++ s.freed ↔ a < s.q.brk := fun a => by
      rw [h.nodes.mem_iff, List.mem_range]
    have hqueue : ∀ a, (∃ i, mqueueNode s.q i = some a) ↔ a ∈ as := fun a => by
      simp only [h.rep.node, List.mem_iff_getElem?]
    have hpool : ∀ a, (∃ i, poolNode s.q i = some a) ↔ a ∈ fs := fun a => by
      simp only [poolNode, h.rep.pool.nodeAt_eq, List.mem_iff_getElem?]
    simp only [List.nodup_append, List.mem_append] at hnodup hmem
    simp only [hqueue, hpool]
    obtain ⟨⟨-, hfs, hasfs⟩, hfreed, hrest⟩ := hnodup
    constructor
    · rw [List.nodup_append]
      refine ⟨hfreed, ?_, ?_⟩
      · split
        · exact hfs
        · exact List.nodup_nil
      · intro a ha b hb
        split at hb
        · exact (hrest b (.inr hb) a ha).symm
        · cases hb
    · intro a ha
      rw [← hmem a] at ha
      by_cases hinit : s.q.init = 0
      · simp only [hinit, ne_eq, not_true_eq_false, if_false, List.append_nil, true_and]
        constructor
        · exact fun hno => ha.resolve_right hno
        · exact fun hin hmem => hrest a hin a hmem rfl
      · simp only [hinit, ne_eq, not_false_eq_true, if_true, List.mem_append, false_and, or_false]
        constructor
        · exact fun hno => (ha.resolve_right fun h => hno (.inl h)).resolve_right fun h => hno (.inr h)
        · rintro hin (hmem | hmem)
          · exact hrest a (.inl hin) a hmem rfl
          · exact hasfs a hin a hmem rfl

/-! ## Taking a node -/

theorem Taken.perm {brk brk' : Nat} {l : List Nat} (h : Taken brk fs item fs' brk')
    (hperm : (as ++ fs ++ l).Perm (List.range brk)) :
    (item :: (as ++ fs' ++ l)).Perm (List.range brk') := by
  cases h with
  | pool hfs =>
    subst hfs
    rw [List.append_assoc, List.cons_append] at hperm
    rw [List.append_assoc]
    exact List.perm_middle.symm.trans hperm
  | heap =>
    rw [List.range_succ]
    exact (List.perm_append_singleton item _).symm.trans (hperm.append_right [item])

theorem front_mqueueAllocItem (h : q.bufBack = none → q.bufFront = none) :
    (mqueueAllocItem q).1.bufBack = none → (mqueueAllocItem q).1.bufFront = none := by
  unfold mqueueAllocItem
  split
  · rename_i item _ hfront
    intro hback
    dsimp only at hback ⊢
    split at hback
    · assumption
    · rw [h hback] at hfront
      cases hfront
  · exact h

theorem mqueueAdd_pool (q : Mqueue α) (content : α) :
    (mqueueAdd q content).bufBack = (mqueueAllocItem q).1.bufBack
      ∧ (mqueueAdd q content).bufFront = (mqueueAllocItem q).1.bufFront := by
  unfold mqueueAdd
  dsimp only
  split <;> exact ⟨rfl, rfl⟩

theorem mqueueAppend_pool (q : Mqueue α) (content : α) :
    (mqueueAppend q content).bufBack = (mqueueAllocItem q).1.bufBack
      ∧ (mqueueAppend q content).bufFront = (mqueueAllocItem q).1.bufFront := by
  unfold mqueueAppend
  dsimp only
  split <;> exact ⟨rfl, rfl⟩

theorem books_mqueueAdd (h : Books s as fs xs) (content : α) :
    ∃ as' fs', Books ⟨mqueueAdd s.q content, s.freed⟩ as' fs' (content :: xs) := by
  obtain ⟨item, fs', r, htaken⟩ := taken_mqueueAdd h.rep content
  refine ⟨item :: as, fs', r, htaken.perm h.nodes, ?_⟩
  obtain ⟨hback, hfront⟩ := mqueueAdd_pool s.q content
  dsimp only
  rw [hback, hfront]
  exact front_mqueueAllocItem h.front

theorem books_mqueueAppend (h : Books s as fs xs) (content : α) :
    ∃ as' fs', Books ⟨mqueueAppend s.q content, s.freed⟩ as' fs' (xs ++ [content]) := by
  obtain ⟨item, fs', r, htaken⟩ := taken_mqueueAppend h.rep content
  refine ⟨as ++ [item], fs', r, ?_, ?_⟩
  · have hperm := htaken.perm h.nodes
    refine List.Perm.trans ?_ hperm
    rw [List.append_assoc, List.append_assoc, List.append_assoc]
    exact List.perm_middle
  · obtain ⟨hback, hfront⟩ := mqueueAppend_pool s.q content
    dsimp only
    rw [hback, hfront]
    exact front_mqueueAllocItem h.front

theorem books_mqueueDownsize (n : Nat) :
    ∀ {s : Ledger α} {fs : List Nat}, Books s as fs xs →
      ∃ fs', Books ⟨(mqueueDownsize n s.q).1, s.freed ++ (mqueueDownsize n s.q).2⟩ as fs' xs := by
  induction n with
  | zero =>
    intro s fs h
    refine ⟨fs, h.rep, ?_, h.front⟩
    simp only [mqueueDownsize, List.append_nil]
    exact h.nodes
  | succ n ih =>
    intro s fs h
    obtain ⟨fs', r, -, -, -, htaken⟩ := represents_mqueueAllocItem h.rep
    have hbooks : Books ⟨(mqueueAllocItem s.q).1, s.freed ++ [(mqueueAllocItem s.q).2]⟩ as fs' xs := by
      refine ⟨r, ?_, front_mqueueAllocItem h.front⟩
      dsimp only
      rw [← List.append_assoc]
      exact (List.perm_append_singleton _ _).trans (htaken.perm h.nodes)
    obtain ⟨fs'', hrest⟩ := ih hbooks
    refine ⟨fs'', ?_⟩
    simp only [mqueueDownsize]
    rwa [List.append_assoc, List.singleton_append] at hrest

/-! ## Putting a node back -/

theorem mqueueFreeItem_brk (q : Mqueue α) (item : Nat) : (mqueueFreeItem q item).brk = q.brk := by
  unfold mqueueFreeItem
  dsimp only [Mqueue.setNext]
  split
  · split <;> rfl
  · rfl

theorem front_mqueueFreeItem (h : q.bufBack = none → q.bufFront = none) :
    (mqueueFreeItem q item).bufBack = none → (mqueueFreeItem q item).bufFront = none := by
  unfold mqueueFreeItem
  dsimp only [Mqueue.setNext]
  split
  · split
    · exact h
    · exact fun hback => nomatch hback
  · exact h

/-- The links after a node was put into a pool that is not empty. -/
theorem links_of_pooled {b : Nat} (item : Nat) (hpooled : Pooled q) (hb : q.bufBack = some b) :
    links (mqueueFreeItem q item)
        = Function.update (Function.update (links q) item none) b (some item)
      ∧ (mqueueFreeItem q item).bufFront = q.bufFront := by
  have hcond : (q.setNext item none).init ≠ 0
      ∧ (q.setNext item none).nbuf < 3 * (q.setNext item none).init := hpooled
  have hback : (q.setNext item none).bufBack = some b := hb
  unfold mqueueFreeItem
  dsimp only
  rw [if_pos hcond]
  simp only [hback]
  constructor
  · rw [← links_setNext, ← links_setNext]
    rfl
  · rfl

/-- The pool after a node was put back at its end. -/
theorem pool_mqueueFreeItem (hpool : Path (links q) q.bufFront fs none) (hfs : item ∉ fs)
    (hback : Pooled q → q.bufBack = fs.getLast?) :
    Path (links (mqueueFreeItem q item)) (mqueueFreeItem q item).bufFront
      (if Pooled q then fs ++ [item] else fs) none := by
  split
  · rename_i hpooled
    have hlast := hback hpooled
    cases hb : q.bufBack with
    | none =>
      rw [hb] at hlast
      obtain rfl : fs = [] := List.getLast?_eq_none_iff.mp hlast.symm
      have hcond : (q.setNext item none).init ≠ 0
          ∧ (q.setNext item none).nbuf < 3 * (q.setNext item none).init := hpooled
      have hnone : (q.setNext item none).bufBack = none := hb
      unfold mqueueFreeItem
      dsimp only
      rw [if_pos hcond]
      simp only [hnone]
      refine ⟨rfl, ?_⟩
      show links (q.setNext item none) item = none
      rw [links_setNext, Function.update_self]
    | some b =>
      obtain ⟨hlinks, hfront⟩ := links_of_pooled item hpooled hb
      rw [hb] at hlast
      obtain ⟨l, rfl⟩ := List.getLast?_eq_some_iff.mp hlast.symm
      rw [hlinks, hfront, List.append_assoc]
      exact hpool.concat hfs
  · rename_i hpooled
    have hcond : ¬ ((q.setNext item none).init ≠ 0
        ∧ (q.setNext item none).nbuf < 3 * (q.setNext item none).init) := hpooled
    unfold mqueueFreeItem
    dsimp only
    rw [if_neg hcond, links_setNext]
    exact hpool.update hfs none

/-- The queue without its first node, before that node is put back. -/
def unqueue (q : Mqueue α) (a : Nat) : Mqueue α :=
  { q with first := links q a, last := if links q a = none then none else q.last,
           index := 0, indexed := links q a, count := q.count - 1 }

theorem mqueueRemove_unqueue {a : Nat} (hfirst : q.first = some a) :
    (mqueueRemove q).1 = mqueueFreeItem (unqueue q a) a
      ∧ callFrees q .remove = if Pooled q then [] else [a] := by
  constructor
  · rw [mqueueRemove_eq hfirst]
    rfl
  · unfold callFrees
    rw [hfirst]

theorem PoolSafe.back (h : Books s as fs xs) (hok : PoolSafe s (.call .remove))
    (hfirst : s.q.first ≠ none) (hpooled : Pooled s.q) : s.q.bufBack = fs.getLast? := by
  cases hb : s.q.bufBack with
  | none =>
    have hfront : s.q.bufFront = none := h.front hb
    have hnil := h.rep.pool.head?
    rw [hfront] at hnil
    rw [List.head?_eq_none_iff.mp hnil.symm]
    rfl
  | some b =>
    obtain ⟨⟨i, hi⟩, hlink⟩ := hok rfl hfirst hpooled b hb
    rw [poolNode, h.rep.pool.nodeAt_eq] at hi
    -- no node follows `b`
    have hend : fs[i + 1]? = none := (h.rep.pool.getElem?_succ hi).symm.trans hlink
    obtain ⟨hlt, -⟩ := List.getElem?_eq_some_iff.mp hi
    rw [List.getElem?_eq_none_iff] at hend
    rw [List.getLast?_eq_getElem?, ← hi]
    congr 1
    omega

theorem books_mqueueRemove (h : Books s as fs xs) (hok : PoolSafe s (.call .remove)) :
    ∃ as' fs' xs', Books ⟨(mqueueRemove s.q).1, s.freed ++ callFrees s.q .remove⟩ as' fs' xs' := by
  cases as with
  | nil =>
    have hfirst : s.q.first = none := h.rep.chain
    refine ⟨[], fs, xs, ?_⟩
    have hremove : mqueueRemove s.q = (s.q, none) := by
      unfold mqueueRemove
      rw [hfirst]
    have hfrees : callFrees s.q .remove = [] := by
      unfold callFrees
      rw [hfirst]
    rw [hremove, hfrees, List.append_nil]
    exact h
  | cons a as =>
    cases xs with
    | nil => cases h.rep.length
    | cons x xs =>
      have hfirst : s.q.first = some a := h.rep.chain.1
      have hfs : a ∉ fs := fun hmem => h.rep.apart a hmem (List.mem_cons_self ..)
      have hback : Pooled s.q → s.q.bufBack = fs.getLast? :=
        PoolSafe.back h hok (by rw [hfirst]; exact Option.some_ne_none a)
      have hbehind : Represents (unqueue s.q a) as fs xs := h.rep.behind
      have hnot : ∀ b, s.q.bufBack = some b → Pooled s.q → b ∉ as := by
        intro b hb hpooled hmem
        rw [hback hpooled] at hb
        exact h.rep.apart b (List.mem_of_getLast? hb) (List.mem_cons_of_mem a hmem)
      obtain ⟨fs', r⟩ := represents_mqueueFreeItem hbehind (List.nodup_cons.mp h.rep.chain.nodup).1
        hfs (h.rep.bound a (Or.inl (List.mem_cons_self ..)))
        fun hinit hroom b hb => hnot b hb ⟨hinit, hroom⟩
      have hpool := pool_mqueueFreeItem hbehind.pool hfs hback
      obtain rfl := r.pool.unique hpool
      obtain ⟨hremove, hfrees⟩ := mqueueRemove_unqueue hfirst
      rw [hremove, hfrees]
      refine ⟨as, _, xs, r, ?_, front_mqueueFreeItem h.front⟩
      dsimp only
      rw [mqueueFreeItem_brk]
      refine List.Perm.trans ?_ h.nodes
      by_cases hpooled : Pooled s.q
      · have hpooled' : Pooled (unqueue s.q a) := hpooled
        rw [if_pos hpooled, if_pos hpooled', List.append_nil, ← List.append_assoc]
        exact (List.perm_append_singleton a (as ++ fs)).append_right s.freed
      · have hpooled' : ¬ Pooled (unqueue s.q a) := hpooled
        rw [if_neg hpooled, if_neg hpooled', ← List.append_assoc]
        exact List.perm_append_singleton a (as ++ fs ++ s.freed)

/-- A node that is put back in the wrong place is lost. -/
theorem not_accounted_mqueueRemove (h : Books s as fs xs) (hbad : ¬ PoolSafe s (.call .remove)) :
    ¬ Accounted ⟨(mqueueRemove s.q).1, s.freed ++ callFrees s.q .remove⟩ := by
  simp only [PoolSafe, Classical.not_imp, not_forall] at hbad
  obtain ⟨-, hfirst, hpooled, b, hb, hnot⟩ := hbad
  obtain ⟨a, hfirst⟩ := Option.ne_none_iff_exists'.mp hfirst
  obtain ⟨hremove, hfrees⟩ := mqueueRemove_unqueue hfirst
  rw [if_pos hpooled] at hfrees
  have hpooled' : Pooled (unqueue s.q a) := hpooled
  have hb' : (unqueue s.q a).bufBack = some b := hb
  have hmem : a ∈ as := by
    have hhead := h.rep.chain.head?
    rw [hfirst] at hhead
    exact List.mem_of_head? hhead.symm
  have hfs : a ∉ fs := fun hmem' => h.rep.apart a hmem' hmem
  intro hacc
  obtain ⟨as', fs', xs', r, hperm⟩ := hacc.nodes
  rw [hfrees, List.append_nil] at hperm
  simp only [hremove] at r hperm
  -- as many nodes are queued as `count` says, so the pool has one more
  have hcount : as'.length + 1 = as.length := by
    have hcount := r.count
    rw [mqueueFreeItem_count_eq] at hcount
    have hold := h.rep.count
    have hdown : (unqueue s.q a).count = s.q.count - 1 := rfl
    omega
  have hlen : fs'.length = fs.length + 1 := by
    have hnew := hperm.length_eq
    have hold := h.nodes.length_eq
    rw [mqueueFreeItem_brk] at hnew
    have hbrk : (unqueue s.q a).brk = s.q.brk := rfl
    simp only [List.length_append, List.length_range] at hnew hold
    omega
  obtain ⟨hlinks, hfront⟩ := links_of_pooled a hpooled' hb'
  have hpath := r.pool
  rw [hlinks, hfront] at hpath
  have hlast : fs.getLast? = some b := h.rep.pool.getLast?_of_release hfs hpath hlen
  obtain ⟨l, rfl⟩ := List.getLast?_eq_some_iff.mp hlast
  refine hnot ⟨⟨l.length, ?_⟩, h.rep.pool.tail⟩
  rw [poolNode, h.rep.pool.nodeAt_eq, List.getElem?_concat_length]

/-! ## Peeking -/

theorem mqueueWalk_eq_some (n : Nat) :
    ∀ {q q' : Mqueue α}, mqueueWalk n q = some q' →
      ∃ index indexed, q' = { q with index := index, indexed := indexed } := by
  induction n with
  | zero =>
    intro q q' h
    exact ⟨q.index, q.indexed, (Option.some.inj h).symm⟩
  | succ n ih =>
    intro q q' h
    unfold mqueueWalk at h
    split at h
    · cases h
    · obtain ⟨index, indexed, rfl⟩ := ih h
      exact ⟨index, indexed, rfl⟩

/-- Peeking moves the cursor and nothing else. -/
theorem mqueuePeekAtIndex_eq_some {i : Int} {content : Option α}
    (h : mqueuePeekAtIndex q i = some (q', content)) :
    ∃ index indexed, q' = { q with index := index, indexed := indexed } := by
  unfold mqueuePeekAtIndex at h
  split at h
  · dsimp only at h
    split at h
    · cases h
    · rename_i q₁ hwalk
      obtain ⟨index, indexed, heq⟩ := mqueueWalk_eq_some _ hwalk
      split at h
      · cases h
      · obtain ⟨rfl, -⟩ := Prod.mk.inj (Option.some.inj h)
        refine ⟨index, indexed, ?_⟩
        rw [heq]
        split <;> rfl
  · obtain ⟨rfl, -⟩ := Prod.mk.inj (Option.some.inj h)
    exact ⟨q.index, q.indexed, rfl⟩

theorem books_mqueuePeekAtIndex (h : Books s as fs xs) (i : Nat) {content : Option α}
    (hpeek : mqueuePeekAtIndex s.q i = some (q', content)) : Books ⟨q', s.freed⟩ as fs xs := by
  obtain ⟨q'', hpeek', r, -⟩ := represents_mqueuePeekAtIndex h.rep i
  obtain ⟨rfl, -⟩ := Prod.mk.inj (Option.some.inj (hpeek'.symm.trans hpeek))
  obtain ⟨index, indexed, rfl⟩ := mqueuePeekAtIndex_eq_some hpeek
  exact ⟨r, h.nodes, h.front⟩

/-! ## Whole lives -/

/-- **One call.** -/
theorem books_step {op : LedgerOp α} (h : ∃ as fs xs, Books s as fs xs) (hok : PoolSafe s op)
    (hstep : ledgerStep s op = some s') : ∃ as fs xs, Books s' as fs xs := by
  obtain ⟨as, fs, xs, h⟩ := h
  cases op with
  | call op =>
    obtain ⟨⟨q', answer⟩, hcall, rfl⟩ := Option.map_eq_some_iff.mp hstep
    cases op with
    | add content =>
      obtain ⟨rfl, -⟩ := Prod.mk.inj (Option.some.inj hcall)
      obtain ⟨as', fs', h'⟩ := books_mqueueAdd h content
      exact ⟨as', fs', _, by simpa only [callFrees, List.append_nil] using h'⟩
    | append content =>
      obtain ⟨rfl, -⟩ := Prod.mk.inj (Option.some.inj hcall)
      obtain ⟨as', fs', h'⟩ := books_mqueueAppend h content
      exact ⟨as', fs', _, by simpa only [callFrees, List.append_nil] using h'⟩
    | remove =>
      obtain ⟨rfl, -⟩ := Prod.mk.inj (Option.some.inj hcall)
      exact books_mqueueRemove h hok
    | size =>
      obtain ⟨rfl, -⟩ := Prod.mk.inj (Option.some.inj hcall)
      exact ⟨as, fs, xs, by simpa only [callFrees, List.append_nil] using h⟩
    | peek i =>
      obtain ⟨⟨q'', content⟩, hpeek, hr⟩ := Option.map_eq_some_iff.mp hcall
      obtain ⟨rfl, -⟩ := Prod.mk.inj hr
      have h' := books_mqueuePeekAtIndex h i hpeek
      exact ⟨as, fs, xs, by simpa only [callFrees, List.append_nil] using h'⟩
  | resizeBuffer num =>
    obtain rfl := Option.some.inj hstep
    exact ⟨as, fs, xs, { h.rep with }, h.nodes, h.front⟩
  | downsizeBuffer percent =>
    obtain ⟨⟨q', freed⟩, hdown, rfl⟩ := Option.map_eq_some_iff.mp hstep
    unfold mqueueDownsizeBuffer at hdown
    dsimp only at hdown
    split at hdown
    · cases hdown
    · obtain ⟨fs', h'⟩ := books_mqueueDownsize (s.q.nbuf * percent |>.tdiv 100).toNat h
      rw [Option.some.inj hdown] at h'
      exact ⟨as, fs', xs, h'⟩

theorem not_accounted_step {op : LedgerOp α} (h : ∃ as fs xs, Books s as fs xs)
    (hbad : ¬ PoolSafe s op) (hstep : ledgerStep s op = some s') : ¬ Accounted s' := by
  obtain ⟨as, fs, xs, h⟩ := h
  have hop : op = .call .remove := by
    by_contra hne
    exact hbad fun heq => absurd heq hne
  subst hop
  obtain rfl := Option.some.inj hstep
  exact not_accounted_mqueueRemove h hbad

theorem books_ledgerInit (garbage : Nat → MqueueItem α) (nitems : Int) :
    ∃ as fs xs, Books (ledgerInit garbage nitems) as fs xs := by
  obtain ⟨fs, r, hback, hperm⟩ := pool_mqueueInit garbage nitems
  refine ⟨[], fs, [], r, ?_, ?_⟩
  · simpa only [ledgerInit, List.nil_append, List.append_nil] using hperm
  · intro hnone
    have hnil := hback.symm.trans hnone
    have hfront := r.pool.head?
    rw [List.getLast?_eq_none_iff.mp hnil] at hfront
    exact hfront

/-- **Accounting.** Along every sequence of calls on a new queue, the memory
is in order exactly if every node that goes back to the pool finds
`buf_back` at NULL or on the last node of the pool. -/
theorem accounted_iff (garbage : Nat → MqueueItem α) (nitems : Int) (ops : List (LedgerOp α)) :
    Throughout ledgerStep Accounted (ledgerInit garbage nitems) ops
      ↔ Guarded ledgerStep PoolSafe (ledgerInit garbage nitems) ops :=
  throughout_iff_of_invariant (fun _ ⟨_, _, _, h⟩ => h.accounted)
    (fun _ _ _ => books_step) (fun _ _ _ => not_accounted_step)
    (books_ledgerInit garbage nitems)

end Rms.Util
