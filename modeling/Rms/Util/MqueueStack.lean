/-
Rms.Util.MqueueStack — a queue with a pool that is used as a stack.

`mqueue_free_item` links a node behind `buf_back` and leaves `buf_back`
where it is. Between `mqueue_append` and `mqueue_remove` the node it is on
may come to lie in the middle of the queue, and the next removal writes
into it (`MqueueRefinement`). Without `mqueue_append` this cannot happen:
at most one node of the pool is behind `buf_back`, so when the node of
`buf_back` itself is taken, for the front of the queue, one more
`mqueue_add` empties the pool and sets `buf_back` to NULL, and a removal
before that takes the same node away again. `Stacked` is this invariant.

The pool of such a queue still loses nodes (`MqueueLedger`), but its
answers are those of the list. The buffer queue of the daemon is one:
`alloc_msg` removes and `release_msg` adds.
-/
import Rms.Util.MqueueLedger

namespace Rms.Util

open Rms.Chains Rms.Runs

variable {α : Type*} {q : Mqueue α} {as fs fs' : List Nat} {xs : List α} {b item : Nat}

/-- The queue holds `xs`, and `buf_back` is on none of its nodes but the
first; then the pool has one node at most. -/
structure Stacked (q : Mqueue α) (as fs : List Nat) (xs : List α) : Prop where
  rep : Represents q as fs xs
  pooled : ∀ b, q.bufBack = some b → q.init ≠ 0
  queued : ∀ b, q.bufBack = some b → b ∉ as.tail
  first : ∀ b, q.bufBack = some b → as.head? = some b → fs.length ≤ 1
  behind : ∀ b l r, q.bufBack = some b → fs = l ++ b :: r → r.length ≤ 1

/-- `buf_back` is on no node of the queue. -/
theorem Stacked.of_not_mem (r : Represents q as fs xs)
    (hpooled : ∀ b, q.bufBack = some b → q.init ≠ 0) (hnot : ∀ b, q.bufBack = some b → b ∉ as)
    (hbehind : ∀ b l r, q.bufBack = some b → fs = l ++ b :: r → r.length ≤ 1) :
    Stacked q as fs xs where
  rep := r
  pooled := hpooled
  queued := fun b hb hmem => hnot b hb (List.mem_of_mem_tail hmem)
  first := fun b hb hhead => absurd (List.mem_of_head? hhead) (hnot b hb)
  behind := hbehind

theorem Stacked.releaseSafe (h : Stacked q as fs xs) : ReleaseSafe q .remove := by
  intro _ _ i _ _ hnode
  cases hb : q.bufBack with
  | none => contradiction
  | some b =>
    rw [hb, h.rep.node, ← List.getElem?_tail] at hnode
    exact h.queued b hb (List.mem_of_getElem? hnode)

/-! ## `mqueue_add` -/

/-- If `buf_back` is not NULL after a call of `mqueue_add`, the node came
from the pool and was not its last one. -/
theorem back_mqueueAdd (h : Stacked q as fs xs) {content : α}
    (hb : (mqueueAdd q content).bufBack = some b) :
    q.bufBack = some b ∧ (mqueueAdd q content).bufFront ≠ none
      ∧ (mqueueAdd q content).brk = q.brk := by
  have hbrk : (mqueueAdd q content).brk = (mqueueAllocItem q).1.brk := by
    unfold mqueueAdd
    dsimp only
    split <;> rfl
  obtain ⟨hback, hfront⟩ := mqueueAdd_pool q content
  rw [hback] at hb
  rw [hfront, hbrk]
  unfold mqueueAllocItem at hb ⊢
  split at hb
  · dsimp only at hb ⊢
    split at hb
    · cases hb
    · exact ⟨hb, ‹_›, rfl⟩
  · rename_i hheap
    -- `malloc` is called without a pool or with an empty one
    have hb' : q.bufBack = some b := hb
    cases hfront : q.bufFront with
    | none =>
      rw [h.rep.back hfront] at hb'
      cases hb'
    | some item => exact absurd hfront (hheap item (decide_eq_true (h.pooled b hb')))

theorem Taken.eq_cons {brk : Nat} (h : Taken brk fs item fs' brk) : fs = item :: fs' := by
  cases h with
  | pool hfs => exact hfs

theorem stacked_mqueueAdd (h : Stacked q as fs xs) (content : α) :
    ∃ as' fs', Stacked (mqueueAdd q content) as' fs' (content :: xs) := by
  obtain ⟨item, fs', r, htaken⟩ := taken_mqueueAdd h.rep content
  have hpool : ∀ b, (mqueueAdd q content).bufBack = some b →
      q.bufBack = some b ∧ fs = item :: fs' ∧ fs' ≠ [] := by
    intro b hb
    obtain ⟨hback, hfront, hbrk⟩ := back_mqueueAdd h hb
    rw [hbrk] at htaken
    refine ⟨hback, htaken.eq_cons, ?_⟩
    rintro rfl
    exact hfront r.pool
  refine ⟨item :: as, fs', r, ?_, ?_, ?_, ?_⟩
  · intro b hb
    rw [mqueueAdd_init]
    exact h.pooled b (hpool b hb).1
  · intro b hb hmem
    obtain ⟨hback, rfl, hne⟩ := hpool b hb
    -- only the first node can be the one, and the pool was too long for that
    cases as with
    | nil => cases hmem
    | cons a as =>
      rcases List.mem_cons.mp hmem with rfl | hmem
      · have hlen := h.first b hback rfl
        rw [List.length_cons] at hlen
        exact hne (List.length_eq_zero_iff.mp (by omega))
      · exact h.queued b hback hmem
  · intro b hb hhead
    obtain ⟨hback, rfl, -⟩ := hpool b hb
    obtain rfl : item = b := Option.some.inj hhead
    exact h.behind item [] fs' hback rfl
  · rintro b l rest hb rfl
    obtain ⟨hback, rfl, -⟩ := hpool b hb
    exact h.behind b (item :: l) rest hback rfl

/-! ## `mqueue_remove` -/

/-- Putting a node into a pool without a back pointer: it is all of the pool. -/
theorem mqueueFreeItem_none (item : Nat) (hpooled : Pooled q) (hb : q.bufBack = none) :
    mqueueFreeItem q item = { q.setNext item none with
      bufFront := some item, bufBack := some item, nbuf := q.nbuf + 1 } := by
  unfold mqueueFreeItem
  dsimp only
  have hback : (q.setNext item none).bufBack = none := hb
  rw [if_pos (by exact hpooled)]
  simp only [hback]
  rfl

/-- Otherwise the back pointer stays. -/
theorem mqueueFreeItem_back (item : Nat) (hb : Pooled q → q.bufBack ≠ none) :
    (mqueueFreeItem q item).bufBack = q.bufBack := by
  unfold mqueueFreeItem
  dsimp only
  split
  · rename_i hpooled
    split
    · rfl
    · exact absurd ‹_› (hb hpooled)
  · rfl

/-- The pool behind the back pointer once a node was linked behind it. -/
theorem behind_of_pooled {l r : List Nat} (hpooled : Pooled q) (hb : q.bufBack = some b)
    (hpath : Path (links (mqueueFreeItem q item)) (mqueueFreeItem q item).bufFront
      (l ++ b :: r) none) : r.length ≤ 1 := by
  obtain ⟨hlinks, -⟩ := links_of_pooled item hpooled hb
  have hnodup := (List.nodup_append.mp hpath.nodup).2.1
  have hrest := hpath.tail
  rw [hlinks, Function.update_self] at hrest
  cases r with
  | nil => exact Nat.zero_le 1
  | cons a r =>
    obtain ⟨ha, hrest⟩ := hrest
    obtain rfl : item = a := Option.some.inj ha
    have hne : item ≠ b := by
      rintro rfl
      exact (List.nodup_cons.mp hnodup).1 (List.mem_cons_self ..)
    rw [Function.update_of_ne hne, Function.update_self] at hrest
    cases r with
    | nil => exact Nat.le_refl 1
    | cons a r => cases hrest.1

/-- Freeing a node that is on no chain. -/
theorem stacked_mqueueFreeItem (r : Represents q as fs xs) (has : item ∉ as) (hfs : item ∉ fs)
    (hbrk : item < q.brk) (hpooled : ∀ b, q.bufBack = some b → q.init ≠ 0)
    (hnot : ∀ b, q.bufBack = some b → b ∉ as)
    (hbehind : ∀ b l r, q.bufBack = some b → fs = l ++ b :: r → r.length ≤ 1) :
    ∃ fs', Stacked (mqueueFreeItem q item) as fs' xs := by
  obtain ⟨fs', r'⟩ := represents_mqueueFreeItem r has hfs hbrk fun _ _ => hnot
  refine ⟨fs', ?_⟩
  by_cases hnew : Pooled q ∧ q.bufBack = none
  · -- the node is the whole pool
    obtain ⟨hpool, hnone⟩ := hnew
    have heq := mqueueFreeItem_none item hpool hnone
    rw [heq] at r' ⊢
    have hone : fs' = [item] := by
      refine r'.pool.unique ⟨rfl, ?_⟩
      show links (q.setNext item none) item = none
      rw [links_setNext, Function.update_self]
    refine .of_not_mem r' (fun _ _ => hpool.1) ?_ ?_
    · intro b hb
      obtain rfl : item = b := Option.some.inj hb
      exact has
    · rintro b l rest - rfl
      have hlen := congrArg List.length hone
      simp only [List.length_append, List.length_cons, List.length_nil] at hlen
      omega
  · have hback := mqueueFreeItem_back item fun hpool hnone => hnew ⟨hpool, hnone⟩
    refine .of_not_mem r' ?_ ?_ ?_
    · intro b hb
      rw [mqueueFreeItem_init]
      exact hpooled b (hback.symm.trans hb)
    · exact fun b hb => hnot b (hback.symm.trans hb)
    · rintro b l rest hb rfl
      rw [hback] at hb
      by_cases hpool : Pooled q
      · exact behind_of_pooled hpool hb r'.pool
      · have hsame := pool_mqueueFreeItem r.pool hfs fun h => absurd h hpool
        rw [if_neg hpool] at hsame
        exact hbehind b l rest hb (hsame.unique r'.pool)

theorem stacked_mqueueRemove (h : Stacked q as fs xs) :
    (mqueueRemove q).2 = xs.head? ∧ ∃ as' fs', Stacked (mqueueRemove q).1 as' fs' xs.tail := by
  refine ⟨(represents_mqueueRemove h.rep h.releaseSafe).1, ?_⟩
  cases as with
  | nil =>
    have hxs : xs = [] := List.length_eq_zero_iff.mp h.rep.length.symm
    have hfirst : q.first = none := h.rep.chain
    have heq : mqueueRemove q = (q, none) := by
      unfold mqueueRemove
      rw [hfirst]
    subst hxs
    rw [heq]
    exact ⟨[], fs, h⟩
  | cons a as =>
    cases xs with
    | nil => cases h.rep.length
    | cons x xs =>
      rw [(mqueueRemove_unqueue h.rep.chain.1).1]
      refine ⟨as, stacked_mqueueFreeItem h.rep.behind (List.nodup_cons.mp h.rep.chain.nodup).1 ?_ ?_
        h.pooled h.queued h.behind⟩
      · exact fun hmem => h.rep.apart a hmem (List.mem_cons_self ..)
      · exact h.rep.bound a (Or.inl (List.mem_cons_self ..))

/-! ## Whole runs -/

theorem mqueueInitPool_init (n : Nat) :
    ∀ (back : Nat) (q : Mqueue α), (mqueueInitPool n back q).init = q.init := by
  induction n with
  | zero => exact fun _ _ => rfl
  | succ n ih => exact fun _ _ => ih _ _

theorem stacked_mqueueInit (garbage : Nat → MqueueItem α) (nitems : Int) :
    ∃ fs, Stacked (mqueueInit garbage nitems) [] fs [] := by
  obtain ⟨fs, r, hlast, -⟩ := pool_mqueueInit garbage nitems
  refine ⟨fs, .of_not_mem r ?_ (fun _ _ h => nomatch h) ?_⟩
  · intro b hb
    unfold mqueueInit at hb ⊢
    dsimp only at hb ⊢
    split at hb
    · rename_i hinit
      rw [if_pos hinit, mqueueInitPool_init]
      exact hinit
    · cases hb
  · rintro b l rest hb rfl
    rw [hlast, List.getLast?_append_of_ne_nil _ (List.cons_ne_nil b rest)] at hb
    cases rest with
    | nil => exact Nat.zero_le 1
    | cons a rest =>
      rw [List.getLast?_cons_cons] at hb
      have hnodup := (List.nodup_append.mp r.pool.nodup).2.1
      exact absurd (List.mem_of_getLast? hb) (List.nodup_cons.mp hnodup).1

/-- **One call.** It answers as the list does, unless it appends. -/
theorem stacked_mqueueStep (q : Mqueue α) (xs : List α) (op : MqueueOp α)
    (h : ∃ as fs, Stacked q as fs xs) (hop : ∀ content, op ≠ .append content) :
    ∃ q', mqueueStep q op = some (q', (listStep xs op).2)
      ∧ ∃ as fs, Stacked q' as fs (listStep xs op).1 := by
  obtain ⟨as, fs, h⟩ := h
  cases op with
  | add content => exact ⟨_, rfl, stacked_mqueueAdd h content⟩
  | append content => exact absurd rfl (hop content)
  | remove =>
    obtain ⟨hretval, h'⟩ := stacked_mqueueRemove h
    refine ⟨_, ?_, h'⟩
    show some (_, MqueueAnswer.item _) = some (_, MqueueAnswer.item _)
    rw [hretval]
  | size =>
    refine ⟨q, ?_, as, fs, h⟩
    show some (q, MqueueAnswer.size q.count) = some (q, MqueueAnswer.size xs.length)
    rw [h.rep.count, h.rep.length]
  | peek i =>
    obtain ⟨q', hpeek, r, -⟩ := represents_mqueuePeekAtIndex h.rep i
    obtain ⟨index, indexed, rfl⟩ := mqueuePeekAtIndex_eq_some hpeek
    refine ⟨_, ?_, as, fs, r, h.pooled, h.queued, h.first, h.behind⟩
    show (mqueuePeekAtIndex q i).map _ = _
    rw [hpeek]
    rfl

/-- **A queue that is used as a stack.** Whatever pool it has, it answers
every sequence of calls without `mqueue_append` as the list does. -/
theorem mqueue_pool_stack (garbage : Nat → MqueueItem α) (nitems : Int) (ops : List (MqueueOp α))
    (hops : ∀ op ∈ ops, ∀ content, op ≠ .append content) :
    answers mqueueStep (mqueueInit garbage nitems) ops = some (replies listStep [] ops) := by
  obtain ⟨fs, h⟩ := stacked_mqueueInit garbage nitems
  exact (answers_eq_of_simulation (R := fun q xs => ∃ as fs, Stacked q as fs xs)
    stacked_mqueueStep ⟨[], fs, h⟩ (checked_of_forall_mem hops)).1

-- the third removal finds `buf_back` on the node it takes
example : answers mqueueStep (mqueueInit blank 1)
      [.add 1, .add 2, .add 3, .remove, .remove, .add 4, .remove, .remove, .remove, .size]
    = some [.done, .done, .done, .item (some 3), .item (some 2), .done, .item (some 4),
        .item (some 1), .item none, .size 0] := by
  decide +kernel

end Rms.Util
