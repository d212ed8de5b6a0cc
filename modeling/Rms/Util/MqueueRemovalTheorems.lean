/-
Rms.Util.MqueueRemovalTheorems — removing from inside the queue of
`lib/util/mqueue.c`.

`mqueue_remove_at_index` walks to the node in question and then sets
`indexed` back to the first node, before it unlinks. So whatever the
index, the first node is handed out and freed, and the cursor stays on
it. No queue survives this: after one more append, either the cursor
leads nowhere or the appended element is out of reach
(`mqueueRemoveAtIndex_never`).

`mqueue_remove_item` looks for the element in order and stops at the last
node without looking at it. It passes on the first position of the
element exactly if that is not the last one, and where it finds nothing
it returns a variable that was never set (`mqueueRemoveItem_iff`).
-/
import Rms.Util.MqueueRefinement

namespace Rms.Util

open Rms.Chains Rms.Runs

variable {α : Type*} {q : Mqueue α} {as fs : List Nat} {xs : List α} {a i : Nat}

/-! ## By index -/

/-- What a removal by index leaves behind: the first node `a` is cut off
and the cursor is on it. -/
structure FirstFreed (q : Mqueue α) (a : Nat) (q' : Mqueue α) : Prop where
  init : q'.init = q.init
  index : q'.index = 0
  indexed : q'.indexed = some a
  cut : links q' a = none
  last : q'.last = q.last
  brk : q'.brk = q.brk
  count : q'.count = q.count - 1

/-- The first node is freed, whatever the index. -/
theorem mqueueRemoveAtIndex_eq (r : Represents q (a :: as) fs xs) (hinit : q.init = 0)
    (hi : i < (a :: as).length) :
    ∃ q', mqueueRemoveAtIndex q i = some (q', contentOf q a) ∧ FirstFreed q a q'
      ∧ (i = 0 → q'.first = links q a) := by
  have hcount : (i : Int) < q.count := by
    rw [r.count]
    omega
  have hnode : mqueueNode q (0 + i) ≠ none := by
    rw [Nat.zero_add, r.node, List.getElem?_eq_getElem hi]
    exact Option.some_ne_none _
  obtain ⟨⟨indexed, prev⟩, hwalk⟩ :=
    Option.isSome_iff_exists.mp (mqueueWalkPrev_isSome i (j := 0) none hnode)
  have hwalk' : mqueueWalkPrev q i (some a) none = some (indexed, prev) := by
    rw [← r.chain.1]
    exact hwalk
  unfold mqueueRemoveAtIndex
  simp only [if_pos hcount, Int.toNat_natCast, hwalk', r.chain.1]
  cases prev with
  | none =>
    dsimp only
    rw [mqueueFreeItem_eq (by exact hinit)]
    refine ⟨_, rfl, ⟨rfl, rfl, rfl, ?_, rfl, rfl, rfl⟩, fun _ => rfl⟩
    simp [links, Mqueue.setNext]
  | some p =>
    dsimp only
    rw [mqueueFreeItem_eq (by exact hinit)]
    refine ⟨_, congrArg some (Prod.ext rfl ?_), ⟨rfl, rfl, rfl, ?_, rfl, rfl, rfl⟩, ?_⟩
    · exact congrFun (contentOf_setNext _ p _) a
    · simp [links, Mqueue.setNext]
    · -- only a walk of no link remembers no node
      rintro rfl
      simp [mqueueWalkPrev] at hwalk'

/-- With the cursor on a node that was cut off, peeking behind it follows a
NULL link. -/
theorem mqueuePeekAtIndex_append_cut {last : Nat} (hinit : q.init = 0) (hindex : q.index = 0)
    (hindexed : q.indexed = some a) (hcut : links q a = none) (hlast : q.last = some last)
    (hne : a ≠ last) (hfresh : a ≠ q.brk) (hcount : 1 ≤ q.count) (content : α) :
    mqueuePeekAtIndex (mqueueAppend q content) 1 = none := by
  have hnext : (q.items a).next = none := hcut
  have hlt : (1 : Int) < q.count + 1 := by omega
  unfold mqueueAppend
  rw [mqueueAllocItem_eq hinit]
  simp only [Mqueue.malloc, Mqueue.setContent, Mqueue.setNext, hlast, mqueuePeekAtIndex, if_pos hlt,
    hindex]
  simp [mqueueWalk, hindexed, hne, hfresh, hnext]

/-- The queue answers every sequence of calls as the list does. -/
def AnswersAs (q : Mqueue α) (xs : List α) : Prop :=
  ∀ ops : List (MqueueOp α), answers mqueueStep q ops = some (replies listStep xs ops)

/-- Calls that tell what is left from the list it should be. -/
def probe (content : α) : List (MqueueOp α) := [.append content, .peek 1, .remove]

/-- Two or more elements: the peek has no answer. -/
theorem FirstFreed.not_answersAs {q' : Mqueue α} {last : Nat} {l : List α} (f : FirstFreed q a q')
    (hinit : q.init = 0) (hlast : q.last = some last) (hne : a ≠ last) (hfresh : a ≠ q.brk)
    (hcount : 2 ≤ q.count) (content : α) : ¬ AnswersAs q' l := by
  intro h
  have hpeek := mqueuePeekAtIndex_append_cut (f.init.trans hinit) f.index f.indexed f.cut
    (f.last.trans hlast) hne (by rw [f.brk]; exact hfresh) (by rw [f.count]; omega) content
  have hanswers := h (probe content)
  simp [probe, answers, mqueueStep, hpeek] at hanswers

/-- The only element: an appended one is behind the node that was freed, and
`first` does not lead there. -/
theorem FirstFreed.not_answersAs_only {q' : Mqueue α} (f : FirstFreed q a q') (hinit : q.init = 0)
    (hlast : q.last = some a) (hnull : q'.first = none) (hcount : q.count = 1) (content : α) :
    ¬ AnswersAs q' [] := by
  have hlast' : q'.last = some a := f.last.trans hlast
  have hcount' : q'.count = 0 := by
    rw [f.count, hcount]
    rfl
  have happend : (mqueueAppend q' content).first = none ∧ (mqueueAppend q' content).count = 1 := by
    unfold mqueueAppend
    rw [mqueueAllocItem_eq (f.init.trans hinit)]
    simp [Mqueue.malloc, Mqueue.setContent, Mqueue.setNext, hlast', hnull, hcount']
  intro h
  have hprobe := h (probe content)
  simp [probe, answers, replies, mqueueStep, listStep, mqueuePeekAtIndex, mqueueRemove,
    happend.1, happend.2] at hprobe

/-- **Removal by index.** On every queue and at every index the first
element is returned, and what is left stands for no list: neither is it
the list without the element, nor do the later calls answer as on it. -/
theorem mqueueRemoveAtIndex_never (r : Represents q as fs xs) (hinit : q.init = 0)
    (hi : i < xs.length) :
    ∃ q', mqueueRemoveAtIndex q i = some (q', xs.head?)
      ∧ (¬ ∃ as' fs', Represents q' as' fs' (xs.eraseIdx i))
      ∧ ¬ AnswersAs q' (xs.eraseIdx i) := by
  cases as with
  | nil =>
    have hlen := r.length
    simp at hlen
    omega
  | cons a as =>
    cases xs with
    | nil => cases r.length
    | cons x xs =>
      obtain ⟨q', hremove, f, hfirst⟩ :=
        mqueueRemoveAtIndex_eq r hinit (by rw [r.length]; exact hi)
      have hanswers : ¬ AnswersAs q' ((x :: xs).eraseIdx i) := by
        cases as with
        | nil =>
          obtain rfl : xs = [] := List.length_eq_zero_iff.mp (Nat.succ.inj r.length).symm
          obtain rfl : i = 0 := by
            simp at hi
            exact hi
          have hcount : q.count = 1 := r.count
          exact f.not_answersAs_only hinit r.last ((hfirst rfl).trans r.chain.2) hcount x
        | cons b as =>
          have hlast : q.last = some ((b :: as).getLast (List.cons_ne_nil b as)) := by
            rw [r.last, List.getLast?_cons_cons, List.getLast?_eq_getLast_of_ne_nil]
          have hne : a ≠ (b :: as).getLast (List.cons_ne_nil b as) := by
            intro heq
            exact (List.nodup_cons.mp r.chain.nodup).1 (heq ▸ List.getLast_mem _)
          refine f.not_answersAs hinit hlast hne
            (Nat.ne_of_lt (r.bound a (.inl (List.mem_cons_self ..)))) ?_ x
          rw [r.count]
          simp only [List.length_cons]
          omega
      refine ⟨q', ?_, ?_, hanswers⟩
      · rw [hremove, (List.cons.inj r.contents).1]
        rfl
      · rintro ⟨as', fs', r'⟩
        exact hanswers fun ops => (r'.simulation (f.init.trans hinit) ops).1

/-- A queue of 1, 2 and 3. -/
def threeQueued : Mqueue Nat :=
  mqueueAppend (mqueueAppend (mqueueAppend (mqueueInit blank 0) 1) 2) 3

theorem represents_threeQueued : ∃ as fs, Represents threeQueued as fs [1, 2, 3] := by
  obtain ⟨fs₀, r₀⟩ := represents_mqueueInit blank 0
  obtain ⟨as₁, fs₁, r₁⟩ := represents_mqueueAppend r₀ 1
  obtain ⟨as₂, fs₂, r₂⟩ := represents_mqueueAppend r₁ 2
  exact represents_mqueueAppend r₂ 3

theorem mqueueRemoveAtIndex_never_three :
    threeQueued.init = 0 ∧ 1 < [1, 2, 3].length ∧
      ∃ q', mqueueRemoveAtIndex threeQueued 1 = some (q', some 1)
        ∧ (¬ ∃ as' fs', Represents q' as' fs' [1, 3]) ∧ ¬ AnswersAs q' [1, 3] := by
  obtain ⟨as, fs, r⟩ := represents_threeQueued
  exact ⟨rfl, by decide, mqueueRemoveAtIndex_never r rfl (i := 1) (by decide)⟩

/-- The removal at index 1 hands out 1, which then comes out once more, and
3 is lost. -/
theorem mqueueRemoveAtIndex_fails :
    (mqueueRemoveAtIndex threeQueued 1).map Prod.snd = some (some 1)
      ∧ ((mqueueRemoveAtIndex threeQueued 1).bind fun r =>
          answers mqueueStep r.1 [.size, .remove, .remove])
        = some [.size 2, .item (some 1), .item none]
      ∧ replies listStep ([1, 2, 3].eraseIdx 1) [.size, .remove, .remove]
        = [.size 2, .item (some 1), .item (some 3)] := by
  decide +kernel

/-! ## By content -/

section Content

variable [DecidableEq α] {c : α}

/-- What a removal by content should do: pass the first position of the
element to `mqueue_remove_at_index`, and remove nothing and return NULL
if there is none. -/
structure RemovesItem (q : Mqueue α) (xs : List α) (c : α) : Prop where
  found : c ∈ xs → mqueueSearch q c (q.brk + 1) q.first 0 = some (some (xs.idxOf c : Int))
    ∧ mqueueRemoveItem q c = (mqueueRemoveAtIndex q (xs.idxOf c)).map fun r =>
        ({ r.1 with index := 0, indexed := r.1.first }, some r.2)
  absent : c ∉ xs → ∃ q', mqueueRemoveItem q c = some (q', some none)
    ∧ ∃ as fs, Represents q' as fs xs

/-- An element that the search does not look at: nothing is returned. -/
theorem mqueueRemoveItem_unassigned (r : Represents q as fs xs) (hc : c ∉ xs.dropLast) :
    mqueueSearch q c (q.brk + 1) q.first 0 = some none
      ∧ mqueueRemoveItem q c = some ({ q with index := 0, indexed := q.first }, none) := by
  have hsearch := r.search_eq c
  rw [List.idxOf?_eq_none_iff.mpr hc] at hsearch
  refine ⟨hsearch, ?_⟩
  unfold mqueueRemoveItem
  rw [hsearch]
  rfl

theorem mqueueRemoveItem_found (r : Represents q as fs xs) (hc : c ∈ xs.dropLast) :
    mqueueSearch q c (q.brk + 1) q.first 0 = some (some (xs.idxOf c : Int)) := by
  have hne : xs ≠ [] := by
    rintro rfl
    cases hc
  have hidx : xs.idxOf c = xs.dropLast.idxOf c := by
    conv_lhs => rw [← List.dropLast_append_getLast hne]
    exact List.idxOf_append_of_mem hc
  obtain ⟨k, hk⟩ := Option.isSome_iff_exists.mp (List.isSome_idxOf?.mpr hc)
  rw [r.search_eq, hidx, List.idxOf_eq_getD_idxOf?, hk]
  rfl

/-- **Removal by content.** It does what it should exactly for the elements
that occur before the last position. -/
theorem mqueueRemoveItem_iff (r : Represents q as fs xs) (c : α) :
    RemovesItem q xs c ↔ c ∈ xs.dropLast := by
  constructor
  · intro h
    by_contra hc
    obtain ⟨hsearch, hremove⟩ := mqueueRemoveItem_unassigned r hc
    by_cases hmem : c ∈ xs
    · have hfound := (h.found hmem).1
      rw [hsearch] at hfound
      cases hfound
    · obtain ⟨q', hnull, -⟩ := h.absent hmem
      rw [hremove] at hnull
      cases hnull
  · intro hc
    have hsearch := mqueueRemoveItem_found r hc
    refine ⟨fun _ => ⟨hsearch, ?_⟩, fun hmem => absurd (List.dropLast_subset xs hc) hmem⟩
    simp only [mqueueRemoveItem, hsearch]
    cases mqueueRemoveAtIndex q (xs.idxOf c) with
    | none => rfl
    | some r => rfl

end Content

theorem mqueueRemoveItem_iff_three :
    RemovesItem threeQueued [1, 2, 3] 2 ↔ 2 ∈ [1, 2, 3].dropLast := by
  obtain ⟨as, fs, r⟩ := represents_threeQueued
  exact mqueueRemoveItem_iff r 2

/-- The last element is not found, and neither then nor for an element that
does not occur is a result assigned. -/
theorem mqueueRemoveItem_fails :
    3 ∈ [1, 2, 3] ∧ mqueueSearch threeQueued 3 (threeQueued.brk + 1) threeQueued.first 0 = some none
      ∧ (mqueueRemoveItem threeQueued 3).map Prod.snd = some none
      ∧ (mqueueRemoveItem threeQueued 7).map Prod.snd = some none := by
  decide +kernel

end Rms.Util
