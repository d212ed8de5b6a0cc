/-
Rms.Util.MqueueTheorems — what a loop of `mqueue_peek_at_index` sees.

`mqueueNode q i` is the node `i` links behind the first one, and
`mqueueContent q i` what it holds: the queue read without its cursor.
The cursor is sound (`Cursor`) when the node it is on is the one its
index says; every operation of the queue keeps it sound, the broken
unlinking in `mqueue_remove_at_index` included, because it only ever
damages links. With a sound cursor, peeking at the indices one after the
other reads the contents in order and moves nothing but the cursor
(`mqueuePeeks_spec`).
-/
import Rms.Util.Mqueue

namespace Rms.Util

variable {α : Type*}

/-- The node `i` links behind the first one. -/
def mqueueNode (q : Mqueue α) : Nat → Option Nat
  | 0 => q.first
  | i + 1 => (mqueueNode q i).bind fun a => (q.items a).next

/-- The content of the node at an index. -/
def mqueueContent (q : Mqueue α) (i : Nat) : Option α :=
  (mqueueNode q i).bind fun a => (q.items a).content

/-- A queue without a pool, whose links lead to nodes that were allocated. -/
structure Links (q : Mqueue α) : Prop where
  init : q.init = 0
  first : ∀ a, q.first = some a → a < q.brk
  next : ∀ a b, (q.items a).next = some b → a < q.brk → b < q.brk

/-- The cursor is on the node that its index says. -/
structure Cursor (q : Mqueue α) : Prop extends Links q where
  index : 0 ≤ q.index
  indexed : q.indexed = mqueueNode q q.index.toNat

/-- The queue with its cursor on the node at an index. -/
def cursorAt (q : Mqueue α) (i : Nat) : Mqueue α :=
  { q with index := i, indexed := mqueueNode q i }

/-! ## Nodes -/

theorem mqueueNode_congr {q q' : Mqueue α} (hfirst : q'.first = q.first)
    (hitems : q'.items = q.items) (i : Nat) : mqueueNode q' i = mqueueNode q i := by
  induction i with
  | zero => exact hfirst
  | succ i ih => rw [mqueueNode, mqueueNode, ih, hitems]

@[simp] theorem mqueueNode_cursorAt (q : Mqueue α) (i j : Nat) :
    mqueueNode (cursorAt q i) j = mqueueNode q j := by
  have hfirst : (cursorAt q i).first = q.first := rfl
  exact mqueueNode_congr hfirst rfl j

@[simp] theorem mqueueContent_cursorAt (q : Mqueue α) (i j : Nat) :
    mqueueContent (cursorAt q i) j = mqueueContent q j := by
  rw [mqueueContent, mqueueNode_cursorAt]
  rfl

theorem cursorAt_cursorAt (q : Mqueue α) (i j : Nat) :
    cursorAt (cursorAt q i) j = cursorAt q j := by
  rw [cursorAt, mqueueNode_cursorAt]
  rfl

theorem Cursor.eq_cursorAt {q : Mqueue α} (c : Cursor q) : q = cursorAt q q.index.toNat := by
  have hindex : ((q.index.toNat : Nat) : Int) = q.index := Int.toNat_of_nonneg c.index
  rw [cursorAt, hindex, ← c.indexed]

theorem Cursor.at {q : Mqueue α} (c : Cursor q) (i : Nat) : Cursor (cursorAt q i) where
  init := c.init
  first := c.first
  next := c.next
  index := Int.natCast_nonneg i
  indexed := by
    show mqueueNode q i = mqueueNode (cursorAt q i) i
    exact (mqueueNode_cursorAt q i i).symm

theorem Cursor.node_lt {q : Mqueue α} (c : Cursor q) {i a : Nat} (h : mqueueNode q i = some a) :
    a < q.brk := by
  induction i generalizing a with
  | zero => exact c.first a h
  | succ i ih =>
    obtain ⟨b, hb, hnext⟩ := Option.bind_eq_some_iff.mp h
    exact c.next b a hnext (ih hb)

/-! ## Peeking -/

theorem mqueueWalk_cursorAt (q : Mqueue α) (n : Nat) :
    ∀ {i : Nat} {q' : Mqueue α}, mqueueWalk n (cursorAt q i) = some q' →
      q' = cursorAt q (i + n) := by
  induction n with
  | zero =>
    intro i q' h
    exact (Option.some.inj h).symm
  | succ n ih =>
    intro i q' h
    cases hnode : mqueueNode q i with
    | none =>
      simp only [mqueueWalk, cursorAt, hnode] at h
      cases h
    | some a =>
      have hnext : mqueueWalk n (cursorAt q (i + 1)) = some q' := by
        simp only [mqueueWalk, cursorAt, hnode] at h
        simpa only [cursorAt, mqueueNode, hnode, Option.bind_some, Int.natCast_add,
          Int.natCast_one] using h
      rw [ih hnext, Nat.add_right_comm, Nat.add_assoc]

/-- Peeking inside the queue reads the content there and leaves the cursor
there. -/
theorem mqueuePeekAtIndex_spec {q q' : Mqueue α} {i : Nat} {content : Option α} (c : Cursor q)
    (hi : (i : Int) < q.count) (h : mqueuePeekAtIndex q i = some (q', content)) :
    q' = cursorAt q i ∧ content = mqueueContent q i := by
  -- both starts of the walk are cursor positions at or before the index
  have hstart : ∃ j ≤ i, (if q.index > (i : Int) then { q with indexed := q.first, index := 0 }
      else q) = cursorAt q j := by
    have hindex := c.index
    split
    · exact ⟨0, Nat.zero_le i, rfl⟩
    · exact ⟨q.index.toNat, by omega, c.eq_cursorAt⟩
  obtain ⟨j, hj, hstart⟩ := hstart
  unfold mqueuePeekAtIndex at h
  rw [if_pos hi] at h
  simp only [hstart] at h
  have hsteps : ((i : Int) - (cursorAt q j).index).toNat = i - j := by
    show ((i : Int) - (j : Int)).toNat = i - j
    omega
  rw [hsteps] at h
  cases hwalk : mqueueWalk (i - j) (cursorAt q j) with
  | none =>
    rw [hwalk] at h
    cases h
  | some q₁ =>
    have hq₁ := mqueueWalk_cursorAt q (i - j) hwalk
    rw [Nat.add_sub_of_le hj] at hq₁
    subst hq₁
    rw [hwalk] at h
    cases hnode : mqueueNode q i with
    | none =>
      simp only [cursorAt, hnode] at h
      cases h
    | some a =>
      simp only [cursorAt, hnode, Option.some.injEq, Prod.mk.injEq] at h
      refine ⟨?_, ?_⟩
      · rw [← h.1, cursorAt, hnode]
      · rw [← h.2, mqueueContent, hnode]
        rfl

/-- A peek leaves the cursor sound wherever it looks. -/
theorem mqueuePeekAtIndex_cursor {q q' : Mqueue α} {i : Nat} {content : Option α} (c : Cursor q)
    (h : mqueuePeekAtIndex q i = some (q', content)) : ∃ j, q' = cursorAt q j := by
  by_cases hi : (i : Int) < q.count
  · exact ⟨i, (mqueuePeekAtIndex_spec c hi h).1⟩
  · unfold mqueuePeekAtIndex at h
    rw [if_neg hi] at h
    obtain ⟨rfl, -⟩ := Prod.mk.inj (Option.some.inj h)
    exact ⟨_, c.eq_cursorAt⟩

theorem mqueuePeeks_cursor (n : Nat) :
    ∀ {i : Nat} {q q' : Mqueue α} {cs : List (Option α)}, Cursor q →
      mqueuePeeks n i q = some (q', cs) → ∃ j, q' = cursorAt q j := by
  induction n with
  | zero =>
    intro i q q' cs c h
    obtain ⟨rfl, -⟩ := Prod.mk.inj (Option.some.inj h)
    exact ⟨_, c.eq_cursorAt⟩
  | succ n ih =>
    intro i q q' cs c h
    unfold mqueuePeeks at h
    split at h
    · cases h
    rename_i q₁ c₁ hpeek
    obtain ⟨j, rfl⟩ := mqueuePeekAtIndex_cursor c hpeek
    split at h
    · cases h
    rename_i q₂ cs₂ hpeeks
    obtain ⟨k, hk⟩ := ih (i := i + 1) (c.at j) hpeeks
    obtain ⟨rfl, -⟩ := Prod.mk.inj (Option.some.inj h)
    exact ⟨k, hk.trans (cursorAt_cursorAt q j k)⟩

/-- **The peek loop.** It reads the contents in order. -/
theorem mqueuePeeks_spec (n : Nat) :
    ∀ {i : Nat} {q q' : Mqueue α} {cs : List (Option α)}, Cursor q →
      ((i + n : Nat) : Int) ≤ q.count → mqueuePeeks n i q = some (q', cs) →
      cs = (List.range' i n).map (mqueueContent q) := by
  induction n with
  | zero =>
    intro i q q' cs _ _ h
    obtain ⟨-, rfl⟩ := Prod.mk.inj (Option.some.inj h)
    rfl
  | succ n ih =>
    intro i q q' cs c hcount h
    unfold mqueuePeeks at h
    split at h
    · cases h
    rename_i q₁ c₁ hpeek
    obtain ⟨rfl, rfl⟩ := mqueuePeekAtIndex_spec c (by omega) hpeek
    split at h
    · cases h
    rename_i q₂ cs₂ hpeeks
    have hrest := ih (i := i + 1) (c.at i) (by show ((i + 1 + n : Nat) : Int) ≤ q.count; omega) hpeeks
    obtain ⟨-, rfl⟩ := Prod.mk.inj (Option.some.inj h)
    rw [hrest, List.range'_succ, List.map_cons]
    exact congrArg (mqueueContent q i :: ·)
      (List.map_congr_left fun j _ => mqueueContent_cursorAt q i j)

/-! ## Adding and removing -/

theorem cursor_mqueueInit (garbage : Nat → MqueueItem α) : Cursor (mqueueInit garbage 0) where
  init := rfl
  first := fun a h => by cases h
  next := fun a b _ ha => absurd ha (Nat.not_lt_zero a)
  index := Int.le_refl 0
  indexed := rfl

theorem mqueueAllocItem_eq {q : Mqueue α} (h : q.init = 0) : mqueueAllocItem q = q.malloc := by
  unfold mqueueAllocItem
  split
  · rename_i hinit _
    exact absurd h (of_decide_eq_true hinit)
  · rfl

/-- A new first node shifts the chain by one. -/
theorem Cursor.shifted {q q' : Mqueue α} (c : Cursor q) (hfirst : q'.first = some q.brk)
    (hnew : (q'.items q.brk).next = q.first)
    (hold : ∀ a < q.brk, q'.items a = q.items a) (i : Nat) :
    mqueueNode q' (i + 1) = mqueueNode q i := by
  induction i with
  | zero =>
    show q'.first.bind (fun a => (q'.items a).next) = q.first
    rw [hfirst]
    exact hnew
  | succ i ih =>
    rw [mqueueNode, ih]
    cases hnode : mqueueNode q i with
    | none =>
      rw [mqueueNode, hnode]
      rfl
    | some a =>
      rw [mqueueNode, hnode, Option.bind_some, Option.bind_some, hold a (c.node_lt hnode)]

/-- A new first node whose link leads somewhere allocated. -/
theorem Links.newNode {q q' : Mqueue α} (l : Links q) (hinit : q'.init = q.init)
    (hbrk : q'.brk = q.brk + 1) (hfirst : q'.first = some q.brk)
    (hnew : ∀ b, (q'.items q.brk).next = some b → b < q.brk)
    (hold : ∀ a < q.brk, q'.items a = q.items a) : Links q' where
  init := hinit.trans l.init
  first := by
    intro a h
    rw [hfirst] at h
    obtain rfl := Option.some.inj h
    rw [hbrk]
    exact Nat.lt_succ_self _
  next := by
    intro a b h ha
    rw [hbrk] at ha ⊢
    rcases Nat.lt_succ_iff_lt_or_eq.mp ha with hlt | rfl
    · rw [hold a hlt] at h
      exact Nat.lt_succ_of_lt (l.next a b h hlt)
    · exact Nat.lt_succ_of_lt (hnew b h)

theorem cursor_mqueueAdd {q : Mqueue α} (c : Cursor q) (content : α) :
    Cursor (mqueueAdd q content) := by
  unfold mqueueAdd
  rw [mqueueAllocItem_eq c.init]
  simp only [Mqueue.malloc, Mqueue.setContent, Mqueue.setNext]
  have hold : ∀ (x y : MqueueItem α) (a : Nat), a < q.brk →
      Function.update (Function.update q.items q.brk x) q.brk y a = q.items a := by
    intro x y a ha
    rw [Function.update_of_ne (Nat.ne_of_lt ha), Function.update_of_ne (Nat.ne_of_lt ha)]
  split
  · -- the queue was taken for empty: the new node is all of it
    refine ⟨c.toLinks.newNode rfl rfl rfl ?_ (hold _ _), Int.le_refl 0, rfl⟩
    intro b h
    simp only [Function.update_self] at h
    cases h
  · have hindex : (q.index + 1).toNat = q.index.toNat + 1 := by
      have := c.index
      omega
    have hold' : ∀ (x y z : MqueueItem α) (a : Nat), a < q.brk →
        Function.update (Function.update (Function.update q.items q.brk x) q.brk y) q.brk z a
          = q.items a := by
      intro x y z a ha
      rw [Function.update_of_ne (Nat.ne_of_lt ha)]
      exact hold x y a ha
    refine ⟨c.toLinks.newNode rfl rfl rfl ?_ (hold' _ _ _),
      Int.add_nonneg c.index (by decide), ?_⟩
    · intro b h
      simp only [Function.update_self] at h
      exact c.first b h
    · simp only [hindex]
      rw [c.shifted rfl (by simp only [Function.update_self]) (hold' _ _ _)]
      exact c.indexed

theorem Links.reset {q : Mqueue α} (l : Links q) :
    Cursor { q with index := 0, indexed := q.first } where
  init := l.init
  first := l.first
  next := l.next
  index := Int.le_refl 0
  indexed := rfl

theorem Links.setNext {q : Mqueue α} (l : Links q) (a : Nat) {link : Option Nat}
    (hlink : ∀ b, link = some b → b < q.brk) : Links (q.setNext a link) where
  init := l.init
  first := l.first
  next := by
    intro x y h hx
    by_cases hxa : x = a
    · subst hxa
      simp only [Mqueue.setNext, Function.update_self] at h
      exact hlink y h
    · simp only [Mqueue.setNext, Function.update_of_ne hxa] at h
      exact l.next x y h hx

theorem mqueueFreeItem_eq {q : Mqueue α} (h : q.init = 0) (item : Nat) :
    mqueueFreeItem q item = q.setNext item none := by
  have hinit : ¬ ((q.setNext item none).init ≠ 0
      ∧ (q.setNext item none).nbuf < 3 * (q.setNext item none).init) := fun hn => hn.1 h
  unfold mqueueFreeItem
  exact if_neg hinit

theorem links_mqueueFreeItem {q : Mqueue α} (l : Links q) (item : Nat) :
    Links (mqueueFreeItem q item) := by
  rw [mqueueFreeItem_eq l.init]
  exact l.setNext item fun b hb => by cases hb

/-- Unlinking leads no link astray, whichever node it works on. -/
theorem links_mqueueRemoveAtIndex {q q' : Mqueue α} {i : Int} {r : Option α} (l : Links q)
    (h : mqueueRemoveAtIndex q i = some (q', r)) : Links q' := by
  unfold mqueueRemoveAtIndex at h
  split at h
  · split at h
    · cases h
    rename_i indexed prev _
    simp only at h
    cases hfirst : q.first with
    | none =>
      simp only [hfirst] at h
      cases h
    | some item =>
      have hnext : ∀ b, (q.items item).next = some b → b < q.brk := fun b hb =>
        l.next item b hb (l.first item hfirst)
      simp only [hfirst] at h
      cases prev with
      | none =>
        have l₁ : Links { q with indexed := some item, index := 0, first := (q.items item).next } :=
          ⟨l.init, hnext, l.next⟩
        have l₂ := links_mqueueFreeItem l₁ item
        obtain ⟨rfl, -⟩ := Prod.mk.inj (Option.some.inj h)
        exact ⟨l₂.init, l₂.first, l₂.next⟩
      | some p =>
        have l₁ : Links { q with first := some item, indexed := some item, index := 0 } :=
          ⟨l.init, hfirst ▸ l.first, l.next⟩
        have l₂ := links_mqueueFreeItem (l₁.setNext p hnext) item
        obtain ⟨rfl, -⟩ := Prod.mk.inj (Option.some.inj h)
        exact ⟨l₂.init, l₂.first, l₂.next⟩
  · obtain ⟨rfl, -⟩ := Prod.mk.inj (Option.some.inj h)
    exact l

theorem cursor_mqueueRemoveItem [DecidableEq α] {q q' : Mqueue α} {content : α}
    {r : Option (Option α)} (c : Cursor q) (h : mqueueRemoveItem q content = some (q', r)) :
    Cursor q' := by
  unfold mqueueRemoveItem at h
  split at h
  · cases h
  · obtain ⟨rfl, -⟩ := Prod.mk.inj (Option.some.inj h)
    exact c.toLinks.reset
  · split at h
    · cases h
    rename_i hremove
    obtain ⟨rfl, -⟩ := Prod.mk.inj (Option.some.inj h)
    exact (links_mqueueRemoveAtIndex c.toLinks hremove).reset

/-! ## When an item can be removed -/

/-- Looking for an item leads to a node that holds it, or to the last node,
before it leads to a NULL link. -/
def MqueueReaches (q : Mqueue α) (content : α) : Prop :=
  ∃ i ≤ q.brk, mqueueNode q i = q.last ∨ mqueueContent q i = some content

theorem mqueueNode_none {q : Mqueue α} {j : Nat} (h : mqueueNode q j = none) (i : Nat) :
    mqueueNode q (j + i) = none := by
  induction i with
  | zero => exact h
  | succ i ih =>
    rw [← Nat.add_assoc, mqueueNode, ih]
    rfl

theorem mqueueWalkPrev_isSome {q : Mqueue α} (n : Nat) :
    ∀ {j : Nat} (prev : Option Nat), mqueueNode q (j + n) ≠ none →
      (mqueueWalkPrev q n (mqueueNode q j) prev).isSome := by
  induction n with
  | zero => intro j prev _; rfl
  | succ n ih =>
    intro j prev h
    cases hnode : mqueueNode q j with
    | none => exact absurd (mqueueNode_none hnode _) h
    | some a =>
      have hnext : mqueueNode q (j + 1) = (q.items a).next := by
        rw [mqueueNode, hnode]
        rfl
      unfold mqueueWalkPrev
      dsimp only
      rw [← hnext]
      exact ih (some a) (by rwa [Nat.add_assoc, Nat.add_comm 1 n])

section Search

variable [DecidableEq α] {q : Mqueue α} {content : α}

theorem mqueueSearch_isSome_iff (n : Nat) :
    ∀ (j : Nat) (index : Int), (mqueueSearch q content n (mqueueNode q j) index).isSome
      ↔ ∃ i < n, mqueueNode q (j + i) = q.last ∨ mqueueContent q (j + i) = some content := by
  induction n with
  | zero =>
    intro j index
    simp [mqueueSearch]
  | succ n ih =>
    intro j index
    unfold mqueueSearch
    by_cases hlast : mqueueNode q j = q.last
    · rw [if_pos hlast]
      exact ⟨fun _ => ⟨0, Nat.succ_pos n, .inl hlast⟩, fun _ => rfl⟩
    · rw [if_neg hlast]
      cases hnode : mqueueNode q j with
      | none =>
        -- behind a NULL link there is nothing to find
        refine ⟨fun h => (by cases h), fun ⟨i, _, hi⟩ => ?_⟩
        have hnone := mqueueNode_none hnode i
        rcases hi with hi | hi
        · exact absurd (hnode.trans (hnone.symm.trans hi)) hlast
        · rw [mqueueContent, hnone] at hi
          cases hi
      | some a =>
        have hcontent : mqueueContent q j = (q.items a).content := by
          rw [mqueueContent, hnode]
          rfl
        have hnext : mqueueNode q (j + 1) = (q.items a).next := by
          rw [mqueueNode, hnode]
          rfl
        dsimp only
        by_cases hfound : (q.items a).content = some content
        · rw [if_neg (not_not_intro hfound)]
          exact ⟨fun _ => ⟨0, Nat.succ_pos n, .inr (hcontent.trans hfound)⟩, fun _ => rfl⟩
        · rw [if_pos hfound, ← hnext, ih]
          constructor
          · rintro ⟨i, hi, h⟩
            refine ⟨i + 1, Nat.succ_lt_succ hi, ?_⟩
            rwa [Nat.add_comm i 1, ← Nat.add_assoc]
          · rintro ⟨i, hi, h⟩
            cases i with
            | zero =>
              rcases h with h | h
              · exact absurd h hlast
              · exact absurd (hcontent.symm.trans h) hfound
            | succ i =>
              refine ⟨i, Nat.lt_of_succ_lt_succ hi, ?_⟩
              rwa [Nat.add_assoc, Nat.add_comm 1 i]

/-- The index that the search finds is that of a node. -/
theorem mqueueSearch_node (n : Nat) :
    ∀ {j : Nat} {index : Int}, mqueueSearch q content n (mqueueNode q j) j = some (some index) →
      ∃ i : Nat, index = i ∧ mqueueNode q i ≠ none := by
  induction n with
  | zero => intro j index h; cases h
  | succ n ih =>
    intro j index h
    unfold mqueueSearch at h
    split at h
    · cases h
    · cases hnode : mqueueNode q j with
      | none =>
        rw [hnode] at h
        cases h
      | some a =>
        have hnext : mqueueNode q (j + 1) = (q.items a).next := by
          rw [mqueueNode, hnode]
          rfl
        rw [hnode] at h
        dsimp only at h
        split at h
        · rw [← hnext] at h
          exact ih h
        · refine ⟨j, (Option.some.inj (Option.some.inj h)).symm, ?_⟩
          rw [hnode]
          exact Option.some_ne_none a

/-- `mqueue_remove_item` gets through exactly if its search does. -/
theorem mqueueRemoveItem_isSome_iff :
    (mqueueRemoveItem q content).isSome ↔ MqueueReaches q content := by
  have hreaches : MqueueReaches q content
      ↔ (mqueueSearch q content (q.brk + 1) q.first 0).isSome := by
    rw [show q.first = mqueueNode q 0 from rfl, mqueueSearch_isSome_iff]
    simp only [Nat.zero_add, Nat.lt_succ_iff, MqueueReaches]
  rw [hreaches]
  unfold mqueueRemoveItem
  cases hfound : mqueueSearch q content (q.brk + 1) q.first 0 with
  | none => simp
  | some found =>
    cases found with
    | none => simp
    | some index =>
      obtain ⟨i, rfl, hi⟩ := mqueueSearch_node (q.brk + 1) (j := 0) hfound
      have hwalk : (mqueueWalkPrev q i q.first none).isSome :=
        mqueueWalkPrev_isSome i (j := 0) none (by rwa [Nat.zero_add])
      have hremove : (mqueueRemoveAtIndex q i).isSome := by
        unfold mqueueRemoveAtIndex
        split
        · obtain ⟨⟨indexed, prev⟩, hw⟩ := Option.isSome_iff_exists.mp hwalk
          have hfirst : q.first ≠ none := by
            intro hnone
            refine hi ?_
            have := mqueueNode_none (q := q) (j := 0) hnone i
            rwa [Nat.zero_add] at this
          obtain ⟨item, hitem⟩ := Option.ne_none_iff_exists'.mp hfirst
          rw [Int.toNat_natCast, hw]
          simp only [hitem]
          rfl
        · rfl
      obtain ⟨r, hr⟩ := Option.isSome_iff_exists.mp hremove
      simp [hr]

end Search

/-- A new item is in front. -/
theorem mqueueContent_mqueueAdd (q : Mqueue α) (content : α) :
    mqueueContent (mqueueAdd q content) 0 = some content := by
  unfold mqueueAdd
  dsimp only
  split <;> simp [mqueueContent, mqueueNode, Mqueue.setNext, Mqueue.setContent]

end Rms.Util
