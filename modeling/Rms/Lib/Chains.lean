/-
Rms.Lib.Chains — singly linked chains of nodes.

`next` gives the link stored in each node, with `none` for NULL.
`Path next p as q` says that following the links from the pointer `p`
meets the nodes `as` in this order and arrives at the pointer `q`. A
chain that ends in NULL is a `Path … none`; it meets no node twice
(`Path.nodup`) and its nodes are determined by the links (`Path.unique`).

The second half says what one write to a link does to a chain: nothing
when the node is not on it (`Path.update`), and otherwise a new tail
behind the node (`Path.update_mem`). A free list whose back pointer may
be anywhere stays a chain of free nodes under `Path.release`, and gains
a node only if that pointer is on the last one (`Path.getLast?_of_release`).
-/
import Mathlib.Data.List.Basic
import Mathlib.Data.List.Nodup
import Mathlib.Logic.Function.Basic

namespace Rms.Chains

variable {A : Type*}

/-- The links lead from `p` over the nodes `as` to `q`. -/
def Path (next : A → Option A) : Option A → List A → Option A → Prop
  | p, [], q => p = q
  | p, a :: as, q => p = some a ∧ Path next (next a) as q

variable {next next' : A → Option A} {p q : Option A} {as bs : List A}

@[simp] theorem path_nil : Path next p [] q ↔ p = q := Iff.rfl

@[simp] theorem path_cons {a : A} :
    Path next p (a :: as) q ↔ p = some a ∧ Path next (next a) as q := Iff.rfl

theorem path_append :
    Path next p (as ++ bs) q ↔ ∃ m, Path next p as m ∧ Path next m bs q := by
  induction as generalizing p with
  | nil => simp
  | cons a as ih =>
    simp only [List.cons_append, path_cons, ih]
    constructor
    · rintro ⟨hp, m, h₁, h₂⟩
      exact ⟨m, ⟨hp, h₁⟩, h₂⟩
    · rintro ⟨m, ⟨hp, h₁⟩, h₂⟩
      exact ⟨hp, m, h₁, h₂⟩

theorem Path.head? (h : Path next p as none) : p = as.head? := by
  cases as with
  | nil => exact h
  | cons a as => exact h.1

theorem Path.congr (h : Path next p as q) (hnext : ∀ a ∈ as, next' a = next a) :
    Path next' p as q := by
  induction as generalizing p with
  | nil => exact h
  | cons a as ih =>
    refine ⟨h.1, ?_⟩
    rw [hnext a (List.mem_cons_self ..)]
    exact ih h.2 fun b hb => hnext b (List.mem_cons_of_mem a hb)

/-- Two chains from one pointer to NULL are the same. -/
theorem Path.unique (h₁ : Path next p as none) (h₂ : Path next p bs none) : as = bs := by
  induction as generalizing p bs with
  | nil =>
    cases bs with
    | nil => rfl
    | cons b bs =>
      have hp : p = none := h₁
      rw [h₂.1] at hp
      cases hp
  | cons a as ih =>
    cases bs with
    | nil =>
      have hp : p = none := h₂
      rw [h₁.1] at hp
      cases hp
    | cons b bs =>
      have hab : a = b := Option.some.inj (h₁.1.symm.trans h₂.1)
      subst hab
      rw [ih h₁.2 h₂.2]

/-- The rest of a chain behind one of its nodes. -/
theorem Path.tail {a : A} {l r : List A} (h : Path next p (l ++ a :: r) q) :
    Path next (next a) r q := by
  obtain ⟨m, -, h⟩ := path_append.mp h
  exact h.2

/-- A chain that ends does not come back to a node. -/
theorem Path.nodup (h : Path next p as none) : as.Nodup := by
  induction as generalizing p with
  | nil => exact List.nodup_nil
  | cons a as ih =>
    refine List.nodup_cons.mpr ⟨?_, ih h.2⟩
    intro hmem
    obtain ⟨l, r, rfl⟩ := List.append_of_mem hmem
    -- behind both occurrences of the node lies the same rest
    have heq : l ++ a :: r = r := h.2.unique h.2.tail
    have hlen := congrArg List.length heq
    simp at hlen
    omega

/-- The link of the node at a position leads to the next position. -/
theorem Path.getElem?_succ {i : Nat} {a : A} (h : Path next p as none) (ha : as[i]? = some a) :
    next a = as[i + 1]? := by
  induction as generalizing p i with
  | nil => simp at ha
  | cons b as ih =>
    cases i with
    | zero =>
      simp only [List.getElem?_cons_zero, Option.some.injEq] at ha
      subst ha
      rw [h.2.head?, List.head?_eq_getElem?]
      rfl
    | succ i =>
      rw [List.getElem?_cons_succ] at ha
      rw [ih h.2 ha]
      rfl

/-- The node `i` links behind the pointer `p`. -/
def nodeAt (next : A → Option A) (p : Option A) : Nat → Option A
  | 0 => p
  | i + 1 => (nodeAt next p i).bind next

theorem Path.nodeAt_eq (h : Path next p as none) (i : Nat) : nodeAt next p i = as[i]? := by
  induction i with
  | zero => rw [nodeAt, h.head?, List.head?_eq_getElem?]
  | succ i ih =>
    rw [nodeAt, ih]
    cases ha : as[i]? with
    | none =>
      rw [List.getElem?_eq_none (by rw [List.getElem?_eq_none_iff] at ha; omega)]
      rfl
    | some a => exact h.getElem?_succ ha

/-! ## Writing a link -/

section Write

variable [DecidableEq A] {a b item : A}

theorem Path.update (h : Path next p as q) (ha : a ∉ as) (link : Option A) :
    Path (Function.update next a link) p as q := by
  refine h.congr fun b hb => ?_
  rw [Function.update_of_ne]
  rintro rfl
  exact ha hb

/-- A node whose link leads to a chain it is not on is the new first node
of it. -/
theorem Path.cons (h : Path next p as q) (ha : a ∉ as) :
    Path (Function.update next a p) (some a) (a :: as) q := by
  refine ⟨rfl, ?_⟩
  rw [Function.update_self]
  exact h.update ha p

/-- A link written on the chain gives it a new rest. -/
theorem Path.update_mem {l r : List A} (h : Path next p (l ++ b :: r) none)
    (hq : Path next q bs none) (hb : b ∉ bs) :
    Path (Function.update next b q) p (l ++ b :: bs) none := by
  have hbl : b ∉ l := by
    intro hmem
    have hnodup := h.nodup
    rw [List.nodup_append] at hnodup
    exact hnodup.2.2 b hmem b (List.mem_cons_self ..) rfl
  obtain ⟨m, hl, hm⟩ := path_append.mp h
  refine path_append.mpr ⟨m, hl.update hbl q, hm.1, ?_⟩
  rw [Function.update_self]
  exact hq.update hb q

/-- Unlinking the node behind `b`. -/
theorem Path.unlink {l r : List A} (h : Path next p (l ++ b :: a :: r) none) :
    Path (Function.update next b (next a)) p (l ++ b :: r) none := by
  have hrest : Path next (next a) r none := by
    have h' : Path next p ((l ++ [b]) ++ a :: r) none := by
      rw [List.append_assoc]
      exact h
    exact h'.tail
  have hb : b ∉ r := by
    have hnodup := h.nodup
    rw [List.nodup_append] at hnodup
    intro hmem
    exact (List.nodup_cons.mp hnodup.2.1).1 (List.mem_cons_of_mem a hmem)
  exact h.update_mem hrest hb

/-- Linking a last node behind the last node of a chain. -/
theorem Path.concat {l : List A} (h : Path next p (l ++ [b]) none) (ha : a ∉ l ++ [b]) :
    Path (Function.update (Function.update next a none) b (some a)) p (l ++ [b, a]) none := by
  have hab : b ≠ a := by
    rintro rfl
    exact ha (List.mem_append_right l (List.mem_singleton_self b))
  have hlast : Path (Function.update next a none) (some a) [a] none := by
    refine ⟨rfl, ?_⟩
    rw [Function.update_self]
    rfl
  refine (h.update ha none).update_mem hlast ?_
  rw [List.mem_singleton]
  exact hab

/-- **Releasing a node to a free list whose back pointer does not move.**
Whatever node `b` the back pointer is on, writing its link leaves the
free list a chain, of the nodes it had and the one that was released. -/
theorem Path.release (h : Path next p as none) (hitem : item ∉ as) (b : A) :
    ∃ bs, Path (Function.update (Function.update next item none) b (some item)) p bs none
      ∧ ∀ a ∈ bs, a ∈ as ∨ a = item := by
  by_cases hb : b ∈ as
  · -- the nodes behind the back pointer are lost, the released one is the new end
    obtain ⟨l, r, rfl⟩ := List.append_of_mem hb
    have hne : b ≠ item := by
      rintro rfl
      exact hitem hb
    have hlast : Path (Function.update next item none) (some item) [item] none := by
      refine ⟨rfl, ?_⟩
      rw [Function.update_self]
      rfl
    refine ⟨l ++ [b, item], (h.update hitem none).update_mem hlast ?_, ?_⟩
    · rw [List.mem_singleton]
      exact hne
    · intro a ha
      simp only [List.mem_append, List.mem_cons, List.not_mem_nil, or_false] at ha ⊢
      tauto
  · exact ⟨as, (h.update hitem none).update hb (some item), fun a ha => Or.inl ha⟩

/-- The free list gets longer only if the back pointer is on its last node. -/
theorem Path.getLast?_of_release (h : Path next p as none) (hitem : item ∉ as)
    (hbs : Path (Function.update (Function.update next item none) b (some item)) p bs none)
    (hlen : bs.length = as.length + 1) : as.getLast? = some b := by
  by_cases hb : b ∈ as
  · obtain ⟨l, r, rfl⟩ := List.append_of_mem hb
    have hne : b ≠ item := by
      rintro rfl
      exact hitem hb
    have hlast : Path (Function.update next item none) (some item) [item] none := by
      refine ⟨rfl, ?_⟩
      rw [Function.update_self]
      rfl
    have hpath := (h.update hitem none).update_mem hlast (by rwa [List.mem_singleton])
    obtain rfl := hbs.unique hpath
    have hr : r = [] := by
      simp only [List.length_append, List.length_cons, List.length_nil] at hlen
      exact List.length_eq_zero_iff.mp (by omega)
    rw [hr, List.getLast?_concat]
  · obtain rfl := hbs.unique ((h.update hitem none).update hb (some item))
    omega

end Write

end Rms.Chains
