/-
Rms.Lib.Reads — computations with the offsets they read.

A `Reads α` computes a value from a memory block and keeps the offsets of
the bytes it looked at on the way. A parser written in this monad is the
parser itself (`val` forgets the offsets, and computes through `bind` by
`rfl`) together with its footprint, so that "the parser stays inside the
first `n` bytes" is a statement about the footprint (`Within`).

`within_bind` and the lemmas for the loads turn such a statement into one
inequality for every read; they are all simp lemmas.
-/
import Rms.Lib.ByteMem

namespace Rms.ByteMem

universe u

/-- A value, and the offsets read to compute it. -/
structure Reads (α : Type u) where
  val : α
  offsets : List Nat

namespace Reads

variable {α β : Type u} {n : Nat}

instance : Monad Reads where
  pure a := ⟨a, []⟩
  bind x f := ⟨(f x.val).val, x.offsets ++ (f x.val).offsets⟩

@[simp] theorem val_pure (a : α) : (pure a : Reads α).val = a := rfl

@[simp] theorem val_bind (x : Reads α) (f : α → Reads β) : (x >>= f).val = (f x.val).val := rfl

/-! ## Reading memory -/

def load8 (m : Mem) (off : Nat) : Reads UInt8 := ⟨m off, [off]⟩

def load16 (e : Endian) (m : Mem) (off : Nat) : Reads UInt16 :=
  ⟨ByteMem.load16 e m off, List.range' off 2⟩

def load32 (e : Endian) (m : Mem) (off : Nat) : Reads UInt32 :=
  ⟨ByteMem.load32 e m off, List.range' off 4⟩

/-- The `k` bytes at offset `off`. -/
def bytes (m : Mem) (off k : Nat) : Reads (List UInt8) := ⟨readBytes m off k, List.range' off k⟩

/-- A C string from an offset on, up to its NUL. A string that has none in
the `rounds` bytes its block still has is read on beyond the block. -/
def string (m : Mem) : (rounds : Nat) → (off : Nat) → Reads (List UInt8)
  | 0, off => ⟨[], [off]⟩
  | k + 1, off => do
      let b ← load8 m off
      if b = 0 then pure []
      else do
        let bs ← string m k (off + 1)
        pure (b :: bs)

@[simp] theorem val_load8 (m : Mem) (off : Nat) : (load8 m off).val = m off := rfl

@[simp] theorem val_load16 (e : Endian) (m : Mem) (off : Nat) :
    (load16 e m off).val = ByteMem.load16 e m off := rfl

@[simp] theorem val_load32 (e : Endian) (m : Mem) (off : Nat) :
    (load32 e m off).val = ByteMem.load32 e m off := rfl

@[simp] theorem val_bytes (m : Mem) (off k : Nat) : (bytes m off k).val = readBytes m off k := rfl

theorem val_string (m : Mem) (k : Nat) :
    ∀ off, (string m k off).val = (readBytes m off k).takeWhile (· ≠ 0) := by
  induction k with
  | zero => intro off; rfl
  | succ k ih =>
    intro off
    have hsplit : readBytes m off (k + 1) = m off :: readBytes m (off + 1) k := by
      rw [Nat.add_comm, readBytes_add]
      rfl
    rw [hsplit, List.takeWhile_cons, ← ih]
    by_cases hb : m off = 0 <;> simp [string, hb]

/-! ## Staying inside a block -/

/-- All reads are below `n`. -/
def Within (n : Nat) (x : Reads α) : Prop := ∀ o ∈ x.offsets, o < n

@[simp] theorem within_pure (a : α) : (pure a : Reads α).Within n := by
  intro o ho
  cases ho

@[simp] theorem within_bind (x : Reads α) (f : α → Reads β) :
    (x >>= f).Within n ↔ x.Within n ∧ (f x.val).Within n := by
  change (∀ o ∈ x.offsets ++ (f x.val).offsets, o < n) ↔ _
  simp only [List.mem_append, or_imp, forall_and]
  rfl

@[simp] theorem within_bytes (m : Mem) (off k : Nat) :
    (bytes m off k).Within n ↔ k = 0 ∨ off + k ≤ n := by
  simp only [Within, bytes, List.mem_range'_1]
  constructor
  · intro h
    by_contra hout
    have hlast := h (off + k - 1) (by omega)
    omega
  · intro h o ho
    omega

@[simp] theorem within_load8 (m : Mem) (off : Nat) : (load8 m off).Within n ↔ off < n := by
  simp [Within, load8]

@[simp] theorem within_load16 (e : Endian) (m : Mem) (off : Nat) :
    (load16 e m off).Within n ↔ off + 2 ≤ n :=
  (within_bytes m off 2).trans (by simp)

@[simp] theorem within_load32 (e : Endian) (m : Mem) (off : Nat) :
    (load32 e m off).Within n ↔ off + 4 ≤ n :=
  (within_bytes m off 4).trans (by simp)

/-- A string stays below `n` if it has its NUL there. -/
theorem within_string (m : Mem) (k : Nat) :
    ∀ off, n ≤ off + k → ((string m k off).Within n ↔ ∃ j, off ≤ j ∧ j < n ∧ m j = 0) := by
  induction k with
  | zero =>
    intro off hn
    constructor
    · intro h
      have hlast := h off (List.mem_singleton.mpr rfl)
      omega
    · intro h
      obtain ⟨j, hle, hlt, -⟩ := h
      omega
  | succ k ih =>
    intro off hn
    simp only [string, within_bind, within_load8, val_load8]
    by_cases hb : m off = 0
    · simp only [hb, if_true, within_pure, and_true]
      constructor
      · intro hlt
        exact ⟨off, Nat.le_refl off, hlt, hb⟩
      · intro h
        obtain ⟨j, hle, hlt, -⟩ := h
        omega
    · simp only [hb, if_false, within_bind, within_pure, and_true, ih (off + 1) (by omega)]
      constructor
      · intro h
        obtain ⟨-, j, hle, hlt, hj⟩ := h
        exact ⟨j, by omega, hlt, hj⟩
      · intro h
        obtain ⟨j, hle, hlt, hj⟩ := h
        have hne : j ≠ off := by
          intro heq
          exact hb (heq ▸ hj)
        exact ⟨by omega, j, by omega, hlt, hj⟩

end Reads

end Rms.ByteMem
