/-
Rms.Lib.Serial — 32-bit serial numbers as distances from a base.

Serial numbers wrap, so their order as machine words means little. What
does carry an order is the distance `dist e x` from a fixed base `e`,
counted upwards modulo 2^32; as long as distances stay below 2^32 they
add up like natural numbers. `span e n` is the list of the `n` numbers
from `e` on, and `collect` is a loop that counts up to a number, with
the rounds it is given.
-/
import Mathlib.Data.List.Nodup

namespace Rms.Serial

/-- How far `x` lies above `e`. -/
def dist (e x : UInt32) : Nat := (x - e).toNat

theorem dist_lt (e x : UInt32) : dist e x < 4294967296 := (x - e).toNat_lt

@[simp] theorem dist_self (e : UInt32) : dist e e = 0 := by
  rw [dist, UInt32.sub_self]
  rfl

/-- Distances from one base tell numbers apart. -/
theorem dist_inj {e x y : UInt32} (h : dist e x = dist e y) : x = y := by
  have hsub : x - e = y - e := UInt32.toNat_inj.mp h
  rw [← UInt32.sub_add_cancel x e, hsub, UInt32.sub_add_cancel]

/-- The number at a given distance. -/
theorem dist_add_ofNat (e : UInt32) {n : Nat} (h : n < 4294967296) :
    dist e (e + UInt32.ofNat n) = n := by
  have hsub : e + UInt32.ofNat n - e = UInt32.ofNat n := by
    rw [UInt32.add_comm, UInt32.add_sub_cancel]
  rw [dist, hsub, UInt32.toNat_ofNat']
  exact Nat.mod_eq_of_lt h

theorem eq_add_ofNat_dist (e x : UInt32) : x = e + UInt32.ofNat (dist e x) :=
  dist_inj (e := e) (dist_add_ofNat e (dist_lt e x)).symm

theorem ofNat_add_ofNat (a b : Nat) :
    UInt32.ofNat a + UInt32.ofNat b = UInt32.ofNat (a + b) := by
  apply UInt32.toNat_inj.mp
  rw [UInt32.toNat_add]
  simp only [UInt32.toNat_ofNat']
  omega

/-- Distances add up while they stay below the modulus. -/
theorem dist_add (e x : UInt32) {n : Nat} (h : dist e x + n < 4294967296) :
    dist e (x + UInt32.ofNat n) = dist e x + n := by
  have hx := eq_add_ofNat_dist e x
  rw [hx, UInt32.add_assoc, ofNat_add_ofNat, ← hx]
  exact dist_add_ofNat e h

theorem dist_succ (e x : UInt32) (h : dist e x + 1 < 4294967296) :
    dist e (x + 1) = dist e x + 1 :=
  dist_add e x (n := 1) h

/-- One step up is one step closer to what lies above. -/
theorem dist_succ_left {x y : UInt32} (h : x ≠ y) : dist (x + 1) y + 1 = dist x y := by
  have hy := eq_add_ofNat_dist (x + 1) y
  have hlt := dist_lt (x + 1) y
  rw [UInt32.add_assoc, show (1 : UInt32) = UInt32.ofNat 1 from rfl, ofNat_add_ofNat] at hy
  rcases Nat.lt_or_ge (1 + dist (x + 1) y) 4294967296 with hsmall | hbig
  · have hd := dist_add_ofNat x hsmall
    rw [show (1 : UInt32) = UInt32.ofNat 1 from rfl] at hd ⊢
    rw [← hy] at hd
    omega
  · exfalso
    have hall : 1 + dist (x + UInt32.ofNat 1) y = 4294967296 := by
      have : (1 : UInt32) = UInt32.ofNat 1 := rfl
      rw [this] at hlt hbig
      omega
    rw [hall] at hy
    apply h
    rw [hy]
    simp

/-- The number before the base is the farthest one. -/
theorem dist_pred (x : UInt32) : dist (x + 1) x = 4294967295 := by
  have hall := dist_add_ofNat (x + 1) (n := 4294967295) (by omega)
  rwa [UInt32.add_assoc, show (1 : UInt32) + UInt32.ofNat 4294967295 = 0 from rfl,
    UInt32.add_zero] at hall

/-- What lies between two numbers, as seen from a base before both. -/
theorem dist_between {e x y : UInt32} (h : dist e x ≤ dist e y) (k : UInt32) :
    dist e x ≤ dist e k ∧ dist e k < dist e y ↔ dist x k < dist x y := by
  have he := e.toNat_lt
  have hx := x.toNat_lt
  have hy := y.toNat_lt
  have hk := k.toNat_lt
  simp only [dist, UInt32.toNat_sub] at h ⊢
  omega

/-! ## Words -/

/-- The words up to a successor, which is 0 for the greatest word. -/
theorem le_succ_iff {a n : UInt32} : a ≤ n + 1 ↔ a = n + 1 ∨ (n + 1 ≠ 0 ∧ a ≤ n) := by
  have hlt := n.toNat_lt
  have hone : (1 : UInt32).toNat = 1 := rfl
  have hzero : (0 : UInt32).toNat = 0 := rfl
  simp only [UInt32.le_iff_toNat_le, ne_eq, ← UInt32.toNat_inj, UInt32.toNat_add, hone, hzero]
  omega

theorem not_succ_le {a n : UInt32} (hn : n + 1 ≠ 0) (h : a ≤ n) : ¬ n + 1 ≤ a := by
  have hlt := n.toNat_lt
  have hone : (1 : UInt32).toNat = 1 := rfl
  have hzero : (0 : UInt32).toNat = 0 := rfl
  simp only [UInt32.le_iff_toNat_le, ne_eq, ← UInt32.toNat_inj, UInt32.toNat_add, hone,
    hzero] at hn h ⊢
  omega

/-! ## Spans -/

/-- The `n` numbers from `e` on. -/
def span (e : UInt32) (n : Nat) : List UInt32 :=
  (List.range n).map fun i => e + UInt32.ofNat i

@[simp] theorem span_zero (e : UInt32) : span e 0 = [] := rfl

@[simp] theorem span_length (e : UInt32) (n : Nat) : (span e n).length = n := by
  simp [span]

theorem span_add (e : UInt32) (a b : Nat) :
    span e (a + b) = span e a ++ span (e + UInt32.ofNat a) b := by
  simp only [span, List.range_add, List.map_append, List.map_map]
  congr 1
  apply List.map_congr_left
  intro i _
  simp only [Function.comp_apply]
  rw [← ofNat_add_ofNat, UInt32.add_assoc]

theorem span_one (e : UInt32) : span e 1 = [e] := by
  simp [span]

theorem span_succ (e : UInt32) (n : Nat) : span e (n + 1) = e :: span (e + 1) n := by
  rw [Nat.add_comm, span_add, span_one]
  rfl

theorem span_nodup {e : UInt32} {n : Nat} (h : n ≤ 4294967296) : (span e n).Nodup := by
  refine List.Nodup.map_on ?_ List.nodup_range
  intro i hi j hj heq
  rw [← dist_add_ofNat e (Nat.lt_of_lt_of_le (List.mem_range.mp hi) h), heq,
    dist_add_ofNat e (Nat.lt_of_lt_of_le (List.mem_range.mp hj) h)]

/-- A span is what lies at a distance below its length. -/
theorem mem_span {e x : UInt32} {n : Nat} (h : n ≤ 4294967296) :
    x ∈ span e n ↔ dist e x < n := by
  simp only [span, List.mem_map, List.mem_range]
  constructor
  · rintro ⟨i, hi, rfl⟩
    rw [dist_add_ofNat e (by omega)]
    exact hi
  · intro hx
    exact ⟨dist e x, hx, (eq_add_ofNat_dist e x).symm⟩

/-- The numbers `d` to `d + r` behind `e` are the `r` numbers from the first
of them on. -/
theorem mem_span_of_dist {e k x : UInt32} {r : Nat} (hlo : dist e k ≤ dist e x)
    (hhi : dist e x < dist e k + r) : x ∈ span k r := by
  have hx := dist_lt e x
  simp only [span, List.mem_map, List.mem_range]
  refine ⟨dist e x - dist e k, by omega, dist_inj (e := e) ?_⟩
  rw [dist_add e k (by omega)]
  omega

/-- A span that does not go beyond `m` covers all before `m` if it ends
there. -/
theorem span_covers_iff {e m : UInt32} {d : Nat} (hd : d ≤ dist e m) :
    (∀ x, dist e x < dist e m → x ∈ span e d) ↔ e + UInt32.ofNat d = m := by
  have hm := dist_lt e m
  constructor
  · intro h
    have hge : dist e m ≤ d := by
      by_contra hlt
      have hx := h (e + UInt32.ofNat d) (by rw [dist_add_ofNat e (by omega)]; omega)
      rw [mem_span (by omega), dist_add_ofNat e (by omega)] at hx
      omega
    rw [Nat.le_antisymm hd hge]
    exact (eq_add_ofNat_dist e m).symm
  · intro h x hx
    rw [← h, dist_add_ofNat e (by omega)] at hx
    exact (mem_span (by omega)).mpr hx

/-! ## Counting loops -/

/-- The loop `for(i = ...; i != stop; i++)` that collects the values of `i`
that meet `keep`; `none` if it has not ended after `fuel` rounds. -/
def collect (keep : UInt32 → Bool) (stop : UInt32) :
    (fuel : Nat) → (i : UInt32) → Option (List UInt32)
  | 0, i => if i = stop then some [] else none
  | n + 1, i =>
      if i = stop then some []
      else (collect keep stop n (i + 1)).map fun l => if keep i then i :: l else l

/-- The loop ends when `i` has gone once round to `stop`. -/
theorem collect_eq (keep : UInt32 → Bool) (stop : UInt32) (fuel : Nat) :
    ∀ i, collect keep stop fuel i
      = if dist i stop ≤ fuel then some ((span i (dist i stop)).filter keep) else none := by
  induction fuel with
  | zero =>
    intro i
    by_cases hi : i = stop
    · simp [collect, hi]
    · have hpos := dist_succ_left hi
      simp only [collect, hi, if_false]
      rw [if_neg (by omega)]
  | succ n ih =>
    intro i
    by_cases hi : i = stop
    · simp [collect, hi]
    · have hpos := dist_succ_left hi
      simp only [collect, hi, if_false, ih, ← hpos, span_succ, List.filter_cons]
      by_cases hle : dist (i + 1) stop ≤ n
      · simp [hle]
      · simp [hle]

end Rms.Serial
