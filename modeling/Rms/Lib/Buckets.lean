/-
Rms.Lib.Buckets — gathering from buckets up to a limit.

A loop over the buckets of a table that is to stop at a limit has to stop
twice: along a bucket, and between buckets. `gather limit` is the loop
that only does the first, with the limit looked at behind each element,
so every bucket that holds something yields at least one element.

`length_gather_le_iff` says when this is harmless: if every bucket that
holds something begins below the limit (`BeginBelow`). What is gathered
is then the first elements of all the buckets together
(`gather_of_beginBelow`).
-/
import Mathlib.Algebra.GroupWithZero.Nat
import Mathlib.Data.List.Basic

namespace Rms.Buckets

variable {β γ : Type*}

/-- The loop along one bucket, with what was gathered before. -/
def gatherBucket (limit : Nat) : (got bucket : List β) → List β
  | got, [] => got
  | got, b :: bucket =>
      if limit ≤ (got ++ [b]).length then got ++ [b] else gatherBucket limit (got ++ [b]) bucket

/-- The loop over the buckets. -/
def gather (limit : Nat) : (buckets : List (List β)) → (got : List β) → List β
  | [], got => got
  | bucket :: buckets, got => gather limit buckets (gatherBucket limit got bucket)

/-- Every bucket that holds something begins below the limit, if the first
one begins at `n`. -/
def BeginBelow (limit : Nat) : (n : Nat) → List (List β) → Prop
  | _, [] => True
  | n, bucket :: buckets => (bucket ≠ [] → n < limit) ∧ BeginBelow limit (n + bucket.length) buckets

variable {limit n : Nat} {bucket got : List β} {buckets : List (List β)}

/-- As much as there is room for, but at least one. -/
theorem gatherBucket_eq (limit : Nat) (got bucket : List β) :
    gatherBucket limit got bucket = got ++ bucket.take (max 1 (limit - got.length)) := by
  induction bucket generalizing got with
  | nil => simp [gatherBucket]
  | cons b bucket ih =>
    rw [gatherBucket]
    by_cases hfull : limit ≤ (got ++ [b]).length
    · simp only [List.length_append, List.length_singleton] at hfull
      have hone : max 1 (limit - got.length) = 1 := by omega
      simp [hfull, hone]
    · rw [if_neg hfull, ih]
      simp only [List.length_append, List.length_singleton] at hfull ⊢
      have hmore : max 1 (limit - got.length) = max 1 (limit - (got.length + 1)) + 1 := by omega
      simp [hmore]

theorem gatherBucket_map (f : β → γ) (limit : Nat) (got bucket : List β) :
    gatherBucket limit (got.map f) (bucket.map f) = (gatherBucket limit got bucket).map f := by
  simp [gatherBucket_eq]

theorem gather_map (f : β → γ) (limit : Nat) (buckets : List (List β)) (got : List β) :
    gather limit (buckets.map (List.map f)) (got.map f) = (gather limit buckets got).map f := by
  induction buckets generalizing got with
  | nil => rfl
  | cons bucket buckets ih => simp only [List.map_cons, gather, gatherBucket_map, ih]

/-! ## What is gathered -/

theorem length_le_length_gather (limit : Nat) (buckets : List (List β)) (got : List β) :
    got.length ≤ (gather limit buckets got).length := by
  induction buckets generalizing got with
  | nil => exact Nat.le_refl _
  | cons bucket buckets ih =>
    rw [gather]
    have hgot : got.length ≤ (gatherBucket limit got bucket).length := by
      rw [gatherBucket_eq, List.length_append]
      omega
    exact Nat.le_trans hgot (ih _)

theorem BeginBelow.mono {m : Nat} (h : BeginBelow limit n buckets) (hm : m ≤ n) :
    BeginBelow limit m buckets := by
  induction buckets generalizing m n with
  | nil => trivial
  | cons bucket buckets ih =>
    exact ⟨fun hne => Nat.lt_of_le_of_lt hm (h.1 hne), ih h.2 (by omega)⟩

/-- Past the limit no bucket begins below it. -/
theorem beginBelow_of_le (hn : limit ≤ n) : BeginBelow limit n buckets ↔ ∀ b ∈ buckets, b = [] := by
  induction buckets generalizing n with
  | nil => simp [BeginBelow]
  | cons bucket buckets ih =>
    have hlt : ¬ n < limit := by omega
    simp [BeginBelow, hlt, ih (Nat.le_trans hn (Nat.le_add_right n bucket.length))]

/-- The buckets together, cut at the limit. -/
theorem gather_of_beginBelow (h : BeginBelow limit got.length buckets) :
    gather limit buckets got = got ++ buckets.flatten.take (limit - got.length) := by
  induction buckets generalizing got with
  | nil => simp [gather]
  | cons bucket buckets ih =>
    obtain ⟨hbegin, hrest⟩ := h
    have htake : bucket.take (max 1 (limit - got.length)) = bucket.take (limit - got.length) := by
      cases bucket with
      | nil => simp
      | cons b bucket =>
        have hlt := hbegin (List.cons_ne_nil b bucket)
        rw [Nat.max_eq_right (by omega)]
    rw [gather, gatherBucket_eq, htake, ih]
    · rw [List.append_assoc, List.flatten_cons, List.take_append, List.length_append,
        List.length_take]
      have hroom : limit - (got.length + min (limit - got.length) bucket.length)
          = limit - got.length - bucket.length := by omega
      rw [hroom]
    · refine hrest.mono ?_
      rw [List.length_append, List.length_take]
      omega

/-- A bucket that begins at the limit or behind it carries the loop past the
limit. -/
theorem limit_lt_length_gather (hgot : got.length ≤ limit)
    (h : ¬ BeginBelow limit got.length buckets) : limit < (gather limit buckets got).length := by
  induction buckets generalizing got with
  | nil => exact absurd trivial h
  | cons bucket buckets ih =>
    rw [gather, gatherBucket_eq]
    by_cases hbegin : bucket ≠ [] → got.length < limit
    · have hrest : ¬ BeginBelow limit (got.length + bucket.length) buckets :=
        fun hb => h ⟨hbegin, hb⟩
      have hlen : (got ++ bucket.take (max 1 (limit - got.length))).length
          = min limit (got.length + bucket.length) := by
        rw [List.length_append, List.length_take]
        cases bucket with
        | nil =>
          simp
          omega
        | cons b bucket =>
          have hlt := hbegin (List.cons_ne_nil b bucket)
          omega
      refine ih (by rw [hlen]; omega) fun hb => ?_
      rw [hlen] at hb
      by_cases hle : got.length + bucket.length ≤ limit
      · rw [Nat.min_eq_right hle] at hb
        exact hrest hb
      · -- the limit is reached inside this bucket, and a later one is not empty
        rw [Nat.min_eq_left (by omega), beginBelow_of_le (Nat.le_refl _)] at hb
        exact hrest ((beginBelow_of_le (by omega)).mpr hb)
    · obtain ⟨hne, hle⟩ := Classical.not_imp.mp hbegin
      have hone : limit < (got ++ bucket.take (max 1 (limit - got.length))).length := by
        have hpos := List.length_pos_iff.mpr hne
        rw [List.length_append, List.length_take]
        omega
      exact Nat.lt_of_lt_of_le hone (length_le_length_gather _ _ _)

/-- **The limit is kept** exactly if every bucket that holds something
begins below it. -/
theorem length_gather_le_iff (hgot : got.length ≤ limit) :
    (gather limit buckets got).length ≤ limit ↔ BeginBelow limit got.length buckets := by
  constructor
  · intro hle
    by_contra h
    have := limit_lt_length_gather hgot h
    omega
  · intro h
    rw [gather_of_beginBelow h, List.length_append, List.length_take]
    omega

/-- A limit that leaves room for everything. -/
theorem beginBelow_of_length_le (h : n + buckets.flatten.length ≤ limit) :
    BeginBelow limit n buckets := by
  induction buckets generalizing n with
  | nil => trivial
  | cons bucket buckets ih =>
    rw [List.flatten_cons, List.length_append] at h
    refine ⟨fun hne => ?_, ih (by omega)⟩
    have := List.length_pos_iff.mpr hne
    omega

theorem gather_of_length_le (h : got.length + buckets.flatten.length ≤ limit) :
    gather limit buckets got = got ++ buckets.flatten := by
  rw [gather_of_beginBelow (beginBelow_of_length_le h), List.take_of_length_le (by omega)]

/-- `BeginBelow`, bucket by bucket. -/
theorem beginBelow_iff :
    BeginBelow limit n buckets ↔ ∀ (i : Nat) (hi : i < buckets.length), buckets[i] ≠ [] →
      n + ((buckets.take i).map List.length).sum < limit := by
  induction buckets generalizing n with
  | nil => simp [BeginBelow]
  | cons bucket buckets ih =>
    rw [BeginBelow, ih]
    constructor
    · intro h i hi hne
      cases i with
      | zero => simpa using h.1 hne
      | succ i =>
        have := h.2 i (by simpa using hi) hne
        simp only [List.take_succ_cons, List.map_cons, List.sum_cons]
        omega
    · intro h
      refine ⟨fun hne => by simpa using h 0 (Nat.succ_pos _) hne, fun i hi hne => ?_⟩
      have := h (i + 1) (Nat.succ_lt_succ hi) hne
      simp only [List.take_succ_cons, List.map_cons, List.sum_cons] at this
      omega

end Rms.Buckets
