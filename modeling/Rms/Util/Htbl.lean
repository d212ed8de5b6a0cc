/-
Rms.Util.Htbl — the hash table of `lib/util/hashtable.h` as a finite map
from integer keys.

The protocol code only uses the integer-key half of the interface, and
`unsigned long` sequence numbers and ids are 32 bits wide like the `int`
keys, so a key is a `UInt32`. `htblPut` refuses a key that is present,
`htblRemove` hands out the stored datum and deletes the key. The order
in which `htblEnumIntKeys` lists the keys is the order of the entries
here; nothing proved above this module depends on it.
-/
import Mathlib.Data.List.AList

namespace Rms.Util

/-- A table from integer keys to data. -/
abbrev Htbl (ν : Type*) := AList (fun _ : UInt32 => ν)

variable {ν μ : Type*}

def htblGet (t : Htbl ν) (key : UInt32) : Option ν := t.lookup key

/-- A present key is refused and the table is left as it was. -/
def htblPut (t : Htbl ν) (key : UInt32) (data : ν) : Htbl ν :=
  match t.lookup key with
  | some _ => t
  | none => t.insert key data

def htblRemove (t : Htbl ν) (key : UInt32) : Option (ν × Htbl ν) :=
  (t.lookup key).map fun d => (d, t.erase key)

def htblCount (t : Htbl ν) : Nat := t.entries.length

def htblEnumIntKeys (t : Htbl ν) (nkeys : Nat) : List UInt32 := t.keys.take nkeys

/-- All the data stored, one per key. -/
def htblValues (t : Htbl ν) : List ν := t.entries.map (·.2)

/-- The table with every datum replaced by its image. -/
def htblMap (f : ν → μ) (t : Htbl ν) : Htbl μ :=
  ⟨t.entries.map fun s => ⟨s.1, f s.2⟩, t.nodupKeys.map₂ fun _ => f⟩

/-! ## Reading after an update -/

@[simp] theorem htblGet_empty (key : UInt32) : htblGet (∅ : Htbl ν) key = none := rfl

theorem htblPut_of_some {t : Htbl ν} {key : UInt32} {d : ν} (data : ν)
    (h : htblGet t key = some d) : htblPut t key data = t := by
  unfold htblGet at h
  simp [htblPut, h]

theorem htblPut_of_none {t : Htbl ν} {key : UInt32} (data : ν)
    (h : htblGet t key = none) : htblPut t key data = t.insert key data := by
  unfold htblGet at h
  simp [htblPut, h]

theorem htblGet_insert (t : Htbl ν) (key k : UInt32) (data : ν) :
    htblGet (t.insert key data) k = if k = key then some data else htblGet t k := by
  by_cases h : k = key
  · subst h; simp [htblGet]
  · simp [htblGet, h, AList.lookup_insert_ne h]

/-- What is found after a put was there before, or was put. -/
theorem htblGet_put_cases {t : Htbl ν} {key k : UInt32} {data d : ν}
    (h : htblGet (htblPut t key data) k = some d) :
    htblGet t k = some d ∨ (k = key ∧ data = d) := by
  cases hkey : htblGet t key with
  | some c =>
    rw [htblPut_of_some data hkey] at h
    exact .inl h
  | none =>
    rw [htblPut_of_none data hkey, htblGet_insert] at h
    split at h
    · rename_i hk
      exact .inr ⟨hk, Option.some.inj h⟩
    · exact .inl h

theorem htblGet_erase (t : Htbl ν) (key k : UInt32) :
    htblGet (t.erase key) k = if k = key then none else htblGet t k := by
  by_cases h : k = key
  · subst h; simp [htblGet]
  · simp [htblGet, h, AList.lookup_erase_ne h]

/-- What is found after an erasure was there before. -/
theorem htblGet_of_erase {t : Htbl ν} {key k : UInt32} {d : ν}
    (h : htblGet (t.erase key) k = some d) : htblGet t k = some d := by
  rw [htblGet_erase] at h
  split at h
  · cases h
  · exact h

theorem htblRemove_eq_some {t t' : Htbl ν} {key : UInt32} {d : ν} :
    htblRemove t key = some (d, t') ↔ htblGet t key = some d ∧ t' = t.erase key := by
  simp only [htblRemove, htblGet, Option.map_eq_some_iff, Prod.mk.injEq]
  constructor
  · rintro ⟨a, h, rfl, rfl⟩; exact ⟨h, rfl⟩
  · rintro ⟨h, rfl⟩; exact ⟨d, h, rfl, rfl⟩

theorem htblRemove_eq_none {t : Htbl ν} {key : UInt32} :
    htblRemove t key = none ↔ htblGet t key = none := by
  simp [htblRemove, htblGet]

/-! ## The data as a list -/

@[simp] theorem htblValues_empty : htblValues (∅ : Htbl ν) = [] := rfl

theorem htblValues_insert {t : Htbl ν} {key : UInt32} (data : ν) (h : htblGet t key = none) :
    htblValues (t.insert key data) = data :: htblValues t := by
  have hmem : key ∉ t := AList.lookup_eq_none.mp h
  rw [htblValues, AList.entries_insert_of_notMem hmem]
  rfl

/-- A key taken out of a finite map takes its datum along. -/
theorem values_erase {κ : Type*} [DecidableEq κ] {m : AList fun _ : κ => ν} {key : κ} {d : ν}
    (h : m.lookup key = some d) :
    (m.entries.map (·.2)).Perm (d :: (m.erase key).entries.map (·.2)) := by
  have hmem : (⟨key, d⟩ : Sigma fun _ : κ => ν) ∈ m.entries :=
    List.of_mem_dlookup (show d ∈ List.dlookup key m.entries from h)
  obtain ⟨b, l₁, l₂, hnot, heq, herase⟩ :=
    List.exists_of_kerase (List.mem_keys_of_mem hmem)
  have hb : b = d := by
    have : (⟨key, b⟩ : Sigma fun _ : κ => ν) ∈ m.entries := by rw [heq]; simp
    exact m.nodupKeys.eq_of_mk_mem this hmem
  subst hb
  have he : (m.erase key).entries = l₁ ++ l₂ := herase
  simp only [he, heq, List.map_append, List.map_cons]
  exact List.perm_middle

theorem htblValues_erase {t : Htbl ν} {key : UInt32} {d : ν} (h : htblGet t key = some d) :
    (htblValues t).Perm (d :: htblValues (t.erase key)) := values_erase h

theorem mem_htblValues {t : Htbl ν} {d : ν} :
    d ∈ htblValues t ↔ ∃ key, htblGet t key = some d := by
  simp only [htblValues, List.mem_map]
  constructor
  · rintro ⟨⟨key, d'⟩, hmem, rfl⟩
    exact ⟨key, List.mem_dlookup t.nodupKeys hmem⟩
  · rintro ⟨key, h⟩
    exact ⟨⟨key, d⟩, List.of_mem_dlookup (show d ∈ List.dlookup key t.entries from h), rfl⟩

theorem htblCount_erase {t : Htbl ν} {key : UInt32} {d : ν} (h : htblGet t key = some d) :
    htblCount t = htblCount (t.erase key) + 1 := by
  have hlen := (htblValues_erase h).length_eq
  simpa [htblValues, htblCount] using hlen

theorem mem_keys_iff {t : Htbl ν} {key : UInt32} : key ∈ t.keys ↔ htblGet t key ≠ none := by
  rw [← AList.mem_keys, htblGet, ne_eq, AList.lookup_eq_none, not_not]

theorem length_keys (t : Htbl ν) : t.keys.length = htblCount t := by
  simp [AList.keys, List.keys, htblCount]

theorem eq_empty_of_htblGet {t : Htbl ν} (h : ∀ key, htblGet t key = none) : t = ∅ := by
  have hkeys : t.keys = [] :=
    List.eq_nil_iff_forall_not_mem.mpr fun key hkey => mem_keys_iff.mp hkey (h key)
  exact AList.ext (List.map_eq_nil_iff.mp hkeys)

/-- Removing one key and then others is removing all of them. -/
theorem htblGet_erase_others (t : Htbl ν) (key : UInt32) (keys : List UInt32) (k : UInt32) :
    (if k ∈ keys then none else htblGet (t.erase key) k)
      = if k ∈ key :: keys then none else htblGet t k := by
  rw [htblGet_erase]
  by_cases hk : k = key
  · simp [hk]
  · simp [hk]

/-- A key that is not there need not be removed. -/
theorem htblGet_others {t : Htbl ν} {key : UInt32} (h : htblGet t key = none)
    (keys : List UInt32) (k : UInt32) :
    (if k ∈ keys then none else htblGet t k) = if k ∈ key :: keys then none else htblGet t k := by
  by_cases hk : k = key
  · subst hk
    simp [h]
  · simp [hk]

/-! ## Replacing the data -/

@[simp] theorem htblGet_map (f : ν → μ) (t : Htbl ν) (key : UInt32) :
    htblGet (htblMap f t) key = (htblGet t key).map f :=
  List.dlookup_map₂ (f := fun _ => f) key

@[simp] theorem htblCount_map (f : ν → μ) (t : Htbl ν) :
    htblCount (htblMap f t) = htblCount t := by
  simp [htblCount, htblMap]

@[simp] theorem htblMap_empty (f : ν → μ) : htblMap f (∅ : Htbl ν) = ∅ := rfl

theorem htblMap_eq_empty {f : ν → μ} {t : Htbl ν} (h : htblMap f t = ∅) : t = ∅ :=
  AList.ext (List.map_eq_nil_iff.mp (congrArg AList.entries h))

/-- Only the data stored matter. -/
theorem htblMap_congr {f g : ν → μ} {t : Htbl ν} (h : ∀ d ∈ htblValues t, f d = g d) :
    htblMap f t = htblMap g t := by
  apply AList.ext
  apply List.map_congr_left
  intro s hs
  rw [h s.2 (List.mem_map_of_mem hs)]

theorem htblMap_erase (f : ν → μ) (t : Htbl ν) (key : UInt32) :
    htblMap f (t.erase key) = (htblMap f t).erase key := by
  apply AList.ext
  have hkerase : ∀ l : List (Sigma fun _ : UInt32 => ν),
      (l.kerase key).map (fun s => (⟨s.1, f s.2⟩ : Sigma fun _ : UInt32 => μ))
        = (l.map fun s => ⟨s.1, f s.2⟩).kerase key := by
    intro l
    induction l with
    | nil => rfl
    | cons s l ih =>
      by_cases hs : key = s.1
      · rw [List.kerase_cons_eq hs]
        exact (List.kerase_cons_eq (s := (⟨s.1, f s.2⟩ : Sigma fun _ : UInt32 => μ)) hs).symm
      · rw [List.kerase_cons_ne hs, List.map_cons, ih]
        exact (List.kerase_cons_ne (s := (⟨s.1, f s.2⟩ : Sigma fun _ : UInt32 => μ)) hs).symm
  exact hkerase t.entries

theorem htblMap_put (f : ν → μ) (t : Htbl ν) (key : UInt32) (data : ν) :
    htblMap f (htblPut t key data) = htblPut (htblMap f t) key (f data) := by
  cases h : htblGet t key with
  | some d =>
    rw [htblPut_of_some data h, htblPut_of_some (d := f d) (f data) (by rw [htblGet_map, h]; rfl)]
  | none =>
    have h' : htblGet (htblMap f t) key = none := by
      rw [htblGet_map, h]
      rfl
    rw [htblPut_of_none data h, htblPut_of_none (f data) h']
    apply AList.ext
    rw [AList.entries_insert_of_notMem (AList.lookup_eq_none.mp h')]
    simp only [htblMap, AList.entries_insert_of_notMem (AList.lookup_eq_none.mp h), List.map_cons]

theorem htblRemove_map (f : ν → μ) (t : Htbl ν) (key : UInt32) :
    htblRemove (htblMap f t) key = (htblRemove t key).map fun r => (f r.1, htblMap f r.2) := by
  cases h : htblGet t key with
  | none =>
    rw [htblRemove_eq_none.mpr h, htblRemove_eq_none.mpr (by rw [htblGet_map, h]; rfl)]
    rfl
  | some d =>
    rw [htblRemove_eq_some.mpr ⟨h, rfl⟩,
      htblRemove_eq_some.mpr ⟨(by rw [htblGet_map, h]; rfl : _ = some (f d)), rfl⟩]
    simp only [Option.map_some, htblMap_erase]

end Rms.Util
