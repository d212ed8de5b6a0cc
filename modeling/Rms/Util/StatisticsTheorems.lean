/-
Rms.Util.StatisticsTheorems — what a table says about itself, and its end.

`htbl_empty_slots` looks at the buckets, `htbl_longest_chain` at the
lengths that the other calls keep beside them, and `htbl_free` walks the
chains. On every table without a pool that calls lead to, all three are
exact (`htbl_statistics`): the first counts the buckets that no key
belongs to, the second finds the most keys that share a bucket and the
first such bucket, and the third frees every entry once. It leaves the
copies of the string keys behind, one for each.
-/
import Rms.Util.EnumTheorems

namespace Rms.Util.Hashtable

open Rms.Chains Rms.Runs

variable {α : Type*} {t : Hashtbl α} {chains : Nat → List Nat} {fs : List Nat}
  {m : AList fun _ : HtblKey => α}

/-- The keys of the map that belong to a bucket. -/
def keysIn (m : AList fun _ : HtblKey => α) (size h : Nat) : List HtblKey :=
  m.keys.filter fun k => k.hash size = h

/-! ## Keys and chains -/

theorem Represents.keysIn_perm (r : Represents t chains fs m) (h : Nat) :
    ((chains h).map fun a => (t.nodes a).key).Perm (keysIn m t.tblSize h) := by
  have hnodup : ((chains h).map fun a => (t.nodes a).key).Nodup :=
    (r.chain h).nodup.map_on (r.once h)
  have hkeys : (keysIn m t.tblSize h).Nodup := m.keys_nodup.filter _
  rw [List.perm_ext_iff_of_nodup hnodup hkeys]
  intro k
  simp only [keysIn, List.mem_filter, decide_eq_true_eq, List.mem_map]
  constructor
  · rintro ⟨a, ha, rfl⟩
    exact ⟨r.mem_keys ha, (r.bucket h a ha).1⟩
  · rintro ⟨hk, hhash⟩
    rw [← AList.mem_keys, ← AList.lookup_isSome] at hk
    obtain ⟨d, hd⟩ := Option.isSome_iff_exists.mp hk
    obtain ⟨a, ha, hkey, -⟩ := (r.lookup k d).mp hd
    exact ⟨a, hhash ▸ ha, hkey⟩

theorem Represents.lengths_eq (r : Represents t chains fs m) (h : Nat) :
    t.entriesChainLengths h = (keysIn m t.tblSize h).length := by
  have hlen := (r.keysIn_perm h).length_eq
  rw [List.length_map] at hlen
  rw [r.lengths, hlen]

theorem Represents.entries_eq_none (r : Represents t chains fs m) (h : Nat) :
    t.entries h = none ↔ keysIn m t.tblSize h = [] := by
  have hlen := (r.keysIn_perm h).length_eq
  rw [List.length_map] at hlen
  rw [(r.chain h).head?, List.head?_eq_none_iff, ← List.length_eq_zero_iff, hlen,
    List.length_eq_zero_iff]

/-! ## The loops -/

theorem emptySlots_eq (t : Hashtbl α) (k : Nat) :
    ∀ (itr : Nat) (n : Int), emptySlots t k itr n
      = n + (((List.range' itr k).filter fun h => t.entries h = none).length : Int) := by
  induction k with
  | zero =>
    intro itr n
    simp [emptySlots]
  | succ k ih =>
    intro itr n
    rw [emptySlots, ih, List.range'_succ, List.filter_cons]
    by_cases h : t.entries itr = none
    · simp only [h, if_true, decide_true, List.length_cons]
      omega
    · simp only [h, if_false, decide_false, Bool.false_eq_true]

/-- A bucket that no later one exceeds and no earlier one reaches. -/
structure Longest (t : Hashtbl α) (size : Nat) (longest : Int) (ix : Option Nat) : Prop where
  bound : ∀ h < size, t.entriesChainLengths h ≤ longest
  first : ∀ h, ix = some h → h < size ∧ t.entriesChainLengths h = longest ∧ 0 < longest
    ∧ ∀ h' < h, t.entriesChainLengths h' < longest
  none : ix = none → longest = 0

theorem longest_longestChain (t : Hashtbl α) (k : Nat) :
    ∀ {itr : Nat} {longest : Int} {ix : Option Nat}, 0 ≤ longest → Longest t itr longest ix →
      Longest t (itr + k) (longestChain t k itr longest ix).1 (longestChain t k itr longest ix).2 := by
  induction k with
  | zero =>
    intro itr longest ix _ h
    exact h
  | succ k ih =>
    intro itr longest ix hpos h
    have hsize : itr + (k + 1) = itr + 1 + k := by omega
    rw [longestChain, hsize]
    split
    · rename_i hlt
      refine ih (Int.le_of_lt (Int.lt_of_le_of_lt hpos hlt)) ⟨?_, ?_, fun hnone => nomatch hnone⟩
      · intro h' hh'
        rcases Nat.lt_succ_iff_lt_or_eq.mp hh' with hh' | rfl
        · exact Int.le_of_lt (Int.lt_of_le_of_lt (h.bound h' hh') hlt)
        · exact Int.le_refl _
      · intro h' hix
        obtain rfl := Option.some.inj hix
        exact ⟨Nat.lt_succ_self _, rfl, Int.lt_of_le_of_lt hpos hlt,
          fun h'' hh'' => Int.lt_of_le_of_lt (h.bound h'' hh'') hlt⟩
    · rename_i hle
      refine ih hpos ⟨?_, ?_, h.none⟩
      · intro h' hh'
        rcases Nat.lt_succ_iff_lt_or_eq.mp hh' with hh' | rfl
        · exact h.bound h' hh'
        · exact Int.not_lt.mp hle
      · intro h' hix
        obtain ⟨hlt, hrest⟩ := h.first h' hix
        exact ⟨Nat.lt_succ_of_lt hlt, hrest⟩

theorem longest_htblLongestChain (t : Hashtbl α) :
    Longest t t.tblSize (htblLongestChain t).1 (htblLongestChain t).2 := by
  have hstart : Longest t 0 0 none :=
    ⟨fun h hh => absurd hh (Nat.not_lt_zero h), (fun h hix => nomatch hix), fun _ => rfl⟩
  have hloop := longest_longestChain t t.tblSize (Int.le_refl 0) hstart
  rwa [Nat.zero_add] at hloop

theorem freeChain_eq {as : List Nat} :
    ∀ {n : Nat} {p : Option Nat}, Path (links t) p as none → as.length < n →
      freeChain t n p = some as := by
  induction as with
  | nil =>
    intro n p h hn
    obtain ⟨n, rfl⟩ := Nat.exists_eq_succ_of_ne_zero (Nat.ne_of_gt hn)
    obtain rfl : p = none := h
    rfl
  | cons a as ih =>
    intro n p h hn
    obtain ⟨n, rfl⟩ := Nat.exists_eq_succ_of_ne_zero
      (Nat.ne_of_gt (Nat.lt_of_le_of_lt (Nat.zero_le _) hn))
    obtain ⟨rfl, h⟩ := h
    rw [freeChain, show (t.nodes a).next = links t a from rfl, ih h (Nat.lt_of_succ_lt_succ hn)]
    rfl

theorem Represents.freeBuckets_eq (r : Represents t chains fs m) (k : Nat) :
    ∀ itr, freeBuckets t k itr = some ((List.range' itr k).flatMap chains) := by
  induction k with
  | zero =>
    intro itr
    rfl
  | succ k ih =>
    intro itr
    rw [freeBuckets, freeChain_eq (r.chain itr) (Nat.lt_succ_of_le (r.length_le itr)), ih,
      List.range'_succ, List.flatMap_cons]
    rfl

/-! ## Whole runs -/

/-- What the functions say about a table that stands for the map `m`. -/
structure Statistics (t : Hashtbl α) (m : AList fun _ : HtblKey => α) : Prop where
  count : htblCount t = m.keys.length
  empty : htblEmptySlots t
    = ((List.range (htblSize t)).filter fun h => keysIn m (htblSize t) h = []).length
  bound : ∀ h < htblSize t, ((keysIn m (htblSize t) h).length : Int) ≤ (htblLongestChain t).1
  first : ∀ h, (htblLongestChain t).2 = some h →
    h < htblSize t ∧ (keysIn m (htblSize t) h).length = (htblLongestChain t).1
      ∧ ∀ h' < h, ((keysIn m (htblSize t) h').length : Int) < (htblLongestChain t).1
  unset : (htblLongestChain t).2 = none ↔ m.keys = []
  free : ∃ freed, htblFree t = some freed ∧ freed.Nodup
    ∧ (∀ a, a ∈ freed ↔ ∃ h < htblSize t, a ∈ bucketNodes t h)
    ∧ (freed.map fun a => (t.nodes a).key).Perm m.keys

theorem Represents.statistics (r : Represents t chains fs m) (hsize : 0 < t.tblSize) :
    Statistics t m where
  count := r.count
  empty := by
    rw [htblEmptySlots, emptySlots_eq, Int.zero_add, ← List.range_eq_range', htblSize]
    congr 2
    exact List.filter_congr fun h _ => decide_eq_decide.mpr (r.entries_eq_none h)
  bound := by
    intro h hh
    rw [htblSize, ← r.lengths_eq]
    exact (longest_htblLongestChain t).bound h hh
  first := by
    intro h hix
    obtain ⟨hlt, heq, -, hbefore⟩ := (longest_htblLongestChain t).first h hix
    simp only [htblSize, ← r.lengths_eq]
    exact ⟨hlt, heq, hbefore⟩
  unset := by
    have hlongest := longest_htblLongestChain t
    constructor
    · intro hnone
      rw [List.eq_nil_iff_forall_not_mem]
      intro k hk
      -- the bucket of a key is not empty
      have hbucket : k ∈ keysIn m t.tblSize (k.hash t.tblSize) :=
        List.mem_filter.mpr ⟨hk, decide_eq_true rfl⟩
      have hpos := List.length_pos_of_mem hbucket
      have hle := hlongest.bound _ (k.hash_lt hsize)
      rw [hlongest.none hnone, r.lengths_eq] at hle
      omega
    · intro hkeys
      cases hix : (htblLongestChain t).2 with
      | none => rfl
      | some h =>
        obtain ⟨-, heq, hpos, -⟩ := hlongest.first h hix
        rw [r.lengths_eq, keysIn, hkeys] at heq
        rw [← heq] at hpos
        exact absurd hpos (Int.lt_irrefl 0)
  free := by
    refine ⟨_, r.freeBuckets_eq t.tblSize 0, (r.entries t.tblSize).nodup, ?_, r.keys_perm hsize⟩
    intro a
    simp only [List.mem_flatMap, List.mem_range'_1, Nat.zero_le, true_and, Nat.zero_add, htblSize,
      r.bucketNodes_eq]

/-- **Statistics and the end of a table.** On every table that calls lead to,
the counters and the functions that read them are exact, and `htbl_free`
ends and frees every entry once. -/
theorem htbl_statistics (garbage : Nat → HtblEntry α) {init : Nat} (hinit : 1 ≤ init)
    (calls : List (HtblCall α)) :
    ∃ t, run htblCall (htblInit garbage init 0) calls = some t
      ∧ Statistics t (calls.foldl mapCall ∅) := by
  obtain ⟨t, hrun, ⟨chains, fs, r⟩, hsize, -⟩ := represents_run_htblCall garbage hinit calls
  exact ⟨t, hrun, r.statistics hsize⟩

/-- Three keys that share one of three buckets, after a change of size. -/
def threeKeys : List (HtblCall Nat) :=
  [.op (.put (.int 1) 10), .op (.put (.int 4) 11), .rehash 3 (by decide), .op (.put (.str strA) 12)]

theorem htbl_statistics_threeKeys :
    1 ≤ 2 ∧ ∃ t, run htblCall (htblInit blank 2 0) threeKeys = some t
      ∧ Statistics t (threeKeys.foldl mapCall ∅) :=
  ⟨by decide, htbl_statistics blank (by decide) threeKeys⟩

example : ((run htblCall (htblInit blank 2 0) threeKeys).map fun t =>
    (htblEmptySlots t, htblLongestChain t)) = some (2, 3, some 1) := by
  decide +kernel

end Rms.Util.Hashtable
