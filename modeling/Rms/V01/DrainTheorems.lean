/-
Rms.V01.DrainTheorems — when the drain on LEAVE empties a cache.

The keys are written as `int`s and read as `unsigned long`s. If both have
four bytes the drain removes the keys that were listed, all of them
(`keyAt_ilp32`). If an `unsigned long` has eight, element `itr` begins at
the key in position `2 * itr` and its other half is cut off again, so the
keys in odd positions are never removed and the second half of the array
reads as zeros (`keyAt_lp64`).

`drain_iff`: the drain empties the table and hands out every message once
exactly if `unsigned long` has four bytes or all keys in odd positions
are 0, which happens for at most three entries.
-/
import Mathlib.Data.List.GetD
import Rms.Util.EnumTheorems
import Rms.V01.Drain

namespace Rms.V01

open Rms.ByteMem Rms.Buckets Rms.Util Rms.Util.Hashtable

variable {α : Type*} {t : Hashtbl α} {chains : Nat → List Nat} {fs : List Nat}
  {m : AList fun _ : HtblKey => α}

/-! ## What is read back -/

theorem load32_keysArray (ikeys : List Int32) (i : Nat) :
    (load32 .little (keysArray ikeys) (4 * i)).toInt32 = ikeys.getD i 0 := by
  have hbytes : keysArray ikeys
      = fun j => ((ikeys.map Int32.toUInt32).flatMap (enc32 .little)).getD j 0 := by
    funext j
    simp [keysArray, writeBytes, List.getD_eq_getElem?_getD]
  rw [hbytes, load32_flatMap_enc32]
  simp only [List.getD_eq_getElem?_getD, List.getElem?_map]
  cases ikeys[i]? with
  | none => rfl
  | some k => rfl

theorem keyAt_ilp32 (ikeys : List Int32) (itr : Nat) :
    keyAt .ilp32 (keysArray ikeys) itr = ikeys.getD itr 0 :=
  load32_keysArray ikeys itr

theorem keyAt_lp64 (ikeys : List Int32) (itr : Nat) :
    keyAt .lp64 (keysArray ikeys) itr = ikeys.getD (2 * itr) 0 := by
  have hlow : ∀ a b : UInt32, UInt32.ofNat (a.toNat + 4294967296 * b.toNat) = a := by
    intro a b
    apply UInt32.toNat_inj.mp
    have := a.toNat_lt
    rw [UInt32.toNat_ofNat']
    omega
  rw [keyAt, load64, hlow, ← load32_keysArray, ← Nat.mul_assoc]

/-! ## Removing a list of keys -/

/-- The messages stored in a table. -/
def stored (m : AList fun _ : HtblKey => α) : List α := m.entries.map (·.2)

/-- The removals take out the listed keys, and hand out what was stored
under them. -/
theorem represents_removeKeys (keys : List Int32) :
    ∀ {t : Hashtbl α} {m : AList fun _ : HtblKey => α},
      (∃ chains fs, Represents t chains fs m) → 0 < t.tblSize → t.initbuf = 0 →
      ∃ t' out m', removeKeys keys t = some (t', out)
        ∧ (∃ chains fs, Represents t' chains fs m') ∧ 0 < t'.tblSize
        ∧ (∀ k, k ∈ m'.keys ↔ k ∈ m.keys ∧ k ∉ keys.map HtblKey.int)
        ∧ (out ++ stored m').Perm (stored m) := by
  induction keys with
  | nil =>
    intro t m r hsize _
    exact ⟨t, [], m, rfl, r, hsize, by simp, .refl _⟩
  | cons key keys ih =>
    intro t m ⟨chains, fs, r⟩ hsize hinitbuf
    have hsafe : ReleaseSafe t (.remove (.int key)) := fun hne => absurd hinitbuf hne
    obtain ⟨t₁, hremove, r₁⟩ := represents_remove r hsize hsafe
    have hparams := sameParams_remove hremove
    obtain ⟨t', out, m', hrest, r', hsize', hkeys, hperm⟩ :=
      ih r₁ (by rw [hparams.1]; exact hsize) (hparams.2.trans hinitbuf)
    cases hk : m.lookup (.int key) with
    | none =>
      have hnot : .int key ∉ m.keys := AList.lookup_eq_none.mp hk
      simp only [mapStep, hk] at hremove hkeys hperm
      refine ⟨t', out, m', ?_, r', hsize', fun k => ?_, hperm⟩
      · simp [removeKeys, Hashtable.htblRemove, hremove, hrest]
      · rw [hkeys, List.map_cons, List.mem_cons, not_or]
        have hne : k ∈ m.keys → k ≠ .int key := fun hmem heq => hnot (heq ▸ hmem)
        tauto
    | some d =>
      simp only [mapStep, hk] at hremove hkeys hperm
      refine ⟨t', d :: out, m', ?_, r', hsize', fun k => ?_, ?_⟩
      · simp [removeKeys, Hashtable.htblRemove, hremove, hrest]
      · rw [hkeys, ← AList.mem_keys, AList.mem_erase, List.map_cons, List.mem_cons, not_or]
        tauto
      · exact (List.Perm.cons d hperm).trans (values_erase hk).symm

/-! ## The keys in their order -/

/-- The keys of a table as the loops over the buckets meet them. -/
def keysInOrder (t : Hashtbl α) : List HtblKey :=
  (List.range t.tblSize).flatMap fun h => (bucketNodes t h).map fun a => (t.nodes a).key

theorem keysInOrder_eq (r : Represents t chains fs m) :
    keysInOrder t = ((List.range' 0 t.tblSize).flatMap chains).map fun a => (t.nodes a).key := by
  rw [keysInOrder, List.range_eq_range', List.map_flatMap]
  exact List.flatMap_congr fun h _ => by rw [r.bucketNodes_eq]

/-- A table of `int` keys is listed completely, in this order. -/
theorem htblEnumIntKeys_count (r : Represents t chains fs m) (hsize : 0 < t.tblSize)
    (hint : ∀ k ∈ m.keys, k.type = .int) :
    ∃ ikeys, Hashtable.htblEnumIntKeys t (Hashtable.htblCount t) = some ikeys
      ∧ keysInOrder t = ikeys.map HtblKey.int := by
  have hcount : Hashtable.htblCount t = (m.keys.length : Nat) := r.count
  have hlen := r.length_slots hsize HtblEntry.intKey
  rw [hcount, Int.natCast_inj] at hlen
  refine ⟨(slotBuckets t HtblEntry.intKey chains (List.range' 0 t.tblSize)).flatten, ?_, ?_⟩
  · rw [hcount, htblEnumIntKeys_eq r, gather_of_length_le (by simp [hlen]), List.nil_append]
  · rw [keysInOrder_eq r, slotBuckets_flatten, List.map_map]
    apply List.map_congr_left
    intro a ha
    have hkey := hint _ ((r.keys_perm hsize).mem_iff.mp (List.mem_map_of_mem ha))
    exact (intKey_eq ((r.entries t.tblSize).types a ha) hkey).symm

/-- Every second element of a list of different keys, and zeros behind it,
are all of its elements only if the others are 0. -/
theorem forall_mem_even_iff {l : List Int32} (hl : l.Nodup) :
    (∀ k ∈ l, k ∈ (List.range l.length).map fun itr => l.getD (2 * itr) 0)
      ↔ ∀ i, i % 2 = 1 → ∀ k ∈ l[i]?, k = 0 := by
  constructor
  · intro h i hi k hk
    obtain ⟨hlt, hik⟩ := List.getElem?_eq_some_iff.mp hk
    obtain ⟨itr, -, hitr⟩ := List.mem_map.mp (h k (hik ▸ List.getElem_mem hlt))
    by_cases hin : 2 * itr < l.length
    · rw [List.getD_eq_getElem _ _ hin, ← hik, hl.getElem_inj_iff] at hitr
      omega
    · rw [List.getD_eq_default _ _ (by omega)] at hitr
      exact hitr.symm
  · intro h k hk
    obtain ⟨i, hi, rfl⟩ := List.mem_iff_getElem.mp hk
    rw [List.mem_map]
    by_cases heven : i % 2 = 1
    · -- an odd position: its key is 0, and so is the last element of the array
      refine ⟨l.length - 1, List.mem_range.mpr (by omega), ?_⟩
      rw [List.getD_eq_default _ _ (by omega)]
      exact (h i heven _ (List.getElem?_eq_getElem hi)).symm
    · refine ⟨i / 2, List.mem_range.mpr (by omega), ?_⟩
      have hdouble : 2 * (i / 2) = i := by omega
      rw [hdouble, List.getD_eq_getElem _ _ hi]

/-! ## The drain -/

/-- The drain leaves the table empty and hands out each message once. -/
def Drains (model : DataModel) (t : Hashtbl α) (m : AList fun _ : HtblKey => α) : Prop :=
  ∃ t' out, drainTable model t = some (t', out) ∧ WellFormed t' ∅ ∧ out.Perm (stored m)

/-- All keys in odd positions are 0. -/
def OddKeysZero (t : Hashtbl α) : Prop :=
  ∀ i, i % 2 = 1 → ∀ k ∈ (keysInOrder t)[i]?, k = .int 0

/-- The table is emptied exactly if every key is read back. -/
theorem drains_iff_forall_mem (r : Represents t chains fs m) (hsize : 0 < t.tblSize)
    (hinitbuf : t.initbuf = 0) {ikeys : List Int32} (model : DataModel)
    (henum : Hashtable.htblEnumIntKeys t (Hashtable.htblCount t) = some ikeys)
    (hikeys : keysInOrder t = ikeys.map HtblKey.int) :
    Drains model t m ↔ ∀ k ∈ ikeys, k ∈ (List.range ikeys.length).map
      (keyAt model (keysArray ikeys)) := by
  generalize hread : (List.range ikeys.length).map (keyAt model (keysArray ikeys)) = keys
  obtain ⟨t', out, m', hremove, ⟨chains', fs', r'⟩, hsize', hkeys, hperm⟩ :=
    represents_removeKeys keys ⟨chains, fs, r⟩ hsize hinitbuf
  have hdrain : drainTable model t = some (t', out) := by
    rw [drainTable, henum, ← hremove, ← hread]
  have hmem : ∀ k, k ∈ m.keys ↔ k ∈ ikeys.map HtblKey.int := by
    intro k
    rw [← hikeys, keysInOrder_eq r, (r.keys_perm hsize).mem_iff]
  have hint : ∀ (l : List Int32) k, HtblKey.int k ∈ l.map HtblKey.int ↔ k ∈ l :=
    fun l k => List.mem_map_of_injective fun _ _ => HtblKey.int.inj
  have hempty : WellFormed t' (∅ : AList fun _ : HtblKey => α) ↔ m' = ∅ := by
    constructor
    · intro hwf
      have hcount := r'.count.symm.trans hwf.count
      have hnil : m'.keys.length = 0 := by simpa using hcount
      rw [AList.keys, List.keys, List.length_map] at hnil
      exact AList.ext (List.length_eq_zero_iff.mp hnil)
    · intro hm
      exact hm ▸ r'.wellFormed hsize'
  constructor
  · intro ⟨t₁, out₁, hdrain₁, hwf, _⟩ k hk
    obtain ⟨rfl, rfl⟩ := Prod.mk.inj (Option.some.inj (hdrain₁.symm.trans hdrain))
    by_contra hnot
    have hin : HtblKey.int k ∈ m'.keys :=
      (hkeys _).mpr ⟨(hmem _).mpr ((hint _ _).mpr hk), fun h => hnot ((hint _ _).mp h)⟩
    rw [hempty.mp hwf] at hin
    cases hin
  · intro h
    have hm : m' = ∅ := by
      refine AList.ext (List.eq_nil_iff_forall_not_mem.mpr fun s hs => ?_)
      obtain ⟨hk, hnot⟩ := (hkeys s.1).mp (List.mem_keys_of_mem hs)
      obtain ⟨k, hk, hks⟩ := List.mem_map.mp ((hmem s.1).mp hk)
      rw [← hks] at hnot
      exact hnot ((hint _ _).mpr (h k hk))
    refine ⟨t', out, hdrain, hempty.mpr hm, ?_⟩
    rw [hm] at hperm
    simpa [stored] using hperm

/-- **Draining a cache.** For every table of `int` keys without a pool. -/
theorem drain_iff (r : Represents t chains fs m) (hsize : 0 < t.tblSize) (hinitbuf : t.initbuf = 0)
    (hint : ∀ k ∈ m.keys, k.type = .int) (model : DataModel) :
    Drains model t m ↔ model = .ilp32 ∨ OddKeysZero t := by
  obtain ⟨ikeys, henum, hikeys⟩ := htblEnumIntKeys_count r hsize hint
  rw [drains_iff_forall_mem r hsize hinitbuf model henum hikeys]
  cases model with
  | ilp32 =>
    simp only [true_or, iff_true]
    intro k hk
    obtain ⟨i, hi, rfl⟩ := List.mem_iff_getElem.mp hk
    refine List.mem_map.mpr ⟨i, List.mem_range.mpr hi, ?_⟩
    rw [keyAt_ilp32, List.getD_eq_getElem _ _ hi]
  | lp64 =>
    have hnodup : ikeys.Nodup := by
      have he := r.entries t.tblSize
      have hkeys := he.nodup.map_on he.once
      rw [← keysInOrder_eq r, hikeys] at hkeys
      exact hkeys.of_map _
    have hodd : OddKeysZero t ↔ ∀ i, i % 2 = 1 → ∀ k ∈ ikeys[i]?, k = 0 := by
      simp only [OddKeysZero, hikeys, List.getElem?_map, Option.mem_def, Option.map_eq_some_iff]
      simp
    rw [hodd, ← forall_mem_even_iff hnodup]
    simp [keyAt_lp64]

/-- Two messages in a cache, under the keys 5 and 6. -/
def twoCached : List (HtblCall Nat) := [.op (.put (.int 5) 50), .op (.put (.int 6) 60)]

theorem drain_iff_twoCached :
    ∃ t, Runs.run htblCall (htblInit Hashtable.blank 10 0) twoCached = some t
      ∧ (∀ k ∈ (twoCached.foldl mapCall ∅).keys, k.type = .int)
      ∧ (Drains .ilp32 t (twoCached.foldl mapCall ∅) ↔ .ilp32 = DataModel.ilp32 ∨ OddKeysZero t)
      ∧ (Drains .lp64 t (twoCached.foldl mapCall ∅) ↔ .lp64 = DataModel.ilp32 ∨ OddKeysZero t) := by
  have hint : ∀ k ∈ (twoCached.foldl mapCall ∅).keys, k.type = .int := by decide
  obtain ⟨t, hrun, ⟨chains, fs, r⟩, hsize, hinitbuf⟩ :=
    represents_run_htblCall Hashtable.blank (by decide : 0 < 10) twoCached
  exact ⟨t, hrun, hint, drain_iff r hsize hinitbuf hint .ilp32, drain_iff r hsize hinitbuf hint .lp64⟩

/-- With eight bytes the message under key 6 stays in the table. -/
theorem drain_lp64_fails :
    ((Runs.run htblCall (htblInit Hashtable.blank 10 0) twoCached).bind (drainTable .lp64)).map
        (fun r => (Hashtable.htblCount r.1, r.2)) = some (1, [50])
      ∧ ((Runs.run htblCall (htblInit Hashtable.blank 10 0) twoCached).bind
          (drainTable .ilp32)).map (fun r => (Hashtable.htblCount r.1, r.2)) = some (0, [50, 60]) := by
  decide +kernel

end Rms.V01
