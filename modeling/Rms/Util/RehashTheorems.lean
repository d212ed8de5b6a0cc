/-
Rms.Util.RehashTheorems — changing the number of buckets keeps the map.

`htbl_rehash` empties the table, and then puts the entries of the old
chains into it again, one after the other, releasing each old entry
behind its put. `Moving` is the state in between: the table represents
the entries moved so far, and the others are untouched and on none of
its chains. One entry is moved by `Moving.entry`, a chain by
`Moving.chain` and all buckets by `Moving.buckets`.

With the simulation of the other calls this gives what every sequence of
calls leads to, sizes changed in between included
(`represents_run_htblCall`), and `htbl_rehash_preserves` for the next
change. The function counts the bytes of its arrays in an `int`; which
sizes that leaves is `htbl_rehash_preserves_iff`.
-/
import Rms.Util.HashtableTheorems

namespace Rms.Util.Hashtable

open Rms.Chains Rms.Runs

variable {α : Type*} {t t₀ : Hashtbl α} {chains chains₀ : Nat → List Nat} {fs : List Nat}
  {m : AList fun _ : HtblKey => α} {key : HtblKey} {newsize : Nat}

/-! ## Tables without a pool -/

theorem allocEntry_eq (h : t.initbuf = 0) : allocEntry t = t.malloc := by
  unfold allocEntry
  split
  · rename_i hinitbuf _
    exact absurd h (of_decide_eq_true hinitbuf)
  · rfl

theorem releaseEntry_eq (h : t.initbuf = 0) (entry : Nat) :
    releaseEntry t entry = t.setNext entry none := by
  have hpool : ¬ ((t.setNext entry none).initbuf ≠ 0
      ∧ (t.setNext entry none).nbuf < 3 * (t.setNext entry none).initbuf) := fun hn => hn.1 h
  unfold releaseEntry
  exact if_neg hpool

/-- A put of a new key uses a new entry, and leaves the others alone. -/
theorem represents_put_fresh (r : Represents t chains fs m) (hinitbuf : t.initbuf = 0)
    (hk : m.lookup key = none) (data : α) :
    ∃ t', put t key data = some (t', ⟨0, none⟩)
      ∧ Represents t' (Function.update chains (key.hash t.tblSize)
          (t.brk :: chains (key.hash t.tblSize))) fs (m.insert key data)
      ∧ (∀ a < t.brk, t'.nodes a = t.nodes a) ∧ t'.brk = t.brk + 1 ∧ SameParams t t' := by
  have hfresh : ∀ a, (∃ h, a ∈ chains h) ∨ a ∈ fs → a ≠ t.brk :=
    fun a ha => Nat.ne_of_lt (r.bound a ha)
  have r₁ : Represents t.malloc.1 chains fs m :=
    r.mono r.chain rfl rfl rfl rfl r.pool r.back r.apart
      fun a ha => Nat.lt_succ_of_lt (r.bound a ha)
  have r₂ := r₁.link hk (a := t.brk) (fun h hmem => hfresh _ (.inl ⟨h, hmem⟩) rfl)
    (fun hmem => hfresh _ (.inr hmem) rfl) (Nat.lt_succ_self _) data
  unfold put
  rw [r.locate_none hk]
  simp only [allocEntry_eq hinitbuf]
  refine ⟨_, rfl, r₂, fun a ha => ?_, rfl, rfl, rfl⟩
  exact Function.update_of_ne (Nat.ne_of_lt ha) _ _

/-- A table stands for every map with the same entries. -/
theorem Represents.congr_map {m' : AList fun _ : HtblKey => α} (r : Represents t chains fs m)
    (h : ∀ k, m'.lookup k = m.lookup k) : Represents t chains fs m' := by
  have hkeys : m'.keys.Perm m.keys := by
    rw [List.perm_ext_iff_of_nodup m'.keys_nodup m.keys_nodup]
    intro k
    rw [← AList.mem_keys, ← AList.mem_keys, ← AList.lookup_isSome, ← AList.lookup_isSome, h]
  exact { r with
    lookup := fun k d => by rw [h]; exact r.lookup k d
    count := by rw [hkeys.length_eq]; exact r.count }

/-! ## Moving the entries -/

/-- Entries with different keys, each of the type of its key. -/
structure Entries (t : Hashtbl α) (as : List Nat) : Prop where
  nodup : as.Nodup
  once : ∀ a ∈ as, ∀ b ∈ as, (t.nodes a).key = (t.nodes b).key → a = b
  types : ∀ a ∈ as, (t.nodes a).type = (t.nodes a).key.type

/-- The entries `moved` of the table `t₀` are in the new table `t` of
`newsize` buckets, and the entries `rest` are still as they were. -/
structure Moving (t₀ : Hashtbl α) (newsize : Nat) (fs moved rest : List Nat) (t : Hashtbl α) :
    Prop where
  size : t.tblSize = newsize
  initbuf : t.initbuf = 0
  same : ∀ a ∈ rest, t.nodes a = t₀.nodes a
  table : ∃ chains m, Represents t chains fs m
    ∧ (∀ k d, m.lookup k = some d ↔ ∃ a ∈ moved, (t₀.nodes a).key = k ∧ (t₀.nodes a).data = d)
    ∧ ∀ a ∈ rest, (∀ h, a ∉ chains h) ∧ a ∉ fs ∧ a < t.brk

variable {moved rest : List Nat}

/-- An entry is put again according to its type. -/
theorem reinsert_eq {entry : HtblEntry α} (htype : entry.type = entry.key.type) :
    reinsert t entry = put t entry.key entry.data := by
  obtain ⟨type, hash, key, data, next⟩ := entry
  obtain rfl : type = key.type := htype
  cases key with
  | int key => rfl
  | str key => rfl

/-- The map of the entries moved so far, with one more. -/
theorem Entries.lookup_concat {a : Nat} (he : Entries t₀ (moved ++ a :: rest))
    (hlookup : ∀ k d, m.lookup k = some d
      ↔ ∃ b ∈ moved, (t₀.nodes b).key = k ∧ (t₀.nodes b).data = d) (k : HtblKey) (d : α) :
    (m.insert (t₀.nodes a).key (t₀.nodes a).data).lookup k = some d
      ↔ ∃ b ∈ moved ++ [a], (t₀.nodes b).key = k ∧ (t₀.nodes b).data = d := by
  have ha : a ∈ moved ++ a :: rest := List.mem_append_right _ (List.mem_cons_self ..)
  by_cases hk : k = (t₀.nodes a).key
  · subst hk
    simp only [AList.lookup_insert, List.mem_append, List.mem_singleton, Option.some.injEq]
    constructor
    · intro hd
      exact ⟨a, .inr rfl, rfl, hd⟩
    · intro ⟨b, hb, hkey, hdata⟩
      rcases hb with hb | hb
      · have hba := he.once b (List.mem_append_left _ hb) a ha hkey
        rw [← hba]
        exact hdata
      · rw [← hb]
        exact hdata
  · rw [AList.lookup_insert_ne hk, hlookup]
    constructor
    · intro ⟨b, hb, h⟩
      exact ⟨b, List.mem_append_left _ hb, h⟩
    · intro ⟨b, hb, hkey, hdata⟩
      rcases List.mem_append.mp hb with hb | hb
      · exact ⟨b, hb, hkey, hdata⟩
      · rw [List.mem_singleton.mp hb] at hkey
        exact absurd hkey.symm hk

/-- **One entry.** -/
theorem Moving.entry {a : Nat} (hm : Moving t₀ newsize fs moved (a :: rest) t)
    (he : Entries t₀ (moved ++ a :: rest)) :
    ∃ t', reinsert t (t.nodes a) = some (t', ⟨0, none⟩) ∧ (t'.nodes a).next = links t₀ a
      ∧ Moving t₀ newsize fs (moved ++ [a]) rest (releaseEntry t' a) := by
  obtain ⟨chains, m, r, hlookup, hapart⟩ := hm.table
  obtain ⟨hchains, hfs, hbrk⟩ := hapart a (List.mem_cons_self ..)
  have hnode : t.nodes a = t₀.nodes a := hm.same a (List.mem_cons_self ..)
  have ha : a ∈ moved ++ a :: rest := List.mem_append_right _ (List.mem_cons_self ..)
  have hnotin : a ∉ moved ++ rest := (List.nodup_middle.mp he.nodup |> List.nodup_cons.mp).1
  -- no entry with this key was moved before
  have hnone : m.lookup (t₀.nodes a).key = none := by
    cases hfound : m.lookup (t₀.nodes a).key with
    | none => rfl
    | some d =>
      obtain ⟨b, hb, hkey, -⟩ := (hlookup _ d).mp hfound
      have hba := he.once b (List.mem_append_left _ hb) a ha hkey
      exact absurd (List.mem_append_left rest (hba ▸ hb)) hnotin
  obtain ⟨t', hput, r', hnodes, hbrk', hparams⟩ :=
    represents_put_fresh r hm.initbuf hnone (t₀.nodes a).data
  have hinitbuf : t'.initbuf = 0 := hparams.2.trans hm.initbuf
  have hfresh : ∀ b < t.brk, (∀ h, b ∉ chains h) →
      ∀ h, b ∉ Function.update chains ((t₀.nodes a).key.hash t.tblSize)
        (t.brk :: chains ((t₀.nodes a).key.hash t.tblSize)) h := by
    intro b hb hnot h hmem
    rcases mem_linked.mp hmem with ⟨hnew, -⟩ | hmem
    · omega
    · exact hnot h hmem
  refine ⟨t', ?_, ?_, ?_⟩
  · rw [hnode, reinsert_eq (he.types a ha)]
    exact hput
  · rw [hnodes a hbrk, hnode]
    rfl
  · rw [releaseEntry_eq hinitbuf]
    constructor
    case size => exact hparams.1.trans hm.size
    case initbuf => exact hinitbuf
    case same =>
      intro b hb
      have hne : b ≠ a := fun hba => hnotin (List.mem_append_right moved (hba ▸ hb))
      obtain ⟨-, -, hblt⟩ := hapart b (List.mem_cons_of_mem a hb)
      show Function.update t'.nodes a _ b = _
      rw [Function.update_of_ne hne, hnodes b hblt]
      exact hm.same b (List.mem_cons_of_mem a hb)
    case table =>
      refine ⟨_, _, r'.cut (hfresh a hbrk hchains) hfs, he.lookup_concat hlookup, ?_⟩
      intro b hb
      obtain ⟨hbchains, hbfs, hblt⟩ := hapart b (List.mem_cons_of_mem a hb)
      refine ⟨hfresh b hblt hbchains, hbfs, ?_⟩
      show b < t'.brk
      omega

/-- What is still to be moved fits the memory in use. -/
theorem Moving.length_le {as : List Nat} (hm : Moving t₀ newsize fs moved rest t) (has : as ⊆ rest)
    (hnodup : as.Nodup) : as.length ≤ t.brk := by
  obtain ⟨_, _, _, _, hapart⟩ := hm.table
  have hsub : as ⊆ List.range t.brk := fun a ha =>
    List.mem_range.mpr (hapart a (has ha)).2.2
  have hle := (hnodup.subperm hsub).length_le
  rwa [List.length_range] at hle

/-- **One chain.** -/
theorem Moving.chain {as : List Nat} :
    ∀ {n : Nat} {p : Option Nat} {moved rest : List Nat} {t : Hashtbl α},
      Path (links t₀) p as none → Moving t₀ newsize fs moved (as ++ rest) t →
      Entries t₀ (moved ++ (as ++ rest)) → as.length < n →
      ∃ t', rehashChain n p t = some t' ∧ Moving t₀ newsize fs (moved ++ as) rest t' := by
  induction as with
  | nil =>
    intro n p moved rest t hpath hm _ hn
    obtain ⟨n, rfl⟩ := Nat.exists_eq_succ_of_ne_zero (Nat.ne_of_gt hn)
    obtain rfl : p = none := hpath
    exact ⟨t, rfl, by simpa using hm⟩
  | cons a as ih =>
    intro n p moved rest t hpath hm he hn
    obtain ⟨n, rfl⟩ := Nat.exists_eq_succ_of_ne_zero
      (Nat.ne_of_gt (Nat.lt_of_le_of_lt (Nat.zero_le _) hn))
    obtain ⟨rfl, hpath⟩ := hpath
    obtain ⟨t₁, hput, hnext, hm₁⟩ := hm.entry he
    have he₁ : Entries t₀ ((moved ++ [a]) ++ (as ++ rest)) := by simpa using he
    obtain ⟨t', hrest, hm'⟩ := ih hpath hm₁ he₁ (Nat.lt_of_succ_lt_succ hn)
    refine ⟨t', ?_, by simpa using hm'⟩
    rw [rehashChain, hput]
    simp only [hnext]
    exact hrest

/-- **All buckets.** -/
theorem Moving.buckets {oldEntries : Nat → Option Nat}
    (hpaths : ∀ h, Path (links t₀) (oldEntries h) (chains₀ h) none) (n : Nat) :
    ∀ {itr : Nat} {moved : List Nat} {t : Hashtbl α},
      Moving t₀ newsize fs moved ((List.range' itr n).flatMap chains₀) t →
      Entries t₀ (moved ++ (List.range' itr n).flatMap chains₀) →
      ∃ t', rehashBuckets oldEntries n itr t = some t'
        ∧ Moving t₀ newsize fs (moved ++ (List.range' itr n).flatMap chains₀) [] t' := by
  induction n with
  | zero =>
    intro itr moved t hm _
    exact ⟨t, rfl, by simpa using hm⟩
  | succ n ih =>
    intro itr moved t hm he
    rw [List.range'_succ, List.flatMap_cons] at hm he ⊢
    have hlen := hm.length_le (List.subset_append_left _ _) (hpaths itr).nodup
    obtain ⟨t₁, hchain, hm₁⟩ := Moving.chain (hpaths itr) hm he (Nat.lt_succ_of_le hlen)
    rw [← List.append_assoc] at he ⊢
    obtain ⟨t', hrest, hm'⟩ := ih hm₁ he
    refine ⟨t', ?_, hm'⟩
    rw [rehashBuckets, hchain]
    exact hrest

/-! ## The whole table -/

/-- The entries of a table, bucket by bucket. -/
theorem Represents.entries (r : Represents t chains fs m) (n : Nat) :
    Entries t ((List.range' 0 n).flatMap chains) where
  nodup := by
    have hbuckets : (List.range' 0 n).Nodup := List.nodup_range'
    rw [List.nodup_flatMap]
    refine ⟨fun h _ => (r.chain h).nodup, hbuckets.imp ?_⟩
    intro h h' hne a ha ha'
    exact hne (r.same_bucket ha ha')
  once := by
    intro a ha b hb hkeys
    obtain ⟨h, -, ha⟩ := List.mem_flatMap.mp ha
    obtain ⟨h', -, hb⟩ := List.mem_flatMap.mp hb
    exact r.once_all ha hb hkeys
  types := by
    intro a ha
    obtain ⟨h, -, ha⟩ := List.mem_flatMap.mp ha
    exact (r.bucket h a ha).2.2

/-- The buckets of a table hold its entries. -/
theorem Represents.lookup_iff (r : Represents t chains fs m) (hsize : 0 < t.tblSize) (k : HtblKey)
    (d : α) : m.lookup k = some d ↔ ∃ a ∈ (List.range' 0 t.tblSize).flatMap chains,
      (t.nodes a).key = k ∧ (t.nodes a).data = d := by
  rw [r.lookup]
  constructor
  · intro ⟨a, ha, hkey, hdata⟩
    refine ⟨a, List.mem_flatMap.mpr ⟨_, ?_, ha⟩, hkey, hdata⟩
    rw [List.mem_range'_1]
    exact ⟨Nat.zero_le _, by simpa using HtblKey.hash_lt k hsize⟩
  · intro ⟨a, ha, hkey, hdata⟩
    obtain ⟨h, -, ha⟩ := List.mem_flatMap.mp ha
    rw [← r.lookup, r.lookup_all]
    exact ⟨h, a, ha, hkey, hdata⟩

theorem moving_emptied (r : Represents t chains fs m) (hinitbuf : t.initbuf = 0) (newsize n : Nat) :
    Moving t newsize fs [] ((List.range' 0 n).flatMap chains) (emptied t newsize) where
  size := rfl
  initbuf := hinitbuf
  same := fun _ _ => rfl
  table := by
    refine ⟨fun _ => [], ∅, ?_, by simp, ?_⟩
    · constructor
      case chain => exact fun _ => rfl
      case bucket => exact fun h a ha => by cases ha
      case once => exact fun h a ha => by cases ha
      case lookup => simp
      case count => rfl
      case lengths => exact fun _ => rfl
      case pool => exact r.pool
      case back => exact r.back
      case apart => exact fun a _ h hmem => by cases hmem
      case bound =>
        intro a ha
        rcases ha with ⟨h, ha⟩ | ha
        · cases ha
        · exact r.bound a (.inr ha)
    · intro a ha
      obtain ⟨h, -, ha⟩ := List.mem_flatMap.mp ha
      exact ⟨fun h' hmem => (by cases hmem), fun hfs => r.apart a hfs h ha,
        r.bound a (.inl ⟨h, ha⟩)⟩

/-- A table of another size stands for the same map. -/
theorem represents_htblRehash (r : Represents t chains fs m) (hinitbuf : t.initbuf = 0)
    (hsize : 0 < t.tblSize) (newsize : Nat) :
    ∃ t', htblRehash t newsize = some t' ∧ (∃ chains', Represents t' chains' fs m)
      ∧ t'.tblSize = newsize ∧ t'.initbuf = 0 := by
  unfold htblRehash
  by_cases hsame : newsize = t.tblSize
  · rw [if_pos hsame]
    exact ⟨t, rfl, ⟨chains, r⟩, hsame.symm, hinitbuf⟩
  · rw [if_neg hsame]
    obtain ⟨t', hbuckets, hm⟩ := Moving.buckets r.chain t.tblSize
      (moving_emptied r hinitbuf newsize t.tblSize) (r.entries t.tblSize)
    obtain ⟨chains', m', r', hlookup, -⟩ := hm.table
    refine ⟨t', hbuckets, ⟨chains', r'.congr_map fun k => ?_⟩, hm.size, hm.initbuf⟩
    apply Option.ext
    intro d
    rw [r.lookup_iff hsize, hlookup, List.nil_append]

/-! ## Whole runs -/

/-- What every sequence of calls leads to. -/
theorem represents_run_htblCall (garbage : Nat → HtblEntry α) {init : Nat} (hinit : 0 < init)
    (calls : List (HtblCall α)) :
    ∃ t, run htblCall (htblInit garbage init 0) calls = some t
      ∧ (∃ chains fs, Represents t chains fs (calls.foldl mapCall ∅))
      ∧ 0 < t.tblSize ∧ t.initbuf = 0 := by
  have hrun : ∀ (calls : List (HtblCall α)) {t : Hashtbl α} {m : AList fun _ : HtblKey => α},
      (∃ chains fs, Represents t chains fs m) → 0 < t.tblSize → t.initbuf = 0 →
      ∃ t', run htblCall t calls = some t'
        ∧ (∃ chains fs, Represents t' chains fs (calls.foldl mapCall m))
        ∧ 0 < t'.tblSize ∧ t'.initbuf = 0 := by
    intro calls
    induction calls with
    | nil =>
      intro t m r hsize hinitbuf
      exact ⟨t, rfl, r, hsize, hinitbuf⟩
    | cons call calls ih =>
      intro t m ⟨chains, fs, r⟩ hsize hinitbuf
      cases call with
      | op op =>
        obtain ⟨t₁, hstep, r₁, hparams⟩ := represents_htblStep t m op ⟨chains, fs, r⟩ hsize
          (releaseSafe_of_initbuf hinitbuf op)
        have hcall : htblCall t (.op op) = some t₁ := by
          simp [htblCall, hstep]
        obtain ⟨t', hrest, h'⟩ := ih r₁ (by rw [hparams.1]; exact hsize) (hparams.2.trans hinitbuf)
        exact ⟨t', by rw [run, hcall]; exact hrest, h'⟩
      | rehash newsize pos =>
        obtain ⟨t₁, hrehash, ⟨chains₁, r₁⟩, hsize₁, hinitbuf₁⟩ :=
          represents_htblRehash r hinitbuf hsize newsize
        have hcall : htblCall t (.rehash newsize pos) = some t₁ := hrehash
        obtain ⟨t', hrest, h'⟩ := ih ⟨chains₁, fs, r₁⟩ (by rw [hsize₁]; exact pos) hinitbuf₁
        exact ⟨t', by rw [run, hcall]; exact hrest, h'⟩
  obtain ⟨fs, r⟩ := represents_htblInit garbage init 0
  obtain ⟨hsize, hinitbuf⟩ := htblInit_params garbage init 0
  exact hrun calls ⟨_, fs, r⟩ (by rw [hsize]; exact hinit) hinitbuf

/-- **Rehashing.** From every table that calls lead to, `htbl_rehash` ends
with a table of the new size that is well formed for the same map: every
look-up and the count are what they were. -/
theorem htbl_rehash_preserves (garbage : Nat → HtblEntry α) {init newsize : Nat}
    (hinit : 1 ≤ init) (hnew : 1 ≤ newsize) (calls : List (HtblCall α)) :
    ∃ t t', run htblCall (htblInit garbage init 0) calls = some t
      ∧ htblRehash t newsize = some t'
      ∧ (∀ key, ∃ answer, htblGet t key = some (t, answer) ∧ htblGet t' key = some (t', answer))
      ∧ (∀ key, ∃ answer,
          htblStrGet t key = some (t, answer) ∧ htblStrGet t' key = some (t', answer))
      ∧ htblCount t' = htblCount t ∧ t'.tblSize = newsize
      ∧ WellFormed t' (calls.foldl mapCall ∅) := by
  obtain ⟨t, hrun, ⟨chains, fs, r⟩, hsize, hinitbuf⟩ :=
    represents_run_htblCall garbage hinit calls
  obtain ⟨t', hrehash, ⟨chains', r'⟩, hsize', -⟩ := represents_htblRehash r hinitbuf hsize newsize
  refine ⟨t, t', hrun, hrehash, ?_, ?_, ?_, hsize', r'.wellFormed (by rw [hsize']; exact hnew)⟩
  · intro key
    exact ⟨_, (represents_get r (.int key)).1, (represents_get r' (.int key)).1⟩
  · intro key
    exact ⟨_, (represents_get r (.str key)).1, (represents_get r' (.str key)).1⟩
  · exact r'.count.trans r.count.symm

/-- An `int` and a string key in one chain, another size, and one more key. -/
def resized : List (HtblCall Nat) :=
  [.op (.put (.int 97) 1), .op (.put (.str strA) 2), .rehash 5 (by decide), .op (.put (.int 2) 3)]

theorem hasSlots_iff {newsize size : Nat} :
    HasSlots newsize size ↔ newsize * size < 2147483648 := by
  unfold HasSlots byteCount
  generalize newsize * size = bytes
  omega

theorem htblRehashIn_eq {ptr : Nat} (hptr : 4 ≤ ptr) (t : Hashtbl α) (newsize : Nat) :
    htblRehashIn ptr t newsize
      = if newsize = t.tblSize ∨ newsize * ptr < 2147483648 then htblRehash t newsize
        else none := by
  have hint : newsize * ptr < 2147483648 → newsize * 4 < 2147483648 :=
    Nat.lt_of_le_of_lt (Nat.mul_le_mul_left newsize hptr)
  unfold htblRehashIn htblRehash
  by_cases hsame : newsize = t.tblSize
  · rw [if_pos hsame, if_pos (.inl hsame), if_pos hsame]
  · by_cases hfits : newsize * ptr < 2147483648
    · rw [if_neg hsame, if_pos ⟨hasSlots_iff.mpr hfits, hasSlots_iff.mpr (hint hfits)⟩,
        if_pos (.inr hfits), if_neg hsame]
    · rw [if_neg hsame, if_neg fun hslots => hfits (hasSlots_iff.mp hslots.1),
        if_neg (not_or.mpr ⟨hsame, hfits⟩)]

theorem htblCall_of_in {ptr : Nat} (hptr : 4 ≤ ptr) {t t' : Hashtbl α} {call : HtblCall α}
    (hcall : htblCallIn ptr t call = some t') : htblCall t call = some t' := by
  cases call with
  | op op => exact hcall
  | rehash newsize pos =>
    simp only [htblCallIn] at hcall
    rw [htblRehashIn_eq hptr] at hcall
    split at hcall
    · exact hcall
    · cases hcall

/-- Calls that get through are calls on arrays of the right size. -/
theorem run_htblCall_of_in {ptr : Nat} (hptr : 4 ≤ ptr) {calls : List (HtblCall α)}
    {t t' : Hashtbl α} (hrun : run (htblCallIn ptr) t calls = some t') :
    run htblCall t calls = some t' := by
  induction calls generalizing t with
  | nil =>
    have hsame : t = t' := Option.some.inj hrun
    exact congrArg some hsame
  | cons call calls ih =>
    obtain ⟨t₁, hcall, hrest⟩ := run_cons_some hrun
    rw [run, htblCall_of_in hptr hcall]
    exact ih hrest

/-- **Rehashing.** From every table that calls lead to, `htbl_rehash` ends
with a table of the new size that is well formed for the same map, with
every look-up and the count as they were, exactly if the size stays the
same or the bytes of the bucket array can be counted in an `int`. -/
theorem htbl_rehash_preserves_iff (garbage : Nat → HtblEntry α) {ptr init newsize : Nat}
    (hptr : 4 ≤ ptr) (hinit : 1 ≤ init) (hnew : 1 ≤ newsize) (calls : List (HtblCall α))
    {t : Hashtbl α} (hrun : run (htblCallIn ptr) (htblInit garbage init 0) calls = some t) :
    (∃ t', htblRehashIn ptr t newsize = some t'
      ∧ (∀ key, ∃ answer, htblGet t key = some (t, answer) ∧ htblGet t' key = some (t', answer))
      ∧ (∀ key, ∃ answer,
          htblStrGet t key = some (t, answer) ∧ htblStrGet t' key = some (t', answer))
      ∧ htblCount t' = htblCount t ∧ t'.tblSize = newsize
      ∧ WellFormed t' (calls.foldl mapCall ∅))
    ↔ newsize = t.tblSize ∨ newsize * ptr < 2147483648 := by
  obtain ⟨t₀, t', hrun₀, hrehash, hresult⟩ := htbl_rehash_preserves garbage hinit hnew calls
  obtain rfl := Option.some.inj (hrun₀.symm.trans (run_htblCall_of_in hptr hrun))
  rw [htblRehashIn_eq hptr]
  constructor
  · rintro ⟨t₁, hsome, -⟩
    by_contra hlarge
    rw [if_neg hlarge] at hsome
    cases hsome
  · intro hfits
    rw [if_pos hfits]
    exact ⟨t', hrehash, hresult⟩

theorem htbl_rehash_preserves_iff_resized :
    4 ≤ 8 ∧ 1 ≤ 3 ∧ 1 ≤ 2 ∧ ∃ t, run (htblCallIn 8) (htblInit blank 3 0) resized = some t
      ∧ ∃ t', htblRehashIn 8 t 2 = some t'
        ∧ (∀ key, ∃ answer, htblGet t key = some (t, answer) ∧ htblGet t' key = some (t', answer))
        ∧ (∀ key, ∃ answer,
            htblStrGet t key = some (t, answer) ∧ htblStrGet t' key = some (t', answer))
        ∧ htblCount t' = htblCount t ∧ t'.tblSize = 2
        ∧ WellFormed t' (resized.foldl mapCall ∅) := by
  have hsome : (run (htblCallIn 8) (htblInit blank 3 0) resized).isSome = true := by decide +kernel
  obtain ⟨t, hrun⟩ := Option.isSome_iff_exists.mp hsome
  exact ⟨by decide, by decide, by decide, t, hrun,
    (htbl_rehash_preserves_iff blank (by decide) (by decide) (by decide) resized hrun).mpr
      (.inr (by decide))⟩

/-- A table with one key. With pointers of eight bytes, the bytes of
`2 ^ 28` buckets are a negative `int` and those of `2 ^ 29` are none; with
pointers of four bytes, `2 ^ 30 + 1` buckets are given one slot. -/
theorem htbl_rehash_fails :
    (run (htblCallIn 8) (htblInit blank 3 0) [.op (.put (.int 1) 7)]).map
        (fun t => (htblRehashIn 8 t 268435456).isSome) = some false
      ∧ byteCount 268435456 8 = -2147483648 ∧ byteCount 536870912 8 = 0
      ∧ (run (htblCallIn 4) (htblInit blank 3 0) [.op (.put (.int 1) 7)]).map
        (fun t => (htblRehashIn 4 t 1073741825).isSome) = some false
      ∧ byteCount 1073741825 4 = 4 := by
  decide +kernel

end Rms.Util.Hashtable
