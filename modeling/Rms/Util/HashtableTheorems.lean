/-
Rms.Util.HashtableTheorems — the hash table of `lib/util/hashtable.c` is
a finite map.

`Represents t chains fs m` ties a table to a map: bucket `h` is the chain
`chains h`, every entry of it belongs there by the hash of its key, no
key occurs twice, the entries are those of `m`, the counters count them,
and the pool is the chain `fs` of entries that are in no bucket. One
lemma per call keeps it.

As in the queue, the pool's back pointer is not moved when an entry is
released behind it, and `ReleaseSafe` is the condition under which that
is harmless. A table without a pool meets it always (`htbl_refines_map`).
-/
import Mathlib.Data.List.Perm.Subperm
import Rms.Lib.Chains
import Rms.Lib.Refinement
import Rms.Util.Hashtable
import Rms.Util.Htbl

namespace Rms.Util.Hashtable

open Rms.Chains Rms.Runs

variable {α : Type*}

/-! ## Links and bodies -/

def links (t : Hashtbl α) (a : Nat) : Option Nat := (t.nodes a).next

/-- An entry without its link. -/
def body (t : Hashtbl α) (a : Nat) : HtblEntry α := { t.nodes a with next := none }

theorem links_setNode (t : Hashtbl α) (a : Nat) (entry : HtblEntry α) :
    links (t.setNode a entry) = Function.update (links t) a entry.next := by
  funext b
  by_cases h : b = a
  · subst h
    simp [links, Hashtbl.setNode]
  · simp [links, Hashtbl.setNode, h]

theorem links_setNext (t : Hashtbl α) (a : Nat) (link : Option Nat) :
    links (t.setNext a link) = Function.update (links t) a link := links_setNode t a _

theorem body_setNode (t : Hashtbl α) (a : Nat) (entry : HtblEntry α) :
    body (t.setNode a entry) = Function.update (body t) a { entry with next := none } := by
  funext b
  by_cases h : b = a
  · subst h
    simp [body, Hashtbl.setNode]
  · simp [body, Hashtbl.setNode, h]

@[simp] theorem body_setNext (t : Hashtbl α) (a : Nat) (link : Option Nat) :
    body (t.setNext a link) = body t := by
  rw [Hashtbl.setNext, body_setNode]
  exact Function.update_eq_self a (body t)

/-! ## Representation -/

/-- The table stands for the map `m`. -/
structure Represents (t : Hashtbl α) (chains : Nat → List Nat) (fs : List Nat)
    (m : AList fun _ : HtblKey => α) : Prop where
  chain : ∀ h, Path (links t) (t.entries h) (chains h) none
  bucket : ∀ h, ∀ a ∈ chains h, (body t a).key.hash t.tblSize = h ∧ (body t a).hash = h
    ∧ (body t a).type = (body t a).key.type
  once : ∀ h, ∀ a ∈ chains h, ∀ b ∈ chains h, (body t a).key = (body t b).key → a = b
  lookup : ∀ k d, m.lookup k = some d ↔
    ∃ a ∈ chains (k.hash t.tblSize), (body t a).key = k ∧ (body t a).data = d
  count : t.nEntries = m.keys.length
  lengths : ∀ h, t.entriesChainLengths h = (chains h).length
  pool : Path (links t) t.entryFront fs none
  back : t.entryFront = none → t.entryBack = none
  apart : ∀ a ∈ fs, ∀ h, a ∉ chains h
  bound : ∀ a, (∃ h, a ∈ chains h) ∨ a ∈ fs → a < t.brk

variable {t : Hashtbl α} {chains : Nat → List Nat} {fs : List Nat}
  {m : AList fun _ : HtblKey => α} {key : HtblKey}

/-- A table of the same entries. -/
theorem Represents.mono {t' : Hashtbl α} {fs' : List Nat} (r : Represents t chains fs m)
    (hchain : ∀ h, Path (links t') (t'.entries h) (chains h) none)
    (hsize : t'.tblSize = t.tblSize) (hbody : body t' = body t)
    (hcount : t'.nEntries = t.nEntries)
    (hlengths : t'.entriesChainLengths = t.entriesChainLengths)
    (hpool : Path (links t') t'.entryFront fs' none)
    (hback : t'.entryFront = none → t'.entryBack = none)
    (hapart : ∀ a ∈ fs', ∀ h, a ∉ chains h)
    (hbound : ∀ a, (∃ h, a ∈ chains h) ∨ a ∈ fs' → a < t'.brk) :
    Represents t' chains fs' m where
  chain := hchain
  bucket := by rw [hbody, hsize]; exact r.bucket
  once := by rw [hbody]; exact r.once
  lookup := by rw [hbody, hsize]; exact r.lookup
  count := hcount.trans r.count
  lengths := by rw [hlengths]; exact r.lengths
  pool := hpool
  back := hback
  apart := hapart
  bound := hbound

theorem Represents.length_le (r : Represents t chains fs m) (h : Nat) :
    (chains h).length ≤ t.brk := by
  have hsub : chains h ⊆ List.range t.brk := fun a ha =>
    List.mem_range.mpr (r.bound a (Or.inl ⟨h, ha⟩))
  have hle := ((r.chain h).nodup.subperm hsub).length_le
  rwa [List.length_range] at hle

/-- An entry is in one bucket. -/
theorem Represents.same_bucket (r : Represents t chains fs m) {h h' a : Nat} (ha : a ∈ chains h)
    (ha' : a ∈ chains h') : h = h' :=
  (r.bucket h a ha).1.symm.trans (r.bucket h' a ha').1

/-- A key is in one entry, of all the buckets. -/
theorem Represents.once_all (r : Represents t chains fs m) {h h' a b : Nat} (ha : a ∈ chains h)
    (hb : b ∈ chains h') (hkeys : (body t a).key = (body t b).key) : a = b := by
  have hsame : h = h' := by
    rw [← (r.bucket h a ha).1, ← (r.bucket h' b hb).1, hkeys]
  subst hsame
  exact r.once h a ha b hb hkeys

/-- The buckets hold the entries of the map. -/
theorem Represents.lookup_all (r : Represents t chains fs m) (k : HtblKey) (d : α) :
    m.lookup k = some d ↔ ∃ h, ∃ a ∈ chains h, (body t a).key = k ∧ (body t a).data = d := by
  rw [r.lookup]
  constructor
  · intro ⟨a, ha, hkey, hdata⟩
    exact ⟨_, a, ha, hkey, hdata⟩
  · intro ⟨h, a, ha, hkey, hdata⟩
    refine ⟨a, ?_, hkey, hdata⟩
    have hhash : k.hash t.tblSize = h := by
      rw [← hkey]
      exact (r.bucket h a ha).1
    rwa [hhash]

theorem Represents.mem_keys (r : Represents t chains fs m) {h a : Nat} (ha : a ∈ chains h) :
    (body t a).key ∈ m.keys := by
  have hfound := (r.lookup_all (body t a).key (body t a).data).mpr ⟨h, a, ha, rfl, rfl⟩
  exact AList.lookup_isSome.mp (by rw [hfound]; rfl)

/-! ## Finding an entry -/

theorem walk_absent {as : List Nat} (hp : ∀ a ∈ as, ¬ (t.nodes a).holds key) :
    ∀ {n : Nat} {p prev : Option Nat}, Path (links t) p as none → as.length < n →
      ∃ prev', walk t key n p prev = some (none, prev') := by
  induction as with
  | nil =>
    intro n p prev h hn
    obtain ⟨n, rfl⟩ := Nat.exists_eq_succ_of_ne_zero (Nat.ne_of_gt hn)
    obtain rfl : p = none := h
    exact ⟨prev, rfl⟩
  | cons a as ih =>
    intro n p prev h hn
    obtain ⟨n, rfl⟩ := Nat.exists_eq_succ_of_ne_zero (Nat.ne_of_gt (Nat.lt_of_le_of_lt
      (Nat.zero_le _) hn))
    obtain ⟨rfl, h⟩ := h
    rw [List.length_cons] at hn
    simp only [walk, if_neg (hp a (List.mem_cons_self ..))]
    exact ih (fun b hb => hp b (List.mem_cons_of_mem a hb)) h (Nat.lt_of_succ_lt_succ hn)

/-- The walk stops at the first entry that holds the key, and remembers the
one before. -/
theorem walk_present {l r : List Nat} {a : Nat} (hp : ∀ b ∈ l, ¬ (t.nodes b).holds key)
    (ha : (t.nodes a).holds key) :
    ∀ {n : Nat} {p prev : Option Nat}, Path (links t) p (l ++ a :: r) none →
      (l ++ a :: r).length < n → walk t key n p prev = some (some a, l.getLast?.or prev) := by
  induction l with
  | nil =>
    intro n p prev h hn
    obtain ⟨n, rfl⟩ := Nat.exists_eq_succ_of_ne_zero (Nat.ne_of_gt (Nat.lt_of_le_of_lt
      (Nat.zero_le _) hn))
    obtain ⟨rfl, -⟩ := h
    simp only [walk, if_pos ha]
    rfl
  | cons b l ih =>
    intro n p prev h hn
    obtain ⟨n, rfl⟩ := Nat.exists_eq_succ_of_ne_zero (Nat.ne_of_gt (Nat.lt_of_le_of_lt
      (Nat.zero_le _) hn))
    obtain ⟨rfl, h⟩ := h
    rw [List.cons_append, List.length_cons] at hn
    simp only [walk, if_neg (hp b (List.mem_cons_self ..))]
    refine (ih (fun c hc => hp c (List.mem_cons_of_mem b hc)) h
      (Nat.lt_of_succ_lt_succ hn)).trans ?_
    cases l with
    | nil => rfl
    | cons c l =>
      rw [List.getLast?_cons_cons]
      cases hlast : (c :: l).getLast? with
      | none => simp at hlast
      | some d => rfl

theorem Represents.holds_iff (r : Represents t chains fs m) {h a : Nat} (ha : a ∈ chains h) :
    (t.nodes a).holds key ↔ (body t a).key = key := by
  have htype : (t.nodes a).type = (t.nodes a).key.type := (r.bucket h a ha).2.2
  simp only [HtblEntry.holds, decide_eq_true_eq, body]
  constructor
  · exact And.right
  · intro hkey
    exact ⟨by rw [htype, hkey], hkey⟩

/-- An absent key is not found. -/
theorem Represents.walk_none (r : Represents t chains fs m) (hk : m.lookup key = none) :
    ∃ prev, walkBucket t key = some (none, prev) := by
  refine walk_absent ?_ (r.chain (key.hash t.tblSize)) (Nat.lt_succ_of_le (r.length_le _))
  intro a ha hholds
  have hfound := (r.lookup key (body t a).data).mpr ⟨a, ha, (r.holds_iff ha).mp hholds, rfl⟩
  rw [hk] at hfound
  cases hfound

/-- A present key is found in its chain. -/
theorem Represents.walk_some (r : Represents t chains fs m) {d : α} (hk : m.lookup key = some d) :
    ∃ a l rest, chains (key.hash t.tblSize) = l ++ a :: rest ∧ (body t a).key = key
      ∧ (body t a).data = d ∧ walkBucket t key = some (some a, l.getLast?) := by
  obtain ⟨a, ha, hkey, hdata⟩ := (r.lookup key d).mp hk
  obtain ⟨l, rest, hsplit⟩ := List.append_of_mem ha
  refine ⟨a, l, rest, hsplit, hkey, hdata, ?_⟩
  have hlen := r.length_le (key.hash t.tblSize)
  have hchain := r.chain (key.hash t.tblSize)
  have hnodup := hchain.nodup
  rw [hsplit] at hlen hchain hnodup
  have hbefore : ∀ b ∈ l, ¬ (t.nodes b).holds key := by
    intro b hb hholds
    have hbin : b ∈ chains (key.hash t.tblSize) := by
      rw [hsplit]
      exact List.mem_append_left _ hb
    have heq := r.once _ b hbin a ha (((r.holds_iff hbin).mp hholds).trans hkey.symm)
    subst heq
    rw [List.nodup_append] at hnodup
    exact hnodup.2.2 b hb b (List.mem_cons_self ..) rfl
  have hwalk : walkBucket t key = some (some a, l.getLast?.or none) :=
    walk_present hbefore ((r.holds_iff ha).mpr hkey) hchain (Nat.lt_succ_of_le hlen)
  rwa [Option.or_none] at hwalk

/-! ## The pool -/

theorem represents_allocEntry (r : Represents t chains fs m) :
    ∃ fs', Represents (allocEntry t).1 chains fs' m ∧ (∀ h, (allocEntry t).2 ∉ chains h)
      ∧ (allocEntry t).2 ∉ fs' ∧ (allocEntry t).2 < (allocEntry t).1.brk
      ∧ (allocEntry t).1.tblSize = t.tblSize := by
  unfold allocEntry
  split
  · rename_i entry _ hfront
    cases fs with
    | nil =>
      have hnull : t.entryFront = none := r.pool
      rw [hfront] at hnull
      cases hnull
    | cons b fs =>
      obtain ⟨hb, hpool⟩ := r.pool
      obtain rfl : entry = b := Option.some.inj (hfront.symm.trans hb)
      have hnodup : entry ∉ fs := (List.nodup_cons.mp r.pool.nodup).1
      refine ⟨fs, ?_, r.apart entry (List.mem_cons_self ..), hnodup,
        r.bound entry (Or.inr (List.mem_cons_self ..)), rfl⟩
      refine r.mono r.chain rfl rfl rfl rfl hpool ?_ ?_ ?_
      · intro hnull
        exact if_pos hnull
      · exact fun a ha => r.apart a (List.mem_cons_of_mem entry ha)
      · exact fun a ha => r.bound a (ha.imp_right (List.mem_cons_of_mem entry))
  · have hfresh : ∀ a, (∃ h, a ∈ chains h) ∨ a ∈ fs → a ≠ t.brk :=
      fun a ha => Nat.ne_of_lt (r.bound a ha)
    refine ⟨fs, ?_, fun h hmem => hfresh _ (Or.inl ⟨h, hmem⟩) rfl,
      fun h => hfresh _ (Or.inr h) rfl, Nat.lt_succ_self _, rfl⟩
    exact r.mono r.chain rfl rfl rfl rfl r.pool r.back r.apart
      fun a ha => Nat.lt_succ_of_lt (r.bound a ha)

/-- Clearing the link of an entry that is in no bucket. -/
theorem Represents.cut (r : Represents t chains fs m) {entry : Nat}
    (hchains : ∀ h, entry ∉ chains h) (hfs : entry ∉ fs) :
    Represents (t.setNext entry none) chains fs m := by
  refine r.mono ?_ rfl (body_setNext _ _ _) rfl rfl ?_ r.back r.apart r.bound
  · intro h
    rw [links_setNext]
    exact (r.chain h).update (hchains h) none
  · show Path (links (t.setNext entry none)) t.entryFront fs none
    rw [links_setNext]
    exact r.pool.update hfs none

/-- Releasing an entry that is in no bucket, with `entry_back` in none
either. -/
theorem represents_releaseEntry (r : Represents t chains fs m) {entry : Nat}
    (hchains : ∀ h, entry ∉ chains h) (hfs : entry ∉ fs) (hbrk : entry < t.brk)
    (hback : t.initbuf ≠ 0 → t.nbuf < 3 * t.initbuf → ∀ b, t.entryBack = some b →
      ∀ h, b ∉ chains h) :
    ∃ fs', Represents (releaseEntry t entry) chains fs' m := by
  have hchain : ∀ h, Path (links (t.setNext entry none)) (t.entries h) (chains h) none := by
    intro h
    rw [links_setNext]
    exact (r.chain h).update (hchains h) none
  unfold releaseEntry
  dsimp only
  split
  · rename_i hroom
    split
    · rename_i b hb
      obtain ⟨fs', hpath, hmem⟩ := r.pool.release hfs b
      refine ⟨fs', r.mono ?_ rfl ?_ rfl rfl ?_ r.back ?_ ?_⟩
      · intro h
        show Path (links ((t.setNext entry none).setNext b (some entry))) (t.entries h) _ none
        rw [links_setNext]
        exact (hchain h).update (hback hroom.1 hroom.2 b hb h) (some entry)
      · show body ((t.setNext entry none).setNext b (some entry)) = body t
        rw [body_setNext, body_setNext]
      · show Path (links ((t.setNext entry none).setNext b (some entry))) t.entryFront fs' none
        rw [links_setNext, links_setNext]
        exact hpath
      · intro a ha
        rcases hmem a ha with h | rfl
        · exact r.apart a h
        · exact hchains
      · rintro a (ha | ha)
        · exact r.bound a (Or.inl ha)
        rcases hmem a ha with h | rfl
        · exact r.bound a (Or.inr h)
        · exact hbrk
    · -- the pool is empty: the entry is all of it
      refine ⟨[entry], r.mono hchain rfl (body_setNext _ _ _) rfl rfl ?_ (fun h => by cases h) ?_ ?_⟩
      · refine ⟨rfl, ?_⟩
        show links (t.setNext entry none) entry = none
        rw [links_setNext, Function.update_self]
      · intro a ha
        rw [List.mem_singleton.mp ha]
        exact hchains
      · rintro a (ha | ha)
        · exact r.bound a (Or.inl ha)
        · rw [List.mem_singleton.mp ha]
          exact hbrk
  · exact ⟨fs, r.cut hchains hfs⟩

/-! ## The operations -/

theorem Represents.locate_none (r : Represents t chains fs m) (hk : m.lookup key = none) :
    locate t key = some none := by
  obtain ⟨prev, hwalk⟩ := r.walk_none hk
  rw [locate, hwalk]
  rfl

theorem Represents.locate_some (r : Represents t chains fs m) {d : α}
    (hk : m.lookup key = some d) :
    ∃ a ∈ chains (key.hash t.tblSize), (body t a).key = key ∧ (body t a).data = d
      ∧ locate t key = some (some a) := by
  obtain ⟨a, l, rest, hsplit, hkey, hdata, hwalk⟩ := r.walk_some hk
  refine ⟨a, ?_, hkey, hdata, ?_⟩
  · rw [hsplit]
    exact List.mem_append_right l (List.mem_cons_self ..)
  · rw [locate, hwalk]
    rfl

theorem Represents.absent (r : Represents t chains fs m) (hk : m.lookup key = none) {h a : Nat}
    (ha : a ∈ chains h) : (body t a).key ≠ key := by
  rintro rfl
  exact AList.lookup_eq_none.mp hk (r.mem_keys ha)

/-- The chains with one more entry. -/
theorem mem_linked {a h h' b : Nat} :
    b ∈ Function.update chains h (a :: chains h) h' ↔ (b = a ∧ h' = h) ∨ b ∈ chains h' := by
  by_cases heq : h' = h
  · subst heq
    simp
  · simp [heq]

/-- One chain and its counter changed by as much. -/
theorem Represents.lengths_update (r : Represents t chains fs m) {h : Nat} {as : List Nat} {n : Int}
    (has : ((chains h).length : Int) + n = as.length) (h' : Nat) :
    Function.update t.entriesChainLengths h (t.entriesChainLengths h + n) h'
      = ((Function.update chains h as h').length : Int) := by
  by_cases heq : h' = h
  · subst heq
    rw [Function.update_self, Function.update_self, r.lengths]
    exact has
  · rw [Function.update_of_ne heq, Function.update_of_ne heq]
    exact r.lengths h'

/-- A new entry is not one of those in the buckets. -/
theorem body_update {a h b : Nat} (ha : ∀ h, a ∉ chains h) (hb : b ∈ chains h)
    (entry : HtblEntry α) : Function.update (body t) a entry b = body t b := by
  rw [Function.update_of_ne]
  rintro rfl
  exact ha h hb

/-- The map with the key of a new entry. -/
theorem Represents.lookup_linked (r : Represents t chains fs m) (entry : HtblEntry α)
    (hk : m.lookup entry.key = none) {a h : Nat} (hh : entry.key.hash t.tblSize = h)
    (ha : ∀ h, a ∉ chains h) (k : HtblKey) (d : α) :
    (m.insert entry.key entry.data).lookup k = some d
      ↔ ∃ b ∈ Function.update chains h (a :: chains h) (k.hash t.tblSize),
        (Function.update (body t) a entry b).key = k
          ∧ (Function.update (body t) a entry b).data = d := by
  simp only [mem_linked]
  by_cases heq : k = entry.key
  · subst heq
    rw [AList.lookup_insert]
    constructor
    · intro hd
      refine ⟨a, .inl ⟨rfl, hh⟩, ?_⟩
      rw [Function.update_self]
      exact ⟨rfl, Option.some.inj hd⟩
    · rintro ⟨b, ⟨rfl, -⟩ | hb, hkey, hdata⟩
      · rw [Function.update_self] at hdata
        exact congrArg some hdata
      · rw [body_update ha hb] at hkey
        exact absurd hkey (r.absent hk hb)
  · rw [AList.lookup_insert_ne heq, r.lookup]
    constructor
    · rintro ⟨b, hb, hkey, hdata⟩
      refine ⟨b, .inr hb, ?_⟩
      rw [body_update ha hb]
      exact ⟨hkey, hdata⟩
    · rintro ⟨b, ⟨rfl, -⟩ | hb, hkey, hdata⟩
      · rw [Function.update_self] at hkey
        exact absurd hkey.symm heq
      · rw [body_update ha hb] at hkey hdata
        exact ⟨b, hb, hkey, hdata⟩

/-- A new entry at the front of its chain. -/
theorem Represents.link (r : Represents t chains fs m) (hk : m.lookup key = none) {a : Nat}
    (ha : ∀ h, a ∉ chains h) (hfs : a ∉ fs) (hbrk : a < t.brk) (data : α) :
    Represents
      (((t.setNode a ⟨key.type, key.hash t.tblSize, key, data, t.entries (key.hash t.tblSize)⟩).setBucket
        (key.hash t.tblSize) (some a)).addCount (key.hash t.tblSize) 1)
      (Function.update chains (key.hash t.tblSize) (a :: chains (key.hash t.tblSize))) fs
      (m.insert key data) := by
  generalize hh : key.hash t.tblSize = h
  have hlinks := links_setNode t a ⟨key.type, h, key, data, t.entries h⟩
  have hbodies := body_setNode t a ⟨key.type, h, key, data, t.entries h⟩
  constructor
  case chain =>
    intro h'
    show Path (links (t.setNode a _)) (Function.update t.entries h (some a) h') _ none
    rw [hlinks]
    by_cases heq : h' = h
    · subst heq
      rw [Function.update_self, Function.update_self]
      exact (r.chain h').cons (ha h')
    · rw [Function.update_of_ne heq, Function.update_of_ne heq]
      exact (r.chain h').update (ha h') _
  case bucket =>
    intro h' b hb
    show (body (t.setNode a _) b).key.hash t.tblSize = h' ∧ (body (t.setNode a _) b).hash = h'
      ∧ (body (t.setNode a _) b).type = (body (t.setNode a _) b).key.type
    rw [hbodies]
    rcases mem_linked.mp hb with ⟨rfl, rfl⟩ | hb
    · rw [Function.update_self]
      exact ⟨hh, rfl, rfl⟩
    · rw [body_update ha hb]
      exact r.bucket h' b hb
  case once =>
    intro h' b hb c hc
    show (body (t.setNode a _) b).key = (body (t.setNode a _) c).key → b = c
    rw [hbodies]
    intro hkeys
    rcases mem_linked.mp hb with ⟨hba, -⟩ | hb' <;> rcases mem_linked.mp hc with ⟨hca, -⟩ | hc'
    · rw [hba, hca]
    · rw [hba, Function.update_self, body_update ha hc'] at hkeys
      exact absurd hkeys.symm (r.absent hk hc')
    · rw [hca, Function.update_self, body_update ha hb'] at hkeys
      exact absurd hkeys (r.absent hk hb')
    · rw [body_update ha hb', body_update ha hc'] at hkeys
      exact r.once h' b hb' c hc' hkeys
  case lookup =>
    intro k d
    show _ ↔ ∃ b ∈ Function.update chains h (a :: chains h) (k.hash t.tblSize),
      (body (t.setNode a _) b).key = k ∧ (body (t.setNode a _) b).data = d
    rw [hbodies]
    exact r.lookup_linked ⟨key.type, h, key, data, none⟩ hk hh ha k d
  case count =>
    have hkeys : key ∉ m.keys := AList.lookup_eq_none.mp hk
    show t.nEntries + 1 = _
    rw [AList.keys_insert, List.length_cons, List.erase_of_not_mem hkeys, r.count]
    rfl
  case lengths =>
    intro h'
    show Function.update t.entriesChainLengths h (t.entriesChainLengths h + 1) h' = _
    exact r.lengths_update (by rw [List.length_cons, Int.natCast_add]; rfl) h'
  case pool =>
    show Path (links (t.setNode a _)) t.entryFront fs none
    rw [hlinks]
    exact r.pool.update hfs _
  case back => exact r.back
  case apart =>
    intro b hb h' hmem'
    rcases mem_linked.mp hmem' with ⟨rfl, -⟩ | hmem'
    · exact hfs hb
    · exact r.apart b hb h' hmem'
  case bound =>
    rintro b (⟨h', hb⟩ | hb)
    · rcases mem_linked.mp hb with ⟨rfl, -⟩ | hb
      · exact hbrk
      · exact r.bound b (Or.inl ⟨h', hb⟩)
    · exact r.bound b (Or.inr hb)

theorem represents_put (r : Represents t chains fs m) (key : HtblKey) (data : α) :
    ∃ t', put t key data = some (t', (mapStep m (.put key data)).2)
      ∧ (∃ chains' fs', Represents t' chains' fs' (mapStep m (.put key data)).1)
      ∧ (m.lookup key ≠ none → t' = t) := by
  unfold put
  simp only [mapStep]
  cases hk : m.lookup key with
  | some d =>
    obtain ⟨a, -, -, -, hlocate⟩ := r.locate_some hk
    rw [hlocate]
    exact ⟨t, rfl, ⟨chains, fs, r⟩, fun _ => rfl⟩
  | none =>
    rw [r.locate_none hk]
    obtain ⟨fs', r₁, hchains, hfs, hbrk, hsize⟩ := represents_allocEntry r
    have r₂ := r₁.link hk hchains hfs hbrk data
    rw [hsize] at r₂
    exact ⟨_, rfl, ⟨_, fs', r₂⟩, fun h => absurd rfl h⟩

theorem represents_get (r : Represents t chains fs m) (key : HtblKey) :
    get t key = some (t, (mapStep m (.get key)).2) ∧ (mapStep m (.get key)).1 = m := by
  unfold get
  simp only [mapStep]
  cases hk : m.lookup key with
  | some d =>
    obtain ⟨a, -, -, hdata, hlocate⟩ := r.locate_some hk
    rw [hlocate, ← hdata]
    exact ⟨rfl, rfl⟩
  | none =>
    rw [r.locate_none hk]
    exact ⟨rfl, rfl⟩

/-- The data of a present key replaced. -/
theorem Represents.overwrite (r : Represents t chains fs m) {a h : Nat} (ha : a ∈ chains h)
    (hkey : (body t a).key = key) (data : α) :
    Represents (t.setNode a { t.nodes a with data := data, type := key.type }) chains fs
      (m.insert key data) := by
  obtain ⟨hhash, -, htype⟩ := r.bucket h a ha
  have hlinks : links (t.setNode a { t.nodes a with data := data, type := key.type }) = links t := by
    rw [links_setNode]
    exact Function.update_eq_self a (links t)
  -- only the data of the one entry is new
  have hbody : ∀ b, body (t.setNode a { t.nodes a with data := data, type := key.type }) b
      = { body t b with data := if b = a then data else (body t b).data } := by
    intro b
    rw [body_setNode]
    by_cases hb : b = a
    · subst hb
      rw [Function.update_self, if_pos rfl, ← hkey, ← htype]
      rfl
    · rw [Function.update_of_ne hb, if_neg hb]
  constructor
  case chain => rw [hlinks]; exact r.chain
  case bucket =>
    intro h' b hb
    rw [hbody]
    exact r.bucket h' b hb
  case once =>
    intro h' b hb c hc
    rw [hbody, hbody]
    exact r.once h' b hb c hc
  case lookup =>
    intro k d
    show _ ↔ ∃ b ∈ chains (k.hash t.tblSize), _
    simp only [hbody]
    by_cases heq : k = key
    · subst heq
      have hk : k.hash t.tblSize = h := by
        rw [← hkey]
        exact hhash
      rw [AList.lookup_insert, hk]
      constructor
      · intro hd
        exact ⟨a, ha, hkey, by rw [if_pos rfl]; exact Option.some.inj hd⟩
      · rintro ⟨b, hb, hbkey, hdata⟩
        rw [if_pos (r.once h b hb a ha (hbkey.trans hkey.symm))] at hdata
        exact congrArg some hdata
    · rw [AList.lookup_insert_ne heq, r.lookup]
      have hne : ∀ b, (body t b).key = k → b ≠ a := by
        rintro b hb rfl
        exact heq (hb.symm.trans hkey)
      constructor
      · rintro ⟨b, hb, hbkey, hdata⟩
        exact ⟨b, hb, hbkey, by rw [if_neg (hne b hbkey)]; exact hdata⟩
      · rintro ⟨b, hb, hbkey, hdata⟩
        rw [if_neg (hne b hbkey)] at hdata
        exact ⟨b, hb, hbkey, hdata⟩
  case count =>
    have hmem : key ∈ m.keys := hkey ▸ r.mem_keys ha
    show t.nEntries = _
    rw [AList.keys_insert, List.length_cons, List.length_erase_of_mem hmem, r.count]
    have := List.length_pos_of_mem hmem
    omega
  case lengths => exact r.lengths
  case pool => rw [hlinks]; exact r.pool
  case back => exact r.back
  case apart => exact r.apart
  case bound => exact r.bound

theorem represents_replace (r : Represents t chains fs m) (key : HtblKey) (data : α) :
    ∃ t', replace t key data = some (t', (mapStep m (.replace key data)).2)
      ∧ ∃ chains' fs', Represents t' chains' fs' (mapStep m (.replace key data)).1 := by
  obtain ⟨t₁, hput, r₁, hsame⟩ := represents_put r key data
  cases hk : m.lookup key with
  | some d =>
    have hmapPut : mapStep m (.put key data) = (m, ⟨-1, none⟩) := by simp only [mapStep, hk]
    have hmap : mapStep m (.replace key data) = (m.insert key data, ⟨1, some d⟩) := by
      simp only [mapStep, hk]
    obtain rfl := hsame (by rw [hk]; exact Option.some_ne_none d)
    obtain ⟨a, ha, hkey, hdata, hlocate⟩ := r.locate_some hk
    rw [hmap]
    refine ⟨_, ?_, chains, fs, r.overwrite ha hkey data⟩
    unfold replace
    rw [hput, hmapPut, ← hdata]
    simp only [hlocate]
    rfl
  | none =>
    have hmapPut : mapStep m (.put key data) = (m.insert key data, ⟨0, none⟩) := by
      simp only [mapStep, hk]
    have hmap : mapStep m (.replace key data) = (m.insert key data, ⟨0, none⟩) := by
      simp only [mapStep, hk]
    rw [hmapPut] at hput r₁
    rw [hmap]
    refine ⟨t₁, ?_, r₁⟩
    unfold replace
    rw [hput]
    rfl

/-! ## Removing -/

/-- What taking an entry out of its chain leaves alone. -/
theorem unlink_frame (t : Hashtbl α) (h a : Nat) (prev : Option Nat) :
    body (unlink t h a prev) = body t ∧ (unlink t h a prev).tblSize = t.tblSize
      ∧ (unlink t h a prev).nEntries = t.nEntries
      ∧ (unlink t h a prev).entriesChainLengths = t.entriesChainLengths
      ∧ (unlink t h a prev).entryFront = t.entryFront
      ∧ (unlink t h a prev).entryBack = t.entryBack ∧ (unlink t h a prev).brk = t.brk := by
  cases prev with
  | none => exact ⟨rfl, rfl, rfl, rfl, rfl, rfl, rfl⟩
  | some p => exact ⟨body_setNext _ _ _, rfl, rfl, rfl, rfl, rfl, rfl⟩

/-- The entries that are left. -/
theorem Represents.mem_unlinked (r : Represents t chains fs m) {a h : Nat} {l rest : List Nat}
    (hsplit : chains h = l ++ a :: rest) {h' b : Nat} :
    b ∈ Function.update chains h (l ++ rest) h' ↔ b ∈ chains h' ∧ b ≠ a := by
  have ha : a ∈ chains h := by
    rw [hsplit]
    exact List.mem_append_right l (List.mem_cons_self ..)
  rw [Function.update_apply]
  split
  · rename_i heq
    subst heq
    have hnodup := (r.chain h').nodup
    rw [hsplit, List.nodup_middle, List.nodup_cons] at hnodup
    rw [hsplit]
    simp only [List.mem_append, List.mem_cons] at hnodup ⊢
    constructor
    · intro hb
      exact ⟨hb.imp_right Or.inr, fun hba => hnodup.1 (hba ▸ hb)⟩
    · intro ⟨hb, hne⟩
      exact hb.imp_right fun hb => hb.resolve_left hne
  · rename_i hne
    constructor
    · intro hb
      refine ⟨hb, ?_⟩
      rintro rfl
      exact hne (r.same_bucket hb ha)
    · exact And.left

/-- The chains after the unlinking, and the pool. -/
theorem Represents.unlink_paths (r : Represents t chains fs m) {a h : Nat} {l rest : List Nat}
    (hsplit : chains h = l ++ a :: rest) :
    (∀ h', Path (links (unlink t h a l.getLast?)) ((unlink t h a l.getLast?).entries h')
        (Function.update chains h (l ++ rest) h') none)
      ∧ Path (links (unlink t h a l.getLast?)) t.entryFront fs none := by
  have hchain := r.chain h
  rw [hsplit] at hchain
  -- the entry is the first of its chain, or there is one before it
  rcases List.eq_nil_or_concat l with rfl | ⟨l, p, rfl⟩
  · refine ⟨fun h' => ?_, r.pool⟩
    show Path (links t) (Function.update t.entries h (links t a) h') _ none
    by_cases heq : h' = h
    · subst heq
      rw [Function.update_self, Function.update_self]
      exact hchain.tail
    · rw [Function.update_of_ne heq, Function.update_of_ne heq]
      exact r.chain h'
  · rw [List.concat_eq_append] at *
    have hp : p ∈ chains h := by
      rw [hsplit]
      exact List.mem_append_left _ (List.mem_append_right l (List.mem_singleton_self p))
    have hset : unlink t h a (l ++ [p]).getLast? = t.setNext p (links t a) := by
      rw [List.getLast?_concat]
      rfl
    rw [hset, links_setNext]
    refine ⟨fun h' => ?_, r.pool.update (fun hmem => r.apart p hmem h hp) _⟩
    show Path _ (t.entries h') _ none
    by_cases heq : h' = h
    · subst heq
      rw [Function.update_self]
      rw [List.append_assoc] at hchain ⊢
      exact hchain.unlink
    · rw [Function.update_of_ne heq]
      exact (r.chain h').update (fun hmem => heq (r.same_bucket hmem hp)) _

/-- An entry taken out of its chain, with the counters adjusted. -/
theorem Represents.unlink (r : Represents t chains fs m) {a h : Nat} {l rest : List Nat}
    (hsplit : chains h = l ++ a :: rest) (hkey : (body t a).key = key) :
    Represents ((Hashtable.unlink t h a l.getLast?).addCount h (-1))
      (Function.update chains h (l ++ rest)) fs (m.erase key) := by
  have ha : a ∈ chains h := by
    rw [hsplit]
    exact List.mem_append_right l (List.mem_cons_self ..)
  have hmem : key ∈ m.keys := hkey ▸ r.mem_keys ha
  obtain ⟨hchains, hpool⟩ := r.unlink_paths hsplit
  obtain ⟨hbody, hsize, hcount, hlengths, hfront, hback, hbrk⟩ :=
    unlink_frame t h a l.getLast?
  generalize Hashtable.unlink t h a l.getLast? = t₁
    at hchains hpool hbody hsize hcount hlengths hfront hback hbrk ⊢
  have hsub : ∀ {h' b}, b ∈ Function.update chains h (l ++ rest) h' → b ∈ chains h' ∧ b ≠ a :=
    fun hb => (r.mem_unlinked hsplit).mp hb
  constructor
  case chain => exact hchains
  case bucket =>
    intro h' b hb
    show (body t₁ b).key.hash t₁.tblSize = h' ∧ (body t₁ b).hash = h'
      ∧ (body t₁ b).type = (body t₁ b).key.type
    rw [hbody, hsize]
    exact r.bucket h' b (hsub hb).1
  case once =>
    intro h' b hb c hc
    show (body t₁ b).key = (body t₁ c).key → b = c
    rw [hbody]
    exact r.once h' b (hsub hb).1 c (hsub hc).1
  case lookup =>
    intro k d
    show _ ↔ ∃ b ∈ Function.update chains h (l ++ rest) (k.hash t₁.tblSize),
      (body t₁ b).key = k ∧ (body t₁ b).data = d
    rw [hbody, hsize]
    by_cases heq : k = key
    · subst heq
      rw [AList.lookup_erase]
      refine ⟨fun hd => (by cases hd), ?_⟩
      rintro ⟨b, hb, hbkey, -⟩
      exact absurd (r.once_all (hsub hb).1 ha (hbkey.trans hkey.symm)) (hsub hb).2
    · rw [AList.lookup_erase_ne heq, r.lookup]
      constructor
      · rintro ⟨b, hb, hbkey, hdata⟩
        have hne : b ≠ a := by
          rintro rfl
          exact heq (hbkey.symm.trans hkey)
        exact ⟨b, (r.mem_unlinked hsplit).mpr ⟨hb, hne⟩, hbkey, hdata⟩
      · rintro ⟨b, hb, hbkey, hdata⟩
        exact ⟨b, (hsub hb).1, hbkey, hdata⟩
  case count =>
    have hpos := List.length_pos_of_mem hmem
    show t₁.nEntries + -1 = _
    rw [hcount, AList.keys_erase, List.length_erase_of_mem hmem, r.count]
    omega
  case lengths =>
    intro h'
    show Function.update t₁.entriesChainLengths h (t₁.entriesChainLengths h + -1) h' = _
    rw [hlengths]
    refine r.lengths_update ?_ h'
    rw [hsplit]
    simp only [List.length_append, List.length_cons]
    omega
  case pool =>
    show Path (links t₁) t₁.entryFront fs none
    rw [hfront]
    exact hpool
  case back =>
    show t₁.entryFront = none → t₁.entryBack = none
    rw [hfront, hback]
    exact r.back
  case apart => exact fun b hb h' hmem => r.apart b hb h' (hsub hmem).1
  case bound =>
    show ∀ b, _ → b < t₁.brk
    rw [hbrk]
    rintro b (⟨h', hb⟩ | hb)
    · exact r.bound b (Or.inl ⟨h', (hsub hb).1⟩)
    · exact r.bound b (Or.inr hb)

theorem releaseEntry_addCount (t : Hashtbl α) (entry h : Nat) (n : Int) :
    (releaseEntry t entry).addCount h n = releaseEntry (t.addCount h n) entry := by
  unfold releaseEntry
  dsimp only [Hashtbl.setNext, Hashtbl.setNode, Hashtbl.addCount]
  split
  · split <;> rfl
  · rfl

theorem unlink_pool (t : Hashtbl α) (h a : Nat) (prev : Option Nat) :
    (unlink t h a prev).initbuf = t.initbuf ∧ (unlink t h a prev).nbuf = t.nbuf
      ∧ (unlink t h a prev).entryBack = t.entryBack ∧ (unlink t h a prev).brk = t.brk
      ∧ (unlink t h a prev).tblSize = t.tblSize := by
  cases prev <;> exact ⟨rfl, rfl, rfl, rfl, rfl⟩

/-- The entries of a chain, as far as there are entries. -/
def chainNodes (t : Hashtbl α) : Nat → Option Nat → List Nat
  | 0, _ => []
  | _ + 1, none => []
  | n + 1, some a => a :: chainNodes t n (t.nodes a).next

/-- The entries in a bucket. -/
def bucketNodes (t : Hashtbl α) (h : Nat) : List Nat := chainNodes t t.brk (t.entries h)

/-- A removal that puts the entry into the pool finds `entry_back` on no
other entry of a bucket. -/
def ReleaseSafe (t : Hashtbl α) : HtblOp α → Prop
  | .remove key => t.initbuf ≠ 0 → t.nbuf < 3 * t.initbuf →
      ∀ a ∈ (locate t key).join, ∀ b ∈ t.entryBack, b ≠ a →
        ∀ h < t.tblSize, b ∉ bucketNodes t h
  | _ => True

instance (t : Hashtbl α) : ∀ op, Decidable (ReleaseSafe t op)
  | .remove key =>
      forall_prop_decidable fun _ : t.initbuf ≠ 0 => t.nbuf < 3 * t.initbuf →
        ∀ a ∈ (locate t key).join, ∀ b ∈ t.entryBack, b ≠ a →
          ∀ h < t.tblSize, b ∉ bucketNodes t h
  | .put _ _ => isTrue trivial
  | .get _ => isTrue trivial
  | .replace _ _ => isTrue trivial

/-- Without a pool every call is safe. -/
theorem releaseSafe_of_initbuf (hinitbuf : t.initbuf = 0) (op : HtblOp α) : ReleaseSafe t op := by
  cases op with
  | remove key => exact fun hne => absurd hinitbuf hne
  | _ => trivial

theorem chainNodes_eq {as : List Nat} :
    ∀ {n : Nat} {p : Option Nat}, Path (links t) p as none → as.length ≤ n →
      chainNodes t n p = as := by
  induction as with
  | nil =>
    intro n p h _
    obtain rfl : p = none := h
    cases n <;> rfl
  | cons a as ih =>
    intro n p h hn
    obtain ⟨n, rfl⟩ := Nat.exists_eq_succ_of_ne_zero (Nat.ne_of_gt (Nat.lt_of_lt_of_le
      (Nat.succ_pos _) hn))
    obtain ⟨rfl, h⟩ := h
    exact congrArg (a :: ·) (ih h (Nat.le_of_succ_le_succ hn))

theorem Represents.bucketNodes_eq (r : Represents t chains fs m) (h : Nat) :
    bucketNodes t h = chains h := chainNodes_eq (r.chain h) (r.length_le h)

theorem HtblKey.hash_lt (key : HtblKey) {n : Nat} (hn : 0 < n) : key.hash n < n := by
  cases key with
  | int key => exact Nat.mod_lt _ hn
  | str key => exact Nat.mod_lt _ hn

theorem represents_remove (r : Represents t chains fs m) (hsize : 0 < t.tblSize)
    (hsafe : ReleaseSafe t (.remove key)) :
    ∃ t', remove t key = some (t', (mapStep m (.remove key)).2)
      ∧ ∃ chains' fs', Represents t' chains' fs' (mapStep m (.remove key)).1 := by
  cases hk : m.lookup key with
  | none =>
    have hmap : mapStep m (.remove key) = (m, ⟨0, none⟩) := by simp only [mapStep, hk]
    obtain ⟨prev, hwalk⟩ := r.walk_none hk
    rw [hmap]
    refine ⟨t, ?_, chains, fs, r⟩
    rw [remove, hwalk]
  | some d =>
    have hmap : mapStep m (.remove key) = (m.erase key, ⟨1, some d⟩) := by simp only [mapStep, hk]
    obtain ⟨a, l, rest, hsplit, hkey, hdata, hwalk⟩ := r.walk_some hk
    have r₁ := r.unlink hsplit hkey
    have hbody := (unlink_frame t (key.hash t.tblSize) a l.getLast?).1
    obtain ⟨hinitbuf, hnbuf, hback, hbrk, -⟩ :=
      unlink_pool t (key.hash t.tblSize) a l.getLast?
    have ha : a ∈ chains (key.hash t.tblSize) := by
      rw [hsplit]
      exact List.mem_append_right l (List.mem_cons_self ..)
    have hlocate : a ∈ (locate t key).join := by
      rw [locate, hwalk]
      rfl
    obtain ⟨fs', r₂⟩ := represents_releaseEntry r₁
      (fun h' hmem => ((r.mem_unlinked hsplit).mp hmem).2 rfl)
      (fun hmem => r.apart a hmem _ ha)
      (by show a < (unlink t _ a _).brk; rw [hbrk]; exact r.bound a (Or.inl ⟨_, ha⟩)) (by
        show (unlink t _ a _).initbuf ≠ 0 → (unlink t _ a _).nbuf < 3 * (unlink t _ a _).initbuf →
          ∀ b, (unlink t _ a _).entryBack = some b → _
        rw [hinitbuf, hnbuf, hback]
        intro hinit hroom b hb h' hmem
        obtain ⟨hmem, hne⟩ := (r.mem_unlinked hsplit).mp hmem
        have hlt : h' < t.tblSize := by
          rw [← (r.bucket h' b hmem).1]
          exact HtblKey.hash_lt _ hsize
        refine hsafe hinit hroom a hlocate b hb hne h' hlt ?_
        rw [r.bucketNodes_eq]
        exact hmem)
    rw [hmap]
    refine ⟨_, ?_, _, fs', r₂⟩
    have hread : ((unlink t (key.hash t.tblSize) a l.getLast?).nodes a).data = d := by
      rw [← hdata, ← hbody]
      rfl
    rw [remove, hwalk]
    simp only [hread, releaseEntry_addCount]

/-! ## Whole runs -/

theorem represents_htblInitPool (n : Nat) :
    ∀ {t : Hashtbl α} {l : List Nat} {back : Nat}, Represents t (fun _ => []) (l ++ [back]) ∅ →
      ∃ fs, Represents (htblInitPool n back t) (fun _ => []) fs ∅ := by
  induction n with
  | zero =>
    intro t l back r
    exact ⟨_, r⟩
  | succ n ih =>
    intro t l back r
    have hfresh : t.brk ∉ l ++ [back] := fun h => Nat.lt_irrefl _ (r.bound _ (Or.inr h))
    have hne : back ≠ t.brk := by
      rintro rfl
      exact hfresh (List.mem_append_right l (List.mem_singleton_self _))
    have hnodes : l ++ [back, t.brk] = (l ++ [back]) ++ [t.brk] := by simp
    have hlinks : links ((t.malloc.1.setNext back (some t.brk)).setNext t.brk none)
        = Function.update (Function.update (links t) t.brk none) back (some t.brk) := by
      rw [links_setNext, links_setNext, Function.update_comm hne]
      rfl
    refine ih (l := l ++ [back]) ?_
    rw [← hnodes]
    refine r.mono r.chain rfl ?_ rfl rfl ?_ ?_ ?_ ?_
    · show body ((t.malloc.1.setNext back (some t.brk)).setNext t.brk none) = body t
      rw [body_setNext, body_setNext]
      rfl
    · show Path (links ((t.malloc.1.setNext back (some t.brk)).setNext t.brk none)) t.entryFront
        (l ++ [back, t.brk]) none
      rw [hlinks]
      exact r.pool.concat hfresh
    · intro hnull
      have hfront := r.pool.head?
      have hnull' : t.entryFront = none := hnull
      rw [hnull'] at hfront
      exact absurd (List.head?_eq_none_iff.mp hfront.symm) (by simp)
    · exact fun a _ h hmem => by cases hmem
    · rintro a (⟨h, ha⟩ | ha)
      · cases ha
      · show a < t.brk + 1
        simp only [List.mem_append, List.mem_cons, List.not_mem_nil, or_false] at ha
        rcases ha with ha | rfl | rfl
        · exact Nat.lt_succ_of_lt (r.bound a (Or.inr (List.mem_append_left _ ha)))
        · exact Nat.lt_succ_of_lt
            (r.bound a (Or.inr (List.mem_append_right _ (List.mem_singleton_self a))))
        · exact Nat.lt_succ_self _

theorem represents_htblInit (garbage : Nat → HtblEntry α) (init : Nat) (initbuf : Int) :
    ∃ fs, Represents (htblInit garbage init initbuf) (fun _ => []) fs ∅ := by
  have hempty : ∀ t : Hashtbl α, t.entries = (fun _ => none) → t.nEntries = 0 →
      t.entriesChainLengths = (fun _ => 0) → ∀ fs, Path (links t) t.entryFront fs none →
      (t.entryFront = none → t.entryBack = none) → (∀ a ∈ fs, a < t.brk) →
      Represents t (fun _ => []) fs ∅ := by
    intro t hentries hcount hlengths fs hpool hback hbound
    constructor
    case chain => rw [hentries]; exact fun _ => rfl
    case bucket => exact fun h a ha => by cases ha
    case once => exact fun h a ha => by cases ha
    case lookup => simp
    case count => rw [hcount]; rfl
    case lengths => rw [hlengths]; exact fun _ => rfl
    case pool => exact hpool
    case back => exact hback
    case apart => exact fun a _ h hmem => by cases hmem
    case bound =>
      rintro a (⟨h, ha⟩ | ha)
      · cases ha
      · exact hbound a ha
  unfold htblInit
  dsimp only
  split
  · refine represents_htblInitPool (initbuf - 1).toNat (l := []) (hempty _ rfl rfl rfl _ ?_ ?_ ?_)
    · refine ⟨rfl, ?_⟩
      show links (Hashtbl.setNext _ _ none) 0 = none
      rw [links_setNext]
      exact Function.update_self ..
    · exact fun h => by cases h
    · intro a ha
      rw [List.mem_singleton.mp ha]
      exact Nat.zero_lt_one
  · exact ⟨[], hempty _ rfl rfl rfl _ rfl (fun _ => rfl) (fun a ha => by cases ha)⟩

/-! The size and the pool parameter are set once. -/

/-- Two tables created with the same parameters. -/
def SameParams (t t' : Hashtbl α) : Prop := t'.tblSize = t.tblSize ∧ t'.initbuf = t.initbuf

theorem sameParams_allocEntry (t : Hashtbl α) : SameParams t (allocEntry t).1 := by
  unfold allocEntry
  split <;> exact ⟨rfl, rfl⟩

theorem sameParams_releaseEntry (t : Hashtbl α) (entry : Nat) :
    SameParams t (releaseEntry t entry) := by
  unfold releaseEntry
  dsimp only [Hashtbl.setNext, Hashtbl.setNode]
  split
  · split <;> exact ⟨rfl, rfl⟩
  · exact ⟨rfl, rfl⟩

theorem sameParams_put {t t' : Hashtbl α} {key : HtblKey} {data : α} {o : HtblAnswer α}
    (h : put t key data = some (t', o)) : SameParams t t' := by
  unfold put at h
  split at h
  · cases h
  · obtain ⟨rfl, -⟩ := Prod.mk.inj (Option.some.inj h)
    exact ⟨rfl, rfl⟩
  · obtain ⟨rfl, -⟩ := Prod.mk.inj (Option.some.inj h)
    exact sameParams_allocEntry t

theorem sameParams_remove {t t' : Hashtbl α} {key : HtblKey} {o : HtblAnswer α}
    (h : remove t key = some (t', o)) : SameParams t t' := by
  unfold remove at h
  split at h
  · cases h
  · obtain ⟨rfl, -⟩ := Prod.mk.inj (Option.some.inj h)
    exact ⟨rfl, rfl⟩
  · rename_i entry prev _
    obtain ⟨hinitbuf, -, -, -, hsize⟩ := unlink_pool t (key.hash t.tblSize) entry prev
    obtain ⟨hsize', hinitbuf'⟩ := sameParams_releaseEntry
      (unlink t (key.hash t.tblSize) entry prev) entry
    obtain ⟨rfl, -⟩ := Prod.mk.inj (Option.some.inj h)
    exact ⟨hsize'.trans hsize, hinitbuf'.trans hinitbuf⟩

theorem sameParams_replace {t t' : Hashtbl α} {key : HtblKey} {data : α} {o : HtblAnswer α}
    (h : replace t key data = some (t', o)) : SameParams t t' := by
  unfold replace at h
  split at h
  · cases h
  rename_i t₁ answer hput
  have hparams := sameParams_put hput
  split at h
  · split at h
    · obtain ⟨rfl, -⟩ := Prod.mk.inj (Option.some.inj h)
      exact hparams
    · cases h
  · obtain ⟨rfl, -⟩ := Prod.mk.inj (Option.some.inj h)
    exact hparams

/-- A call on an `int` or a string key is the call on the tagged key. -/
theorem htblStep_eq (t : Hashtbl α) (op : HtblOp α) :
    htblStep t op = match op with
      | .put key data => put t key data
      | .get key => get t key
      | .remove key => remove t key
      | .replace key data => replace t key data := by
  cases op with
  | put key data => cases key <;> rfl
  | get key => cases key <;> rfl
  | remove key => cases key <;> rfl
  | replace key data => cases key <;> rfl

/-- **One call.** It answers as the map does. -/
theorem represents_htblStep (t : Hashtbl α) (m : AList fun _ : HtblKey => α) (op : HtblOp α)
    (h : ∃ chains fs, Represents t chains fs m) (hsize : 0 < t.tblSize)
    (hsafe : ReleaseSafe t op) :
    ∃ t', htblStep t op = some (t', (mapStep m op).2)
      ∧ (∃ chains fs, Represents t' chains fs (mapStep m op).1) ∧ SameParams t t' := by
  obtain ⟨chains, fs, r⟩ := h
  rw [htblStep_eq]
  cases op with
  | put key data =>
    obtain ⟨t', hput, r', -⟩ := represents_put r key data
    exact ⟨t', hput, r', sameParams_put hput⟩
  | get key =>
    obtain ⟨hget, hsame⟩ := represents_get r key
    refine ⟨t, hget, ⟨chains, fs, ?_⟩, rfl, rfl⟩
    rw [hsame]
    exact r
  | remove key =>
    obtain ⟨t', hremove, r'⟩ := represents_remove r hsize hsafe
    exact ⟨t', hremove, r', sameParams_remove hremove⟩
  | replace key data =>
    obtain ⟨t', hreplace, r'⟩ := represents_replace r key data
    exact ⟨t', hreplace, r', sameParams_replace hreplace⟩

theorem htblInit_params (garbage : Nat → HtblEntry α) (init : Nat) (initbuf : Int) :
    (htblInit garbage init initbuf).tblSize = init
      ∧ (htblInit garbage init initbuf).initbuf = initbuf := by
  have hpool : ∀ n (t : Hashtbl α) back, SameParams t (htblInitPool n back t) := by
    intro n
    induction n with
    | zero => exact fun t back => ⟨rfl, rfl⟩
    | succ n ih => exact fun t back => ih _ _
  unfold htblInit
  dsimp only
  split
  · exact hpool _ _ _
  · exact ⟨rfl, rfl⟩

/-- Every sequence of calls that meets the condition. -/
theorem simulation_htblInit (garbage : Nat → HtblEntry α) {init : Nat} (hinit : 0 < init)
    (initbuf : Int) (ops : List (HtblOp α))
    (hsafe : Checked (stepState htblStep) ReleaseSafe (htblInit garbage init initbuf) ops) :
    answers htblStep (htblInit garbage init initbuf) ops = some (replies mapStep ∅ ops) := by
  obtain ⟨fs, r⟩ := represents_htblInit garbage init initbuf
  refine (answers_eq_of_simulation
    (R := fun t m => (∃ chains fs, Represents t chains fs m) ∧ 0 < t.tblSize) ?_ ⟨⟨_, fs, r⟩, ?_⟩
    hsafe).1
  · rintro t m op ⟨h, hsize⟩ hop
    obtain ⟨t', hstep, r', hparams⟩ := represents_htblStep t m op h hsize hop
    refine ⟨t', hstep, r', ?_⟩
    rw [hparams.1]
    exact hsize
  · rw [(htblInit_params garbage init initbuf).1]
    exact hinit

/-- What the table looks like: the buckets hold the entries of the map, each
once and where its key belongs, and the counters count them. -/
structure WellFormed (t : Hashtbl α) (m : AList fun _ : HtblKey => α) : Prop where
  count : t.nEntries = m.keys.length
  buckets : ∃ chains : Nat → List Nat,
    (∀ h, Path (links t) (t.entries h) (chains h) none)
      ∧ (∀ h, t.entriesChainLengths h = (chains h).length)
      ∧ (∀ h, ∀ a ∈ chains h, h < t.tblSize ∧ (t.nodes a).key.hash t.tblSize = h
          ∧ (t.nodes a).hash = h)
      ∧ (∀ h h', ∀ a ∈ chains h, ∀ b ∈ chains h', (t.nodes a).key = (t.nodes b).key → a = b)
      ∧ ∀ k d, m.lookup k = some d ↔ ∃ h, ∃ a ∈ chains h, (t.nodes a).key = k
          ∧ (t.nodes a).data = d

theorem Represents.wellFormed (r : Represents t chains fs m) (hsize : 0 < t.tblSize) :
    WellFormed t m where
  count := r.count
  buckets := by
    refine ⟨chains, r.chain, r.lengths, ?_, ?_, ?_⟩
    · intro h a ha
      obtain ⟨hhash, hstored, -⟩ := r.bucket h a ha
      refine ⟨?_, hhash, hstored⟩
      rw [← hhash]
      exact HtblKey.hash_lt _ hsize
    · exact fun h h' a ha b hb hkeys => r.once_all ha hb hkeys
    · exact r.lookup_all

/-- Without a pool there is no condition. -/
theorem simulation_htblInit_zero (garbage : Nat → HtblEntry α) {init : Nat} (hinit : 0 < init)
    (ops : List (HtblOp α)) :
    answers htblStep (htblInit garbage init 0) ops = some (replies mapStep ∅ ops)
      ∧ ∃ t, run (stepState htblStep) (htblInit garbage init 0) ops = some t
        ∧ (∃ chains fs, Represents t chains fs (final mapStep ∅ ops)) ∧ t.tblSize = init
        ∧ t.initbuf = 0 := by
  obtain ⟨fs, r⟩ := represents_htblInit garbage init 0
  refine answers_eq_of_simulation
    (R := fun t m => (∃ chains fs, Represents t chains fs m) ∧ t.tblSize = init ∧ t.initbuf = 0)
    ?_ ⟨⟨_, fs, r⟩, htblInit_params garbage init 0⟩ checked_true
  rintro t m op ⟨h, hsize, hinitbuf⟩ -
  obtain ⟨t', hstep, r', hparams⟩ :=
    represents_htblStep t m op h (by rw [hsize]; exact hinit) (releaseSafe_of_initbuf hinitbuf op)
  exact ⟨t', hstep, r', hparams.1.trans hsize, hparams.2.trans hinitbuf⟩

/-- **Refinement.** A table without a pool answers every sequence of calls
as the map from tagged keys does, and is well formed in every state
reached. -/
theorem htbl_refines_map (garbage : Nat → HtblEntry α) {init : Nat} (hinit : 1 ≤ init)
    (ops : List (HtblOp α)) :
    answers htblStep (htblInit garbage init 0) ops = some (replies mapStep ∅ ops)
      ∧ ∃ t, run (stepState htblStep) (htblInit garbage init 0) ops = some t
        ∧ WellFormed t (final mapStep ∅ ops) := by
  obtain ⟨hanswers, t, hrun, ⟨chains, fs, r⟩, hsize, -⟩ :=
    simulation_htblInit_zero garbage hinit ops
  exact ⟨hanswers, t, hrun, r.wellFormed (by rw [hsize]; exact hinit)⟩

/-- Memory that holds nothing of interest. -/
def blank (_ : Nat) : HtblEntry Nat := ⟨.int, 0, .int 0, 0, none⟩

/-- The string "a", which is 97. -/
def strA : CString := ⟨[97], by decide⟩

/-- An `int` and a string key with the same hash in one chain. -/
def sharedChain : List (HtblOp Nat) :=
  [.put (.int 97) 1, .put (.str strA) 2, .put (.int 97) 3, .get (.int 97), .remove (.int 97),
   .get (.str strA), .replace (.str strA) 4, .replace (.int 5) 5, .remove (.int 97)]

theorem htbl_refines_map_sharedChain :
    1 ≤ 3 ∧ answers htblStep (htblInit blank 3 0) sharedChain = some (replies mapStep ∅ sharedChain)
      ∧ ∃ t, run (stepState htblStep) (htblInit blank 3 0) sharedChain = some t
        ∧ WellFormed t (final mapStep ∅ sharedChain) :=
  ⟨by decide, htbl_refines_map blank (by decide) sharedChain⟩

/-- **Pooling.** As long as `entry_back` is on no entry of a bucket but the
removed one whenever an entry goes back to the pool, a table with a pool
answers as one without. -/
theorem htbl_pool_transparent (garbage garbage₀ : Nat → HtblEntry α) {init : Nat}
    (hinit : 1 ≤ init) (initbuf : Int) (ops : List (HtblOp α))
    (hsafe : Checked (stepState htblStep) ReleaseSafe (htblInit garbage init initbuf) ops) :
    answers htblStep (htblInit garbage init initbuf) ops
      = answers htblStep (htblInit garbage₀ init 0) ops := by
  rw [simulation_htblInit garbage hinit initbuf ops hsafe,
    (simulation_htblInit_zero garbage₀ hinit ops).1]

/-- A pool of one entry that is emptied and refilled. -/
def refilled : List (HtblOp Nat) :=
  [.put (.int 1) 10, .put (.int 2) 20, .remove (.int 1), .get (.int 1), .put (.int 3) 30,
   .get (.int 2), .remove (.int 3), .remove (.int 2)]

theorem htbl_pool_transparent_refilled :
    1 ≤ 2 ∧ Checked (stepState htblStep) ReleaseSafe (htblInit blank 2 1) refilled
      ∧ answers htblStep (htblInit blank 2 1) refilled
        = answers htblStep (htblInit blank 2 0) refilled :=
  ⟨by decide, by decide +kernel,
    htbl_pool_transparent blank blank (by decide) 1 refilled (by decide +kernel)⟩

/-- Two entries go back to the pool behind `entry_back`, which is then used
again for key 4: the removal of key 3 links its entry behind that one. -/
def staleBack : List (HtblOp Nat) :=
  [.put (.int 1) 10, .put (.int 2) 20, .put (.int 3) 30, .remove (.int 1), .remove (.int 2),
   .put (.int 4) 40, .remove (.int 3), .get (.int 3)]

/-- The removed key 3 is found again. -/
theorem htbl_pool_resurrects :
    answers htblStep (htblInit blank 1 1) staleBack
        = some [⟨0, none⟩, ⟨0, none⟩, ⟨0, none⟩, ⟨1, some 10⟩, ⟨1, some 20⟩, ⟨0, none⟩,
            ⟨1, some 30⟩, ⟨1, some 30⟩]
      ∧ answers htblStep (htblInit blank 1 0) staleBack
        = some [⟨0, none⟩, ⟨0, none⟩, ⟨0, none⟩, ⟨1, some 10⟩, ⟨1, some 20⟩, ⟨0, none⟩,
            ⟨1, some 30⟩, ⟨0, none⟩] := by
  decide +kernel

/-! ## The tables of the protocol code

The protocol code uses `int` keys only, and its model takes a table to be
the map of `Rms.Util.Htbl`. -/

inductive IntOp (α : Type*) where
  | put (key : UInt32) (data : α)
  | get (key : UInt32)
  | remove (key : UInt32)

def IntOp.toOp : IntOp α → HtblOp α
  | .put key data => .put (.int key.toInt32) data
  | .get key => .get (.int key.toInt32)
  | .remove key => .remove (.int key.toInt32)

/-- One call on the map, with what the C function returns. -/
def intStep (t : Htbl α) : IntOp α → Htbl α × HtblAnswer α
  | .put key data =>
      (Util.htblPut t key data, ⟨if (Util.htblGet t key).isSome then -1 else 0, none⟩)
  | .get key =>
      match Util.htblGet t key with
      | some data => (t, ⟨1, some data⟩)
      | none => (t, ⟨0, none⟩)
  | .remove key =>
      match Util.htblRemove t key with
      | some (data, t') => (t', ⟨1, some data⟩)
      | none => (t, ⟨0, none⟩)

theorem mapStep_intStep {t : Htbl α} (h : ∀ k, m.lookup (.int k.toInt32) = Util.htblGet t k)
    (op : IntOp α) :
    (mapStep m op.toOp).2 = (intStep t op).2
      ∧ ∀ k, (mapStep m op.toOp).1.lookup (.int k.toInt32) = Util.htblGet (intStep t op).1 k := by
  have hinj : ∀ {k key : UInt32}, k ≠ key → HtblKey.int k.toInt32 ≠ .int key.toInt32 := by
    intro k key hne heq
    exact hne (congrArg Int32.toUInt32 (HtblKey.int.inj heq))
  cases op with
  | put key data =>
    simp only [IntOp.toOp, mapStep, intStep, h key]
    cases hk : Util.htblGet t key with
    | some d =>
      rw [htblPut_of_some data hk]
      exact ⟨rfl, h⟩
    | none =>
      rw [htblPut_of_none data hk]
      refine ⟨rfl, fun k => ?_⟩
      rw [htblGet_insert]
      by_cases heq : k = key
      · subst heq
        rw [if_pos rfl]
        exact AList.lookup_insert m
      · rw [if_neg heq, ← h k]
        exact AList.lookup_insert_ne (hinj heq)
  | get key =>
    simp only [IntOp.toOp, mapStep, intStep, h key]
    cases hk : Util.htblGet t key with
    | some d => exact ⟨rfl, h⟩
    | none => exact ⟨rfl, h⟩
  | remove key =>
    simp only [IntOp.toOp, mapStep, intStep, h key]
    cases hk : Util.htblGet t key with
    | some d =>
      rw [htblRemove_eq_some.mpr ⟨hk, rfl⟩]
      refine ⟨rfl, fun k => ?_⟩
      rw [htblGet_erase]
      by_cases heq : k = key
      · subst heq
        rw [if_pos rfl]
        exact AList.lookup_erase _ m
      · rw [if_neg heq, ← h k]
        exact AList.lookup_erase_ne (hinj heq)
    | none =>
      rw [htblRemove_eq_none.mpr hk]
      exact ⟨rfl, h⟩

/-- The table of `hashtable.c` without a pool answers the calls of the
protocol code as the map in its model does. -/
theorem answers_intStep (garbage : Nat → HtblEntry α) {init : Nat} (hinit : 0 < init)
    (ops : List (IntOp α)) :
    answers htblStep (htblInit garbage init 0) (ops.map IntOp.toOp)
      = some (replies intStep ∅ ops) := by
  have hreplies : ∀ (ops : List (IntOp α)) {m : AList fun _ : HtblKey => α} {t : Htbl α},
      (∀ k, m.lookup (.int k.toInt32) = Util.htblGet t k) →
      replies mapStep m (ops.map IntOp.toOp) = replies intStep t ops := by
    intro ops
    induction ops with
    | nil =>
      intro m t _
      rfl
    | cons op ops ih =>
      intro m t h
      obtain ⟨hanswer, hnext⟩ := mapStep_intStep h op
      rw [List.map_cons, replies, replies, hanswer, ih hnext]
  rw [(simulation_htblInit_zero garbage hinit _).1, hreplies ops (m := ∅) (t := ∅) fun _ => rfl]

end Rms.Util.Hashtable
