/-
Rms.Util.RemoveNextTheorems — draining a table with `htbl_remove_next`.

`htbl_remove_next` looks for a bucket that is not empty among the first
`n_entries` ones, not among all of them, and it reads the link of the
entry it takes behind `release_entry`, which has cleared it. So it may
find nothing in a table that is not empty, and of a longer chain it loses
all but the first entry while it counts one.

After such a call the counters no longer count the entries. `Stands t m`
leaves them out: the entries of the buckets are those of `m`. The other
calls do not read the counters (`htblStep_recount`, `htblRehash_recount`),
so every sequence of calls leads to a table that stands for some map
(`stands_run_htblAct`).

`htbl_remove_next_iff`: one call is right exactly if the counters are,
and the first bucket that is not empty is among the first `n_entries` ones
and holds one entry; draining is right exactly for one entry in bucket 0.
-/
import Rms.Util.RehashTheorems

namespace Rms.Util.Hashtable

open Rms.Chains Rms.Runs

variable {α : Type*} {t t' : Hashtbl α} {chains : Nat → List Nat} {fs : List Nat}
  {m : AList fun _ : HtblKey => α} {key : HtblKey} {h a : Nat}

/-! ## Counters -/

/-- The table with other counters. -/
def Hashtbl.recount (t : Hashtbl α) (n : Int) (lengths : Nat → Int) : Hashtbl α :=
  { t with nEntries := n, entriesChainLengths := lengths }

section Recount

variable (t) (n : Int) (lengths : Nat → Int)

theorem walk_recount (key : HtblKey) (k : Nat) (entry prev : Option Nat) :
    walk (t.recount n lengths) key k entry prev = walk t key k entry prev := by
  induction k generalizing entry prev with
  | zero => rfl
  | succ k ih =>
    cases entry with
    | none => rfl
    | some a =>
      simp only [walk, ih]
      rfl

theorem walkBucket_recount (key : HtblKey) :
    walkBucket (t.recount n lengths) key = walkBucket t key := walk_recount t n lengths key _ _ _

theorem locate_recount (key : HtblKey) : locate (t.recount n lengths) key = locate t key := by
  rw [locate, walkBucket_recount]
  rfl

theorem releaseEntry_recount (entry : Nat) :
    releaseEntry (t.recount n lengths) entry = (releaseEntry t entry).recount n lengths := by
  unfold releaseEntry
  dsimp only [Hashtbl.recount, Hashtbl.setNext, Hashtbl.setNode]
  split
  · split <;> rfl
  · rfl

theorem unlink_recount (h a : Nat) (prev : Option Nat) :
    unlink (t.recount n lengths) h a prev = (unlink t h a prev).recount n lengths := by
  cases prev <;> rfl

/-- The same answer, and the same table apart from the counters. -/
def Recounted (r r' : Option (Hashtbl α × HtblAnswer α)) : Prop :=
  ∃ n lengths, r' = r.map fun p => (p.1.recount n lengths, p.2)

variable {t} (hinitbuf : t.initbuf = 0)

include hinitbuf

theorem put_recount (key : HtblKey) (data : α) :
    Recounted (put t key data) (put (t.recount n lengths) key data) := by
  have hinitbuf' : (t.recount n lengths).initbuf = 0 := hinitbuf
  unfold put
  rw [locate_recount]
  cases locate t key with
  | none => exact ⟨n, lengths, rfl⟩
  | some entry =>
    cases entry with
    | some a => exact ⟨n, lengths, rfl⟩
    | none =>
      simp only [allocEntry_eq hinitbuf, allocEntry_eq hinitbuf']
      exact ⟨_, _, rfl⟩

omit hinitbuf in
theorem get_recount (key : HtblKey) :
    Recounted (get t key) (get (t.recount n lengths) key) := by
  refine ⟨n, lengths, ?_⟩
  unfold get
  rw [locate_recount]
  cases locate t key with
  | none => rfl
  | some entry => cases entry <;> rfl

omit hinitbuf in
theorem remove_recount (key : HtblKey) :
    Recounted (remove t key) (remove (t.recount n lengths) key) := by
  unfold remove
  rw [walkBucket_recount]
  cases walkBucket t key with
  | none => exact ⟨n, lengths, rfl⟩
  | some found =>
    obtain ⟨entry, prev⟩ := found
    cases entry with
    | none => exact ⟨n, lengths, rfl⟩
    | some a =>
      simp only [unlink_recount, releaseEntry_recount]
      exact ⟨_, _, rfl⟩

theorem replace_recount (key : HtblKey) (data : α) :
    Recounted (replace t key data) (replace (t.recount n lengths) key data) := by
  obtain ⟨n', lengths', hput⟩ := put_recount n lengths hinitbuf key data
  refine ⟨n', lengths', ?_⟩
  unfold replace
  rw [hput]
  cases put t key data with
  | none => rfl
  | some r =>
    simp only [Option.map_some, locate_recount]
    split
    · cases locate r.1 key with
      | none => rfl
      | some entry => cases entry <;> rfl
    · rfl

theorem htblStep_recount (op : HtblOp α) :
    Recounted (htblStep t op) (htblStep (t.recount n lengths) op) := by
  rw [htblStep_eq, htblStep_eq]
  cases op with
  | put key data => exact put_recount n lengths hinitbuf key data
  | get key => exact get_recount n lengths key
  | remove key => exact remove_recount n lengths key
  | replace key data => exact replace_recount n lengths hinitbuf key data

omit hinitbuf in
/-- A table of another size is counted anew. -/
theorem htblRehash_recount {newsize : Nat} (hnew : newsize ≠ t.tblSize) :
    htblRehash (t.recount n lengths) newsize = htblRehash t newsize := by
  have hnew' : newsize ≠ (t.recount n lengths).tblSize := hnew
  unfold htblRehash
  rw [if_neg hnew, if_neg hnew']
  rfl

end Recount

/-! ## Tables whose counters may be wrong -/

/-- The entries of the table are those of `m`, whatever its counters are. -/
structure Stands (t : Hashtbl α) (m : AList fun _ : HtblKey => α) : Prop where
  size : 0 < t.tblSize
  initbuf : t.initbuf = 0
  entries : ∃ n lengths chains fs, Represents (t.recount n lengths) chains fs m

theorem Represents.stands (r : Represents t chains fs m) (hsize : 0 < t.tblSize)
    (hinitbuf : t.initbuf = 0) : Stands t m :=
  ⟨hsize, hinitbuf, t.nEntries, t.entriesChainLengths, chains, fs, r⟩

/-- With counters that count the entries of a map, that is the map. -/
theorem Represents.of_wellFormed {n : Int} {lengths : Nat → Int}
    {m' : AList fun _ : HtblKey => α} (r : Represents (t.recount n lengths) chains fs m)
    (hwell : WellFormed t m') : Represents t chains fs m' := by
  obtain ⟨chains', hpaths, hlengths, -, -, hlookup⟩ := hwell.buckets
  obtain rfl : chains' = chains := funext fun h => (hpaths h).unique (r.chain h)
  have hsame : ∀ k, m'.lookup k = m.lookup k := fun k =>
    Option.ext fun d => (hlookup k d).trans (r.lookup_all k d).symm
  exact { r.congr_map hsame with count := hwell.count, lengths := hlengths }

theorem Stands.get (s : Stands t m) (key : HtblKey) :
    get t key = some (t, (mapStep m (.get key)).2) := by
  obtain ⟨n, lengths, chains, fs, r⟩ := s.entries
  have hget := (represents_get r key).1
  unfold Hashtable.get at hget ⊢
  rw [locate_recount] at hget
  cases hlocate : locate t key with
  | none =>
    rw [hlocate] at hget
    cases hget
  | some entry =>
    rw [hlocate] at hget
    cases entry with
    | none =>
      simp only [Option.some.injEq, Prod.mk.injEq] at hget
      rw [← hget.2]
    | some a =>
      simp only [Option.some.injEq, Prod.mk.injEq] at hget
      rw [← hget.2]
      rfl

theorem stands_htblStep (s : Stands t m) (op : HtblOp α) :
    ∃ t', htblStep t op = some (t', (mapStep m op).2) ∧ Stands t' (mapStep m op).1 := by
  obtain ⟨n, lengths, chains, fs, r⟩ := s.entries
  obtain ⟨u, hstep, ⟨chains', fs', r'⟩, hparams⟩ := represents_htblStep (t.recount n lengths) m op
    ⟨chains, fs, r⟩ s.size (releaseSafe_of_initbuf (t := t.recount n lengths) s.initbuf op)
  obtain ⟨n', lengths', hrecount⟩ := htblStep_recount n lengths s.initbuf op
  rw [hrecount] at hstep
  obtain ⟨⟨t', answer⟩, hstep', heq⟩ := Option.map_eq_some_iff.mp hstep
  obtain ⟨rfl, rfl⟩ := Prod.mk.inj heq
  refine ⟨t', hstep', ?_, hparams.2.trans s.initbuf, n', lengths', chains', fs', r'⟩
  have hsize : t'.tblSize = t.tblSize := hparams.1
  rw [hsize]
  exact s.size

theorem stands_htblRehash (s : Stands t m) {newsize : Nat} (hnew : 1 ≤ newsize) :
    ∃ t', htblRehash t newsize = some t' ∧ Stands t' m := by
  obtain ⟨n, lengths, chains, fs, r⟩ := s.entries
  by_cases hsame : newsize = t.tblSize
  · refine ⟨t, ?_, s⟩
    rw [htblRehash, if_pos hsame]
  · obtain ⟨t', hrehash, ⟨chains', r'⟩, hsize, hinitbuf⟩ :=
      represents_htblRehash r s.initbuf s.size newsize
    rw [htblRehash_recount n lengths hsame] at hrehash
    refine ⟨t', hrehash, r'.stands ?_ hinitbuf⟩
    rw [hsize]
    exact hnew

/-! ## One call -/

/-- Bucket `h` is the first one that is not empty, its first entry is `a`,
and the loop gets there. -/
structure First (t : Hashtbl α) (h a : Nat) : Prop where
  size : h < t.tblSize
  below : ∀ i < h, t.entries i = none
  entry : t.entries h = some a
  reached : (h : Int) < t.nEntries

theorem removeNextFrom_cases (t : Hashtbl α) (n : Nat) :
    ∀ itr : Nat,
      (∃ h a, itr ≤ h ∧ h < itr + n ∧ h < t.tblSize ∧ (∀ i, itr ≤ i → i < h → t.entries i = none)
        ∧ t.entries h = some a ∧ removeNextFrom t n itr = some (takeFirst t h a))
      ∨ ((∀ h, itr ≤ h → h < itr + n → h < t.tblSize → t.entries h = none)
        ∧ ∀ r ∈ removeNextFrom t n itr, r = (t, ⟨0, none⟩)) := by
  induction n with
  | zero =>
    intro itr
    refine .inr ⟨fun h hle hlt _ => by omega, fun r hr => ?_⟩
    exact (Option.some.inj hr).symm
  | succ n ih =>
    intro itr
    rw [removeNextFrom]
    by_cases hsize : itr < t.tblSize
    · rw [if_pos hsize]
      cases hentry : t.entries itr with
      | some a =>
        refine .inl ⟨itr, a, Nat.le_refl _, by omega, hsize, fun i hle hlt => ?_, hentry, rfl⟩
        omega
      | none =>
        -- the buckets from `itr` on are this one and those behind it
        have hfrom : ∀ {h : Nat}, itr ≤ h → t.entries h = none ∨ itr + 1 ≤ h := by
          intro h hle
          rcases Nat.eq_or_lt_of_le hle with rfl | hlt
          · exact .inl hentry
          · exact .inr hlt
        rcases ih (itr + 1) with ⟨h, a, hle, hlt, hh, hbelow, hfirst, hcall⟩ | ⟨hempty, hcall⟩
        · refine .inl ⟨h, a, by omega, by omega, hh, fun i hi hih => ?_, hfirst, hcall⟩
          exact (hfrom hi).elim id fun hi => hbelow i hi hih
        · refine .inr ⟨fun h hi hih hh => ?_, hcall⟩
          exact (hfrom hi).elim id fun hi => hempty h hi (by omega) hh
    · rw [if_neg hsize]
      exact .inr ⟨fun h hle _ hh => by omega, fun r hr => by cases hr⟩

/-- A call takes the first entry of the first bucket that is not empty, or
changes nothing. -/
theorem htblRemoveNext_cases (t : Hashtbl α) :
    (∃ h a, First t h a ∧ htblRemoveNext t = some (takeFirst t h a))
      ∨ ((∀ h a, ¬ First t h a) ∧ ∀ r ∈ htblRemoveNext t, r = (t, ⟨0, none⟩)) := by
  rcases removeNextFrom_cases t t.nEntries.toNat 0 with
    ⟨h, a, -, hlt, hsize, hbelow, hentry, hcall⟩ | ⟨hempty, hcall⟩
  · refine .inl ⟨h, a, ⟨hsize, fun i hi => hbelow i (Nat.zero_le i) hi, hentry, ?_⟩, hcall⟩
    omega
  · refine .inr ⟨fun h a hfirst => ?_, hcall⟩
    have hreached := hfirst.reached
    have hnone := hempty h (Nat.zero_le h) (by omega) hfirst.size
    rw [hfirst.entry] at hnone
    cases hnone

theorem First.unique {h' a' : Nat} (hfirst : First t h a) (hfirst' : First t h' a') :
    h = h' ∧ a = a' := by
  have hle : ∀ {h h' a a' : Nat}, First t h a → First t h' a' → h ≤ h' := by
    intro h h' a a' hfirst hfirst'
    by_contra hlt
    have hnone := hfirst.below h' (by omega)
    rw [hfirst'.entry] at hnone
    cases hnone
  obtain rfl := Nat.le_antisymm (hle hfirst hfirst') (hle hfirst' hfirst)
  exact ⟨rfl, Option.some.inj (hfirst.entry.symm.trans hfirst'.entry)⟩

theorem First.htblRemoveNext_eq (hfirst : First t h a) :
    htblRemoveNext t = some (takeFirst t h a) := by
  rcases htblRemoveNext_cases t with ⟨h', a', hfirst', hcall⟩ | ⟨hnone, -⟩
  · obtain ⟨rfl, rfl⟩ := hfirst.unique hfirst'
    exact hcall
  · exact absurd hfirst (hnone h a)

/-- What the release has cleared is what becomes of the bucket. -/
theorem takeFirst_eq (hinitbuf : t.initbuf = 0) (h a : Nat) :
    takeFirst t h a = (((t.setNext a none).setBucket h none).addCount h (-1),
      ⟨0, some (t.nodes a).data⟩) := by
  have hnext : ((t.setNext a none).nodes a).next = none := by
    simp [Hashtbl.setNext, Hashtbl.setNode]
  simp only [takeFirst, releaseEntry_eq hinitbuf, hnext]

theorem takeFirst_frame (hinitbuf : t.initbuf = 0) (h a : Nat) :
    (takeFirst t h a).1.initbuf = 0 ∧ (takeFirst t h a).1.tblSize = t.tblSize
      ∧ (takeFirst t h a).1.nEntries = t.nEntries - 1
      ∧ (takeFirst t h a).1.entries = Function.update t.entries h none := by
  rw [takeFirst_eq hinitbuf]
  exact ⟨hinitbuf, rfl, rfl, rfl⟩

/-! ## What a call leaves -/

/-- A bucket emptied without regard to the counters. -/
theorem Represents.dropChain (as : List Nat) :
    ∀ {t : Hashtbl α} {chains : Nat → List Nat} {m : AList fun _ : HtblKey => α},
      Represents t chains fs m → chains h = as →
      ∃ n lengths m', Represents ((t.setBucket h none).recount n lengths)
          (Function.update chains h []) fs m'
        ∧ ∀ k : HtblKey, m'.lookup k = if k.hash t.tblSize = h then none else m.lookup k := by
  induction as with
  | nil =>
    intro t chains m r has
    have hentries : Function.update t.entries h none = t.entries := by
      rw [← show t.entries h = none by rw [(r.chain h).head?, has]; rfl, Function.update_eq_self]
    refine ⟨t.nEntries, t.entriesChainLengths, m, ?_, fun k => ?_⟩
    · rw [← has, Function.update_eq_self, Hashtbl.setBucket, hentries]
      exact r
    · split
      · rename_i hk
        cases hfound : m.lookup k with
        | none => rfl
        | some d =>
          obtain ⟨b, hb, -⟩ := (r.lookup k d).mp hfound
          rw [hk, has] at hb
          cases hb
      · rfl
  | cons b as ih =>
    intro t chains m r has
    have r₁ : Represents ((t.setBucket h (t.nodes b).next).addCount h (-1))
        (Function.update chains h as) fs (m.erase (body t b).key) :=
      r.unlink (l := []) has rfl
    obtain ⟨n, lengths, m', r', hlookup⟩ := ih r₁ (Function.update_self ..)
    refine ⟨n, lengths, m', ?_, fun k => ?_⟩
    · have hentries : Function.update (Function.update t.entries h (t.nodes b).next) h none
          = Function.update t.entries h none := Function.update_idem ..
      rw [Function.update_idem] at r'
      simp only [Hashtbl.setBucket, Hashtbl.recount, Hashtbl.addCount, hentries] at r' ⊢
      exact r'
    · rw [hlookup]
      show (if k.hash t.tblSize = h then _ else _) = _
      split
      · rfl
      · rename_i hk
        apply AList.lookup_erase_ne
        rintro rfl
        exact hk (r.bucket h b (by rw [has]; exact List.mem_cons_self ..)).1

/-- The entry that is taken is in no bucket that is left. -/
theorem Represents.notMem_dropped (r : Represents t chains fs m) (ha : a ∈ chains h) (h' : Nat) :
    a ∉ Function.update chains h [] h' := by
  intro hmem
  by_cases heq : h' = h
  · subst heq
    rw [Function.update_self] at hmem
    cases hmem
  · rw [Function.update_of_ne heq] at hmem
    exact heq (r.same_bucket hmem ha)

/-- The whole chain of the entry that is taken leaves the table. -/
theorem Represents.takeFirst {n : Int} {lengths : Nat → Int}
    (r : Represents (t.recount n lengths) chains fs m) (hinitbuf : t.initbuf = 0)
    (ha : a ∈ chains h) :
    ∃ n' lengths' m', Represents ((Hashtable.takeFirst t h a).1.recount n' lengths')
        (Function.update chains h []) fs m'
      ∧ ∀ k : HtblKey, m'.lookup k = if k.hash t.tblSize = h then none else m.lookup k := by
  obtain ⟨n', lengths', m', r', hlookup⟩ := r.dropChain (chains h) rfl
  refine ⟨n', lengths', m', ?_, hlookup⟩
  rw [takeFirst_eq hinitbuf]
  exact r'.cut (r.notMem_dropped ha) fun hmem => r.apart a hmem h ha

theorem First.chain_eq (hfirst : First t h a) (hpath : Path (links t) (t.entries h) (chains h) none) :
    ∃ rest, chains h = a :: rest ∧ Path (links t) (t.nodes a).next rest none := by
  rw [hfirst.entry] at hpath
  cases hchain : chains h with
  | nil =>
    rw [hchain] at hpath
    cases hpath
  | cons b rest =>
    rw [hchain] at hpath
    obtain ⟨hb, hrest⟩ := hpath
    obtain rfl := Option.some.inj hb
    exact ⟨rest, rfl, hrest⟩

theorem First.mem (hfirst : First t h a) (hpath : Path (links t) (t.entries h) (chains h) none) :
    a ∈ chains h := by
  obtain ⟨rest, hchain, -⟩ := hfirst.chain_eq hpath
  rw [hchain]
  exact List.mem_cons_self ..

theorem stands_htblRemoveNext (s : Stands t m) {answer : HtblAnswer α}
    (hcall : htblRemoveNext t = some (t', answer)) : ∃ m', Stands t' m' := by
  rcases htblRemoveNext_cases t with ⟨h, a, hfirst, htake⟩ | ⟨-, hsame⟩
  · obtain ⟨n, lengths, chains, fs, r⟩ := s.entries
    obtain ⟨n', lengths', m', r', -⟩ := r.takeFirst s.initbuf (hfirst.mem (r.chain h))
    have htake' : t' = (takeFirst t h a).1 := by
      rw [hcall] at htake
      rw [← Option.some.inj htake]
    subst htake'
    obtain ⟨hinitbuf, hsize, -⟩ := takeFirst_frame s.initbuf h a
    exact ⟨m', by rw [hsize]; exact s.size, hinitbuf, n', lengths', _, fs, r'⟩
  · obtain ⟨rfl, -⟩ := Prod.mk.inj (hsame _ hcall)
    exact ⟨m, s⟩

/-- **Every sequence of calls** leads to a table that stands for a map. -/
theorem stands_run_htblAct (garbage : Nat → HtblEntry α) {init : Nat} (hinit : 0 < init)
    {acts : List (HtblAction α)} (hrun : run htblAct (htblInit garbage init 0) acts = some t) :
    ∃ m, Stands t m := by
  refine run_invariant_free (I := fun t => ∃ m, Stands t m) ?_ ?_ hrun
  · rintro t act t' ⟨m, s⟩ hact
    cases act with
    | call call =>
      cases call with
      | op op =>
        obtain ⟨t₁, hstep, s₁⟩ := stands_htblStep s op
        simp only [htblAct, htblCall, hstep, Option.map_some, Option.some.injEq] at hact
        exact ⟨_, hact ▸ s₁⟩
      | rehash newsize pos =>
        obtain ⟨t₁, hrehash, s₁⟩ := stands_htblRehash s pos
        simp only [htblAct, htblCall, hrehash, Option.some.injEq] at hact
        exact ⟨m, hact ▸ s₁⟩
    | removeNext =>
      obtain ⟨⟨t₁, answer⟩, hcall, heq⟩ := Option.map_eq_some_iff.mp hact
      obtain rfl : t₁ = t' := heq
      exact stands_htblRemoveNext s hcall
  · obtain ⟨fs, r⟩ := represents_htblInit garbage init 0
    obtain ⟨hsize, hinitbuf⟩ := htblInit_params garbage init 0
    exact ⟨∅, r.stands (by rw [hsize]; exact hinit) hinitbuf⟩

/-- Without `htbl_remove_next` among them the counters are right. -/
theorem wellFormed_run_htblAct (garbage : Nat → HtblEntry α) {init : Nat} (hinit : 0 < init)
    {acts : List (HtblAction α)} (hrun : run htblAct (htblInit garbage init 0) acts = some t)
    (hacts : .removeNext ∉ acts) : ∃ m, Stands t m ∧ WellFormed t m := by
  have hcalls : ∀ {acts : List (HtblAction α)}, .removeNext ∉ acts →
      ∃ calls : List (HtblCall α), acts = calls.map .call := by
    intro acts
    induction acts with
    | nil => exact fun _ => ⟨[], rfl⟩
    | cons act acts ih =>
      intro hacts
      obtain ⟨calls, rfl⟩ := ih fun hmem => hacts (List.mem_cons_of_mem act hmem)
      cases act with
      | call call => exact ⟨call :: calls, rfl⟩
      | removeNext => exact absurd (List.mem_cons_self ..) hacts
  have hsame : ∀ (calls : List (HtblCall α)) (t : Hashtbl α),
      run htblAct t (calls.map .call) = run htblCall t calls := by
    intro calls
    induction calls with
    | nil => exact fun t => rfl
    | cons call calls ih =>
      intro t
      simp only [List.map_cons, run, ih]
      rfl
  obtain ⟨calls, rfl⟩ := hcalls hacts
  obtain ⟨t₁, hrun₁, ⟨chains, fs, r⟩, hsize, hinitbuf⟩ := represents_run_htblCall garbage hinit calls
  rw [hsame, hrun₁] at hrun
  obtain rfl := Option.some.inj hrun
  exact ⟨_, r.stands hsize hinitbuf, r.wellFormed hsize⟩

/-! ## When a call is right -/

/-- What a call of `htbl_remove_next` should do to a table that stands for
`m`: one key goes, its data are handed out, the others are mapped as before
and the counters count them. -/
def RemovesOne (t : Hashtbl α) (m : AList fun _ : HtblKey => α) : Prop :=
  ∃ t' key data, htblRemoveNext t = some (t', ⟨0, some data⟩) ∧ m.lookup key = some data
    ∧ WellFormed t' (m.erase key)
    ∧ ∀ k ≠ key, ∃ answer, get t k = some (t, answer) ∧ get t' k = some (t', answer)

/-- A call that is right took the only entry of its chain. -/
theorem Represents.alone {n : Int} {lengths : Nat → Int}
    (r : Represents (t.recount n lengths) chains fs m) (hinitbuf : t.initbuf = 0)
    (hfirst : First t h a) (hkey : key ∈ m.keys)
    (hwell : WellFormed (Hashtable.takeFirst t h a).1 (m.erase key)) :
    chains h = [a] ∧ Represents t chains fs m := by
  obtain ⟨rest, hchain, -⟩ := hfirst.chain_eq (r.chain h)
  have ha : a ∈ chains h := hfirst.mem (r.chain h)
  obtain ⟨n', lengths', m', r', -⟩ := r.takeFirst hinitbuf ha
  have r₁ := r'.of_wellFormed hwell
  rw [takeFirst_eq hinitbuf] at r₁
  -- every entry of the chain holds the key that is gone
  have hkeys : ∀ b ∈ chains h, (body t b).key = key := by
    intro b hb
    by_contra hne
    have hfound := (r.lookup_all (body t b).key (body t b).data).mpr ⟨h, b, hb, rfl, rfl⟩
    rw [← AList.lookup_erase_ne hne] at hfound
    obtain ⟨c, hc, -⟩ := (r₁.lookup _ _).mp hfound
    have hhash : (body t b).key.hash t.tblSize = h := (r.bucket h b hb).1
    change c ∈ Function.update chains h [] ((body t b).key.hash t.tblSize) at hc
    rw [hhash, Function.update_self] at hc
    cases hc
  have halone : chains h = [a] := by
    rw [hchain]
    congr 1
    rw [List.eq_nil_iff_forall_not_mem]
    intro b hb
    have hbmem : b ∈ chains h := by
      rw [hchain]
      exact List.mem_cons_of_mem a hb
    have hab := r.once h b hbmem a ha ((hkeys b hbmem).trans (hkeys a ha).symm)
    have hnodup := (r.chain h).nodup
    rw [hchain] at hnodup
    exact (List.nodup_cons.mp hnodup).1 (hab ▸ hb)
  refine ⟨halone, { r with count := ?_, lengths := ?_ }⟩
  · have hcount : t.nEntries + -1 = ((m.erase key).keys.length : Int) := r₁.count
    rw [AList.keys_erase, List.length_erase_of_mem hkey] at hcount
    have hpos := List.length_pos_of_mem hkey
    omega
  · intro i
    have hlength : Function.update t.entriesChainLengths h (t.entriesChainLengths h + -1) i
        = ((Function.update chains h [] i).length : Int) := r₁.lengths i
    by_cases hi : i = h
    · subst hi
      rw [Function.update_self, Function.update_self, List.length_nil] at hlength
      rw [halone, List.length_singleton]
      omega
    · rwa [Function.update_of_ne hi, Function.update_of_ne hi] at hlength

/-- Taking the only entry of a chain. -/
theorem Represents.takeFirst_alone (r : Represents t chains fs m) (hinitbuf : t.initbuf = 0)
    (halone : chains h = [a]) :
    Represents (Hashtable.takeFirst t h a).1 (Function.update chains h []) fs
      (m.erase (body t a).key) := by
  have ha : a ∈ chains h := by
    rw [halone]
    exact List.mem_singleton_self a
  have hnext : (t.nodes a).next = none := by
    have hpath := r.chain h
    rw [halone] at hpath
    exact hpath.2
  have r₁ : Represents ((t.setBucket h (t.nodes a).next).addCount h (-1))
      (Function.update chains h []) fs (m.erase (body t a).key) := r.unlink (l := []) halone rfl
  rw [hnext] at r₁
  rw [takeFirst_eq hinitbuf]
  exact r₁.cut (r.notMem_dropped ha) fun hmem => r.apart a hmem h ha

/-- **One call.** -/
theorem Stands.removesOne_iff (s : Stands t m) :
    RemovesOne t m ↔ WellFormed t m ∧ ∃ h a, First t h a ∧ (t.nodes a).next = none := by
  obtain ⟨n, lengths, chains, fs, r⟩ := s.entries
  constructor
  · rintro ⟨t', key, data, hcall, hkey, hwell, -⟩
    rcases htblRemoveNext_cases t with ⟨h, a, hfirst, htake⟩ | ⟨-, hsame⟩
    · rw [hcall] at htake
      have hmem : key ∈ m.keys := AList.lookup_isSome.mp (by rw [hkey]; rfl)
      have htake' : t' = (takeFirst t h a).1 := by rw [← Option.some.inj htake]
      rw [htake'] at hwell
      obtain ⟨halone, r₁⟩ := r.alone s.initbuf hfirst hmem hwell
      refine ⟨r₁.wellFormed s.size, h, a, hfirst, ?_⟩
      have hpath := r₁.chain h
      rw [halone] at hpath
      exact hpath.2
    · cases (Prod.mk.inj (hsame _ hcall)).2
  · rintro ⟨hwell, h, a, hfirst, hnext⟩
    have r₁ := r.of_wellFormed hwell
    obtain ⟨rest, hchain, hrest⟩ := hfirst.chain_eq (r₁.chain h)
    rw [hnext] at hrest
    have hnull : Path (links t) none [] none := rfl
    have halone : chains h = [a] := by
      rw [hchain, hrest.unique hnull]
    have r₂ := r₁.takeFirst_alone s.initbuf halone
    have hsize : 0 < (takeFirst t h a).1.tblSize := by
      rw [(takeFirst_frame s.initbuf h a).2.1]
      exact s.size
    have hcall := hfirst.htblRemoveNext_eq
    have hanswer : (takeFirst t h a).2 = ⟨0, some (t.nodes a).data⟩ := by
      rw [takeFirst_eq s.initbuf]
    refine ⟨(takeFirst t h a).1, (body t a).key, (t.nodes a).data, ?_, ?_, r₂.wellFormed hsize, ?_⟩
    · rw [hcall, ← hanswer]
    · rw [r₁.lookup_all]
      exact ⟨h, a, by rw [halone]; exact List.mem_singleton_self a, rfl, rfl⟩
    · intro k hk
      refine ⟨(mapStep m (.get k)).2, (represents_get r₁ k).1, ?_⟩
      have hget := (represents_get r₂ k).1
      simp only [mapStep, AList.lookup_erase_ne hk] at hget ⊢
      rw [hget]
      cases m.lookup k <;> rfl

/-! ## Draining -/

/-- Calls in a row, and the data they hand out. -/
def htblDrain : Nat → Hashtbl α → Option (Hashtbl α × List α)
  | 0, t => some (t, [])
  | n + 1, t =>
      match htblRemoveNext t with
      | none => none
      | some (t, answer) => (htblDrain n t).map fun r => (r.1, answer.data.toList ++ r.2)

/-- As many calls as there are entries hand out all the data, each once, and
leave the table empty. -/
def Drains (t : Hashtbl α) (m : AList fun _ : HtblKey => α) : Prop :=
  ∃ t' handed, htblDrain (htblCount t).toNat t = some (t', handed)
    ∧ handed.Perm (m.entries.map Sigma.snd) ∧ WellFormed t' ∅

/-- One call of several: it hands out the first entry of a bucket, or
nothing. -/
theorem htblDrain_succ {n : Nat} {handed : List α}
    (hdrain : htblDrain (n + 1) t = some (t', handed)) :
    (∃ h a rest, First t h a ∧ htblDrain n (takeFirst t h a).1 = some (t', rest)
        ∧ handed = (t.nodes a).data :: rest)
      ∨ htblDrain n t = some (t', handed) := by
  rw [htblDrain] at hdrain
  rcases htblRemoveNext_cases t with ⟨h, a, hfirst, hcall⟩ | ⟨-, hsame⟩
  · rw [hcall] at hdrain
    obtain ⟨⟨t₁, rest⟩, hrest, heq⟩ := Option.map_eq_some_iff.mp hdrain
    obtain ⟨rfl, rfl⟩ := Prod.mk.inj heq
    exact .inl ⟨h, a, rest, hfirst, hrest, rfl⟩
  · cases hcall : htblRemoveNext t with
    | none =>
      rw [hcall] at hdrain
      cases hdrain
    | some r =>
      rw [hcall, hsame r hcall] at hdrain
      obtain ⟨⟨t₁, rest⟩, hrest, heq⟩ := Option.map_eq_some_iff.mp hdrain
      obtain ⟨rfl, rfl⟩ := Prod.mk.inj heq
      exact .inr hrest

/-- Each datum handed out is counted once. -/
theorem htblDrain_count (n : Nat) :
    ∀ {t t' : Hashtbl α} {handed : List α}, t.initbuf = 0 → htblDrain n t = some (t', handed) →
      handed.length ≤ n ∧ t'.nEntries = t.nEntries - handed.length := by
  induction n with
  | zero =>
    intro t t' handed _ hdrain
    obtain ⟨rfl, rfl⟩ := Prod.mk.inj (Option.some.inj hdrain)
    simp
  | succ n ih =>
    intro t t' handed hinitbuf hdrain
    rcases htblDrain_succ hdrain with ⟨h, a, rest, -, hrest, rfl⟩ | hrest
    · obtain ⟨hinitbuf', -, hone, -⟩ := takeFirst_frame hinitbuf h a
      obtain ⟨hle, hcount⟩ := ih hinitbuf' hrest
      rw [List.length_cons]
      omega
    · obtain ⟨hle, hcount⟩ := ih hinitbuf hrest
      omega

/-- If every one of the calls hands out something, the last one finds it in
bucket 0, and that was not empty before. -/
theorem bucket_zero_of_htblDrain (n : Nat) :
    ∀ {t t' : Hashtbl α} {handed : List α}, t.initbuf = 0 → t.nEntries = ((n + 1 : Nat) : Int) →
      htblDrain (n + 1) t = some (t', handed) → handed.length = n + 1 → t.entries 0 ≠ none := by
  induction n with
  | zero =>
    intro t t' handed hinitbuf hcount hdrain hlen
    rcases htblDrain_succ hdrain with ⟨h, a, rest, hfirst, -, -⟩ | hrest
    · have hreached := hfirst.reached
      obtain rfl : h = 0 := by omega
      rw [hfirst.entry]
      exact Option.some_ne_none a
    · have hle := (htblDrain_count _ hinitbuf hrest).1
      omega
  | succ n ih =>
    intro t t' handed hinitbuf hcount hdrain hlen
    rcases htblDrain_succ hdrain with ⟨h, a, rest, hfirst, hrest, rfl⟩ | hrest
    · obtain ⟨hinitbuf', -, hone, hentries⟩ := takeFirst_frame hinitbuf h a
      have hzero := ih hinitbuf' (by omega) hrest (Nat.succ.inj hlen)
      intro hnone
      apply hzero
      rw [hentries]
      by_cases hh : 0 = h
      · rw [← hh, Function.update_self]
      · rw [Function.update_of_ne hh]
        exact hnone
    · have hle := (htblDrain_count _ hinitbuf hrest).1
      omega

/-- Two calls in a row do not both find bucket 0. -/
theorem htblDrain_one {n : Nat} {handed : List α} (hinitbuf : t.initbuf = 0)
    (hcount : t.nEntries = ((n + 1 : Nat) : Int)) (hdrain : htblDrain (n + 1) t = some (t', handed))
    (hlen : handed.length = n + 1) : n = 0 := by
  have hzero := bucket_zero_of_htblDrain n hinitbuf hcount hdrain hlen
  cases n with
  | zero => rfl
  | succ n =>
    rcases htblDrain_succ hdrain with ⟨h, a, rest, hfirst, hrest, rfl⟩ | hrest
    · obtain ⟨hinitbuf', -, hone, hentries⟩ := takeFirst_frame hinitbuf h a
      obtain rfl : h = 0 := by
        by_contra hne
        exact hzero (hfirst.below 0 (Nat.pos_of_ne_zero hne))
      have hzero' := bucket_zero_of_htblDrain n hinitbuf' (by omega) hrest (Nat.succ.inj hlen)
      rw [hentries, Function.update_self] at hzero'
      exact absurd rfl hzero'
    · have hle := (htblDrain_count _ hinitbuf hrest).1
      omega

/-- A chain is no longer than the map. -/
theorem Represents.length_chain_le (r : Represents t chains fs m) (h : Nat) :
    (chains h).length ≤ m.keys.length := by
  have hnodup : ((chains h).map fun a => (body t a).key).Nodup :=
    (r.chain h).nodup.map_on (r.once h)
  have hsub : ((chains h).map fun a => (body t a).key) ⊆ m.keys := by
    intro k hk
    obtain ⟨a, ha, rfl⟩ := List.mem_map.mp hk
    exact r.mem_keys ha
  have hle := (hnodup.subperm hsub).length_le
  rwa [List.length_map] at hle

theorem erase_of_entries {e : Sigma fun _ : HtblKey => α} (hentries : m.entries = [e]) :
    m.erase e.1 = ∅ := by
  apply AList.ext
  show List.kerase e.1 m.entries = []
  rw [hentries]
  simp

/-- The entry found in a table of one is all there is. -/
theorem Represents.only (r : Represents t chains fs m) (hone : t.nEntries = 1)
    (hfirst : First t h a) :
    chains h = [a] ∧ m.entries = [⟨(body t a).key, (t.nodes a).data⟩] := by
  have hkeys : m.keys.length = 1 := by
    have hcount := r.count
    omega
  have halone : chains h = [a] := by
    obtain ⟨rest, hchain, -⟩ := hfirst.chain_eq (r.chain h)
    have hle := r.length_chain_le h
    rw [hchain, List.length_cons] at hle
    rw [hchain, List.eq_nil_of_length_eq_zero (by omega : rest.length = 0)]
  refine ⟨halone, ?_⟩
  rw [AList.keys, List.keys, List.length_map] at hkeys
  obtain ⟨e, hentries⟩ := List.length_eq_one_iff.mp hkeys
  have hlookup : m.lookup (body t a).key = some (t.nodes a).data :=
    (r.lookup_all _ _).mpr ⟨h, a, hfirst.mem (r.chain h), rfl, rfl⟩
  have hmem := AList.mem_lookup_iff.mp hlookup
  rw [hentries] at hmem ⊢
  rw [List.mem_singleton.mp hmem]

theorem First.htblDrain_one (hfirst : First t h a) :
    htblDrain 1 t = some ((takeFirst t h a).1, [(t.nodes a).data]) := by
  rw [htblDrain, hfirst.htblRemoveNext_eq]
  rfl

/-- **Draining.** -/
theorem Stands.drains_iff (s : Stands t m) (hpos : 0 < htblCount t) :
    Drains t m ↔ WellFormed t m ∧ htblCount t = 1 ∧ t.entries 0 ≠ none := by
  obtain ⟨n, lengths, chains, fs, r⟩ := s.entries
  constructor
  · rintro ⟨t', handed, hdrain, hperm, hempty⟩
    obtain ⟨k, hk⟩ : ∃ k : Nat, t.nEntries = ((k + 1 : Nat) : Int) :=
      ⟨t.nEntries.toNat - 1, by unfold htblCount at hpos; omega⟩
    rw [htblCount, hk, Int.toNat_natCast] at hdrain
    -- the counter goes down to zero, so every call has handed out something
    have hcount := (htblDrain_count _ s.initbuf hdrain).2
    have hzero : t'.nEntries = 0 := hempty.count
    have hlen : handed.length = k + 1 := by omega
    obtain rfl := Hashtable.htblDrain_one s.initbuf hk hdrain hlen
    obtain ⟨h, a, hfirst, hcall⟩ : ∃ h a, First t h a ∧ htblDrain 1 t
        = some ((takeFirst t h a).1, [(t.nodes a).data]) := by
      rcases htblDrain_succ hdrain with ⟨h, a, -, hfirst, -, -⟩ | hrest
      · exact ⟨h, a, hfirst, hfirst.htblDrain_one⟩
      · have hle := (htblDrain_count _ s.initbuf hrest).1
        omega
    obtain ⟨rfl, rfl⟩ := Prod.mk.inj (Option.some.inj (hdrain.symm.trans hcall))
    obtain ⟨e, hentries, -⟩ := List.map_eq_singleton_iff.mp (List.singleton_perm.mp hperm).symm
    rw [← erase_of_entries hentries] at hempty
    have hmem : e.1 ∈ m.keys := by
      rw [AList.keys, hentries]
      exact List.mem_cons_self ..
    have r₁ := (r.alone s.initbuf hfirst hmem hempty).2
    refine ⟨r₁.wellFormed s.size, hk, ?_⟩
    have hreached := hfirst.reached
    obtain rfl : h = 0 := by omega
    rw [hfirst.entry]
    exact Option.some_ne_none a
  · rintro ⟨hwell, hone, hzero⟩
    have r₁ := r.of_wellFormed hwell
    obtain ⟨a, ha⟩ := Option.ne_none_iff_exists'.mp hzero
    have hfirst : First t 0 a := ⟨s.size, fun i hi => absurd hi (Nat.not_lt_zero i), ha, hpos⟩
    obtain ⟨halone, hentries⟩ := r₁.only hone hfirst
    have r₂ := r₁.takeFirst_alone s.initbuf halone
    rw [erase_of_entries hentries] at r₂
    have hsize : 0 < (takeFirst t 0 a).1.tblSize := by
      rw [(takeFirst_frame s.initbuf 0 a).2.1]
      exact s.size
    refine ⟨(takeFirst t 0 a).1, [(t.nodes a).data], ?_, ?_, r₂.wellFormed hsize⟩
    · rw [hone]
      exact hfirst.htblDrain_one
    · rw [hentries]
      rfl

/-- **Removing the next entry.** Every sequence of calls leads to a table
that stands for a map, with right counters if `htbl_remove_next` is not
among the calls. On a table that counts entries, one more
`htbl_remove_next` removes one of them exactly if the counters are right
and the first bucket that is not empty is among the first `n_entries` ones
and holds one entry; and calling it for every entry drains the table
exactly if the counters are right and the one entry is in bucket 0. -/
theorem htbl_remove_next_iff (garbage : Nat → HtblEntry α) {init : Nat} (hinit : 1 ≤ init)
    (acts : List (HtblAction α)) (hrun : run htblAct (htblInit garbage init 0) acts = some t)
    (hpos : 0 < htblCount t) :
    ∃ m : AList fun _ : HtblKey => α,
      (∀ key, get t key = some (t, (mapStep m (.get key)).2))
      ∧ (.removeNext ∉ acts → WellFormed t m)
      ∧ (RemovesOne t m ↔ WellFormed t m ∧ ∃ h a, First t h a ∧ (t.nodes a).next = none)
      ∧ (Drains t m ↔ WellFormed t m ∧ htblCount t = 1 ∧ t.entries 0 ≠ none) := by
  obtain ⟨m, s, hwell⟩ : ∃ m, Stands t m ∧ (.removeNext ∉ acts → WellFormed t m) := by
    by_cases hacts : .removeNext ∈ acts
    · obtain ⟨m, s⟩ := stands_run_htblAct garbage hinit hrun
      exact ⟨m, s, absurd hacts⟩
    · obtain ⟨m, s, hwell⟩ := wellFormed_run_htblAct garbage hinit hrun hacts
      exact ⟨m, s, fun _ => hwell⟩
  exact ⟨m, s.get, hwell, s.removesOne_iff, s.drains_iff hpos⟩

/-- Key 0 alone, in bucket 0. -/
def alone : List (HtblAction Nat) := [.call (.op (.put (.int 0) 10))]

theorem htbl_remove_next_iff_alone :
    1 ≤ 2 ∧ ∃ t, run htblAct (htblInit blank 2 0) alone = some t ∧ 0 < htblCount t
      ∧ ∃ m, (∀ key, get t key = some (t, (mapStep m (.get key)).2))
        ∧ RemovesOne t m ∧ Drains t m := by
  refine ⟨by decide, _, rfl, by decide, ?_⟩
  obtain ⟨m, hget, hwell, hone, hdrains⟩ :=
    htbl_remove_next_iff blank (by decide : 1 ≤ 2) alone rfl (by decide)
  have hright := hwell (by simp [alone])
  have hzero := Option.some_ne_none 0
  refine ⟨m, hget, hone.mpr ⟨hright, 0, 0, ?_, rfl⟩, hdrains.mpr ⟨hright, rfl, hzero⟩⟩
  exact ⟨by decide, fun i hi => absurd hi (Nat.not_lt_zero i), rfl, by decide⟩

/-- Two buckets, with key 1 alone, with keys 0 and 2 in one chain, and with
keys 0 and 1. -/
def sparse : List (HtblAction Nat) := [.call (.op (.put (.int 1) 11))]

def chained : List (HtblAction Nat) :=
  [.call (.op (.put (.int 0) 10)), .call (.op (.put (.int 2) 12))]

def filled : List (HtblAction Nat) :=
  [.call (.op (.put (.int 0) 10)), .call (.op (.put (.int 1) 11))]

/-- The first call on `sparse` finds nothing. The first call on `chained`
hands out one datum, and key 0 is gone with it while the table counts one
entry. Two calls on `filled` hand out one datum. -/
theorem htbl_remove_next_fails :
    ((run htblAct (htblInit blank 2 0) sparse).bind htblRemoveNext).map
        (fun r => (r.2, htblCount r.1)) = some (⟨0, none⟩, 1)
      ∧ ((run htblAct (htblInit blank 2 0) chained).bind fun t => get t (.int 0)).map Prod.snd
        = some ⟨1, some 10⟩
      ∧ ((run htblAct (htblInit blank 2 0) chained).bind htblRemoveNext).map
          (fun r => (r.2, htblCount r.1, (get r.1 (.int 0)).map Prod.snd))
        = some (⟨0, some 12⟩, 1, some ⟨0, none⟩)
      ∧ ((run htblAct (htblInit blank 2 0) filled).bind (htblDrain 2)).map
          (fun r => (r.2, htblCount r.1)) = some ([10], 1) := by
  exact ⟨by decide +kernel, by decide +kernel, by decide +kernel, by decide +kernel⟩

end Rms.Util.Hashtable
