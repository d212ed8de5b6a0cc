/-
Rms.V01.AgreementTheorems — the table and the queue of members.

A member is registered in `members` and in `membersq`, and a LEAVE takes
it out of both. The queue side of that is broken for every position but
one: `mqueue_remove_item` never looks at the last item, and for an item
in between it cuts off the first node instead. `RegistryAgrees` says that
the two hold the same members, each once, and none that was freed;
`LeaveAtFront` is the only way for a member to leave that keeps it so
(`registryAgrees_iff`).
-/
import Rms.V01.RetentionTheorems
import Rms.Util.MqueueRefinement

namespace Rms.V01

open Rms.ByteMem Rms.Util Rms.Runs

/-- The queue holds the members of the table, each exactly once, and no
member that was freed. -/
def RegistryAgrees (cb : RmcCtrlBlock) : Prop :=
  ∃ mps : List Nat,
    (List.range (mqueueSize cb.membersq).toNat).map (mqueueContent cb.membersq) = mps.map some
      ∧ mqueueNode cb.membersq (mqueueSize cb.membersq).toNat = none
      ∧ mps.Perm (htblValues cb.members) ∧ mps.Nodup ∧ ∀ mp ∈ mps, mp ∉ cb.freed

/-- A registered member that leaves is the first of several in the queue. -/
def LeaveAtFront (h : Host) (cb : RmcCtrlBlock) : Branch → Prop
  | .mcast _ r => ∀ id mp, arrived h r cb = some (some .leave, id) →
      htblGet cb.members id = some mp →
      mqueueContent cb.membersq 0 = some mp ∧ 2 ≤ mqueueSize cb.membersq
  | _ => True

/-- What agreement rests on: the queue is sound and holds the members. -/
structure Registered (cb : RmcCtrlBlock) (as fs mps : List Nat) : Prop where
  queue : Represents cb.membersq as fs mps
  init : cb.membersq.init = 0
  perm : mps.Perm (htblValues cb.members)
  nodup : mps.Nodup
  fresh : ∀ mp ∈ mps, mp < cb.nmems
  freed : ∀ mp ∈ cb.freed, mp < cb.nmems ∧ mp ∉ mps

variable {cb cb' : RmcCtrlBlock} {as fs mps : List Nat}

theorem Registered.agrees (r : Registered cb as fs mps) : RegistryAgrees cb := by
  have hcount : (mqueueSize cb.membersq).toNat = as.length := by
    rw [mqueueSize, r.queue.count, Int.toNat_natCast]
  refine ⟨mps, ?_, ?_, r.perm, r.nodup, fun mp hmp hfreed => (r.freed mp hfreed).2 hmp⟩
  · rw [← r.queue.contents, hcount]
    apply List.ext_getElem?
    intro i
    by_cases hi : i < as.length
    · simp [hi, mqueueContent, r.queue.node, contentOf]
    · simp [hi]
  · rw [hcount, r.queue.node]
    exact List.getElem?_eq_none (Nat.le_refl _)

/-- A registry that only had its cursor moved. -/
theorem Registered.same (r : Registered cb as fs mps) {q : Mqueue Nat}
    (hq : Represents q as fs mps) (hinit : q.init = 0)
    (hs : SameRegistry { cb with membersq := q } cb') : Registered cb' as fs mps where
  queue := by rw [hs.membersq]; exact hq
  init := by rw [hs.membersq]; exact hinit
  perm := by rw [hs.members]; exact r.perm
  nodup := r.nodup
  fresh := by rw [hs.nmems]; exact r.fresh
  freed := by rw [hs.nmems, hs.freed]; exact r.freed

/-! ## Branches that peek at the queue -/

theorem represents_mqueuePeeks (n : Nat) :
    ∀ {i : Nat} {q q' : Mqueue Nat} {cs : List (Option Nat)}, Represents q as fs mps →
      mqueuePeeks n i q = some (q', cs) → Represents q' as fs mps ∧ q'.init = q.init := by
  induction n with
  | zero =>
    intro i q q' cs r h
    obtain ⟨rfl, -⟩ := Prod.mk.inj (Option.some.inj h)
    exact ⟨r, rfl⟩
  | succ n ih =>
    intro i q q' cs r h
    obtain ⟨q₁, hpeek, r₁, hinit₁⟩ := represents_mqueuePeekAtIndex r i
    unfold mqueuePeeks at h
    rw [hpeek] at h
    dsimp only at h
    split at h
    · cases h
    rename_i q₂ cs₂ hpeeks
    obtain ⟨rfl, -⟩ := Prod.mk.inj (Option.some.inj h)
    obtain ⟨r₂, hinit₂⟩ := ih (i := i + 1) r₁ hpeeks
    exact ⟨r₂, hinit₂.trans hinit₁⟩

theorem sameRegistry_purge (bound : UInt32) (cb : RmcCtrlBlock) :
    SameRegistry cb (purge bound cb) := by
  obtain ⟨o, b, s, hframe⟩ := purge_frame bound cb
  rw [hframe]
  exact ⟨rfl, rfl, rfl, rfl⟩

theorem ackBranch_peeks (h : ackBranch cb = some cb') :
    ∃ n q cs, mqueuePeeks n 0 cb.membersq = some (q, cs)
      ∧ SameRegistry { cb with membersq := q } cb' := by
  unfold ackBranch at h
  split at h
  · split at h
    · cases h
    rename_i q cs hpeeks
    split at h
    · cases h
    rename_i mps hmps
    obtain rfl := Option.some.inj h
    refine ⟨_, q, cs, hpeeks, SameRegistry.trans ?_ (sameRegistry_purge _ _)⟩
    exact ⟨rfl, rfl, rfl, rfl⟩
  · obtain rfl := Option.some.inj h
    exact ⟨0, cb.membersq, [], rfl, SameRegistry.refl cb⟩

theorem hbeatBranch_peeks {h : Host} (hb : hbeatBranch h cb = some cb') :
    ∃ n q cs, mqueuePeeks n 0 cb.membersq = some (q, cs)
      ∧ SameRegistry { cb with membersq := q } cb' := by
  obtain ⟨n, q, cs, buf, nmsgs, f, sent, hpeeks, -, rfl⟩ := hbeatBranch_spec hb
  refine ⟨n, q, cs, hpeeks, SameRegistry.trans ?_ (sameRegistry_purge _ _)⟩
  exact ⟨rfl, rfl, rfl, rfl⟩

theorem sameRegistry_ipcBranch (h : Host) (i : IpcInput) (cb : RmcCtrlBlock) :
    SameRegistry cb (ipcBranch h i cb) := by
  obtain ⟨len, b, n, f, z, sent, t, self, hbranch⟩ := ipcBranch_eq h i cb
  rw [hbranch]
  exact ⟨rfl, rfl, rfl, rfl⟩

/-! ## Joining and leaving -/

theorem Registered.join (r : Registered cb as fs mps) {id : UInt32}
    (hnew : htblGet cb.members id = none) (hmembers : cb'.members = htblPut cb.members id cb.nmems)
    (hqueue : cb'.membersq = mqueueAdd cb.membersq cb.nmems) (hnmems : cb'.nmems = cb.nmems + 1)
    (hfreed : cb'.freed = cb.freed) : ∃ as' fs', Registered cb' as' fs' (cb.nmems :: mps) := by
  obtain ⟨as', fs', hq⟩ := represents_mqueueAdd r.queue cb.nmems
  have hfresh : cb.nmems ∉ mps := fun h => Nat.lt_irrefl _ (r.fresh _ h)
  refine ⟨as', fs', ?_⟩
  constructor
  case queue => rw [hqueue]; exact hq
  case init => rw [hqueue, mqueueAdd_init]; exact r.init
  case perm =>
    rw [hmembers, htblPut_of_none _ hnew, htblValues_insert _ hnew]
    exact r.perm.cons _
  case nodup => exact List.nodup_cons.mpr ⟨hfresh, r.nodup⟩
  case fresh =>
    intro mp hmp
    rw [hnmems]
    rcases List.mem_cons.mp hmp with rfl | hmp
    · exact Nat.lt_succ_self _
    · exact Nat.lt_succ_of_lt (r.fresh mp hmp)
  case freed =>
    intro mp hmp
    rw [hfreed] at hmp
    obtain ⟨hlt, hnot⟩ := r.freed mp hmp
    rw [hnmems]
    refine ⟨Nat.lt_succ_of_lt hlt, ?_⟩
    rw [List.mem_cons, not_or]
    exact ⟨Nat.ne_of_lt hlt, hnot⟩

section Leave

variable {id : UInt32} {mp : Nat} {ret : Option (Option Nat)}

/-- The position of a registered member in the queue. -/
theorem Registered.position (r : Registered cb as fs mps) (hk : htblGet cb.members id = some mp) :
    ∃ k, k < as.length ∧ mps[k]? = some mp ∧ mqueueContent cb.membersq k = some mp := by
  have hmem : mp ∈ mps := r.perm.mem_iff.mpr (mem_htblValues.mpr ⟨id, hk⟩)
  obtain ⟨k, hk, hget⟩ := List.mem_iff_getElem.mp hmem
  have hlen : k < as.length := by
    rw [r.queue.length]
    exact hk
  have hmp : mps[k]? = some mp := by
    rw [List.getElem?_eq_getElem hk, hget]
  refine ⟨k, hlen, hmp, ?_⟩
  have hnode : as[k]? = some as[k] := List.getElem?_eq_getElem hlen
  rw [mqueueContent, r.queue.node, hnode, Option.bind_some]
  exact (r.queue.content hnode).trans hmp

theorem Registered.leave (r : Registered cb as fs mps) (hk : htblGet cb.members id = some mp)
    (hmembers : cb'.members = cb.members.erase id)
    (hqueue : mqueueRemoveItem cb.membersq mp = some (cb'.membersq, ret))
    (hnmems : cb'.nmems = cb.nmems) (hfreed : cb'.freed = mp :: cb.freed)
    (hfront : mqueueContent cb.membersq 0 = some mp) (hsize : 2 ≤ mqueueSize cb.membersq) :
    ∃ as' fs', Registered cb' as' fs' mps.tail := by
  have hlen : 2 ≤ as.length := by
    rw [mqueueSize, r.queue.count] at hsize
    omega
  cases mps with
  | nil =>
    rw [r.queue.length] at hlen
    simp at hlen
  | cons x mps =>
    obtain rfl : x = mp := by
      have hnode : as[0]? = some as[0] := List.getElem?_eq_getElem (by omega)
      rw [mqueueContent, r.queue.node, hnode, Option.bind_some] at hfront
      exact Option.some.inj ((r.queue.content hnode).symm.trans hfront)
    rw [mqueueRemoveItem_first r.queue r.init r.nodup rfl hlen] at hqueue
    obtain ⟨hq, -⟩ := Prod.mk.inj (Option.some.inj hqueue)
    obtain ⟨-, as', fs', hrep⟩ := represents_mqueueRemove r.queue fun h => absurd r.init h
    obtain ⟨hnot, hnodup⟩ := List.nodup_cons.mp r.nodup
    refine ⟨as', fs', ?_⟩
    constructor
    case queue => rw [← hq]; exact hrep
    case init => rw [← hq, mqueueRemove_init]; exact r.init
    case perm =>
      rw [hmembers]
      exact (r.perm.trans (htblValues_erase hk)).cons_inv
    case nodup => exact hnodup
    case fresh =>
      intro y hy
      rw [hnmems]
      exact r.fresh y (List.mem_cons_of_mem x hy)
    case freed =>
      intro y hy
      rw [hnmems]
      rw [hfreed] at hy
      rcases List.mem_cons.mp hy with rfl | hy
      · exact ⟨r.fresh y (List.mem_cons_self ..), hnot⟩
      · obtain ⟨hlt, hy⟩ := r.freed y hy
        exact ⟨hlt, fun h => hy (List.mem_cons_of_mem x h)⟩

/-- A member that leaves from anywhere else is still in the queue, or the
queue is broken off. -/
theorem Registered.leave_disagrees (r : Registered cb as fs mps)
    (hk : htblGet cb.members id = some mp)
    (hqueue : mqueueRemoveItem cb.membersq mp = some (cb'.membersq, ret))
    (hfreed : cb'.freed = mp :: cb.freed)
    (hbad : ¬ (mqueueContent cb.membersq 0 = some mp ∧ 2 ≤ mqueueSize cb.membersq)) :
    ¬ RegistryAgrees cb' := by
  rintro ⟨mps', hcontents, -, -, -, hfresh⟩
  obtain ⟨k, hlt, hmp, hcontent⟩ := r.position hk
  by_cases hlast : k + 1 = as.length
  · -- the search does not look at the last item
    rw [mqueueRemoveItem_last r.queue r.nodup hmp hlast] at hqueue
    obtain ⟨hq, -⟩ := Prod.mk.inj (Option.some.inj hqueue)
    have hsize : (mqueueSize cb'.membersq).toNat = as.length := by
      rw [← hq]
      show cb.membersq.count.toNat = as.length
      rw [r.queue.count, Int.toNat_natCast]
    have hsame : mqueueContent cb'.membersq k = some mp := by
      rw [← hq, ← hcontent]
      exact mqueueContent_cursorAt cb.membersq 0 k
    have hget := congrArg (·[k]?) hcontents
    simp only [List.getElem?_map, hsize, List.getElem?_range hlt, Option.map_some, hsame] at hget
    obtain ⟨y, hy, hsome⟩ := Option.map_eq_some_iff.mp hget.symm
    obtain rfl := Option.some.inj hsome
    refine hfresh y (List.mem_of_getElem? hy) ?_
    rw [hfreed]
    exact List.mem_cons_self ..
  · -- the queue is broken off behind its first node
    have hsize : mqueueSize cb.membersq = as.length := r.queue.count
    have hpos : 0 < k := by
      rcases Nat.eq_zero_or_pos k with rfl | hpos
      · exact absurd ⟨hcontent, by omega⟩ hbad
      · exact hpos
    obtain ⟨hcount, hnode⟩ :=
      mqueueRemoveItem_between r.queue r.init r.nodup hmp hpos (by omega) hqueue
    have hone : 1 < (mqueueSize cb'.membersq).toNat := by
      rw [mqueueSize, hcount, r.queue.count]
      omega
    have hget := congrArg (·[1]?) hcontents
    simp only [List.getElem?_map, List.getElem?_range hone, Option.map_some, mqueueContent,
      hnode, Option.bind_none] at hget
    obtain ⟨y, -, hsome⟩ := Option.map_eq_some_iff.mp hget.symm
    cases hsome

end Leave

/-! ## Steps and runs -/

theorem registered_branch {h : Host} {b : Branch} (r : Registered cb as fs mps)
    (hok : LeaveAtFront h cb b) (hb : branch h cb b = some cb') :
    ∃ as' fs' mps', Registered cb' as' fs' mps' := by
  have hpeeked : (∃ n q cs, mqueuePeeks n 0 cb.membersq = some (q, cs)
      ∧ SameRegistry { cb with membersq := q } cb') → ∃ as' fs' mps', Registered cb' as' fs' mps' := by
    rintro ⟨n, q, cs, hpeeks, hs⟩
    obtain ⟨hq, hinit⟩ := represents_mqueuePeeks n (i := 0) r.queue hpeeks
    exact ⟨as, fs, mps, r.same hq (hinit.trans r.init) hs⟩
  have hsame : SameRegistry cb cb' → ∃ as' fs' mps', Registered cb' as' fs' mps' :=
    fun hs => ⟨as, fs, mps, r.same r.queue r.init hs⟩
  cases b with
  | mcast sender d =>
    obtain ⟨⟨cb₁, flag⟩, hm, rfl⟩ := Option.map_eq_some_iff.mp hb
    rcases registryStep_mcastBranch hm with ⟨-, hs⟩ | ⟨t, id, harrived, hstep⟩
    · exact hsame hs
    · cases hstep with
      | same hs _ _ => exact hsame hs
      | join ht hnew hmembers hqueue hnmems hfreed =>
        obtain ⟨as', fs', r'⟩ := r.join hnew hmembers hqueue hnmems hfreed
        exact ⟨as', fs', _, r'⟩
      | leave mp ret ht hk hmembers hqueue hnmems hfreed =>
        subst ht
        obtain ⟨hfront, hsize⟩ := hok id mp harrived hk
        obtain ⟨as', fs', r'⟩ := r.leave hk hmembers hqueue hnmems hfreed hfront hsize
        exact ⟨as', fs', _, r'⟩
  | ipc i =>
    obtain rfl := Option.some.inj hb
    exact hsame (sameRegistry_ipcBranch h i cb)
  | hbeat => exact hpeeked (hbeatBranch_peeks hb)
  | ack => exact hpeeked (ackBranch_peeks hb)

theorem branch_disagrees {h : Host} {b : Branch} (r : Registered cb as fs mps)
    (hbad : ¬ LeaveAtFront h cb b) (hb : branch h cb b = some cb') : ¬ RegistryAgrees cb' := by
  cases b with
  | mcast sender d =>
    obtain ⟨⟨cb₁, flag⟩, hm, rfl⟩ := Option.map_eq_some_iff.mp hb
    simp only [LeaveAtFront, not_forall] at hbad
    obtain ⟨id, mp, harrived, hk, hbad⟩ := hbad
    rcases registryStep_mcastBranch hm with ⟨hnone, -⟩ | ⟨t, id', harrived', hstep⟩
    · rw [hnone] at harrived
      cases harrived
    · rw [harrived'] at harrived
      obtain ⟨rfl, rfl⟩ := Prod.mk.inj (Option.some.inj harrived)
      cases hstep with
      | same _ hleave _ =>
        rw [hleave rfl] at hk
        cases hk
      | join ht => cases ht
      | leave mp' ret _ hk' _ hqueue _ hfreed =>
        obtain rfl := Option.some.inj (hk'.symm.trans hk)
        exact r.leave_disagrees hk hqueue hfreed hbad
  | ipc i => exact absurd trivial hbad
  | hbeat => exact absurd trivial hbad
  | ack => exact absurd trivial hbad

theorem registered_rmcastInit (g : Garbage) (a : InitArgs) :
    ∃ fs, Registered (rmcastInit g a) [] fs [] := by
  obtain ⟨fs, hq⟩ := represents_mqueueInit g.items 0
  refine ⟨fs, ?_⟩
  unfold rmcastInit
  dsimp only
  obtain ⟨b, n, f, hpool⟩ := fillPool_eq (max 20 a.nbufs).toNat _
  rw [hpool]
  exact ⟨hq, rfl, .nil, List.nodup_nil, (fun mp h => by cases h), (fun mp h => by cases h)⟩

/-- **Registry agreement.** In every run, the table and the queue agree in
every state reached exactly if every registered member that leaves is the
first of several in the queue. -/
theorem registryAgrees_iff (h : Host) (g : Garbage) (a : InitArgs) (bs : List Branch) :
    Throughout (branch h) RegistryAgrees (rmcastInit g a) bs
      ↔ Guarded (branch h) (LeaveAtFront h) (rmcastInit g a) bs := by
  obtain ⟨fs, hinit⟩ := registered_rmcastInit g a
  refine throughout_iff_of_invariant (I := fun cb => ∃ as fs mps, Registered cb as fs mps)
    ?_ ?_ ?_ ⟨[], fs, [], hinit⟩
  · rintro cb ⟨as, fs, mps, r⟩
    exact r.agrees
  · rintro cb b cb' ⟨as, fs, mps, r⟩ hok hb
    exact registered_branch r hok hb
  · rintro cb b cb' ⟨as, fs, mps, r⟩ hbad hb
    exact branch_disagrees r hbad hb

/-- A LEAVE of node `id`. -/
def leaveFrom (id : UInt32) : Branch :=
  .mcast anyAddr (.ok (Datagram.mk 0 MsgType.leave.toByte 0 0 id []).bytes)

/-- The only member leaves: it is freed and stays in the queue. -/
theorem registryAgrees_fails :
    ∃ cb, run (branch littleHost) (rmcastInit zeroGarbage plainArgs) [hbeatFrom 2 none, leaveFrom 2]
        = some cb
      ∧ mqueueContent cb.membersq 0 = some 0 ∧ cb.freed = [0] ∧ ¬ RegistryAgrees cb := by
  have hrun : (run (branch littleHost) (rmcastInit zeroGarbage plainArgs)
      [hbeatFrom 2 none, leaveFrom 2]).map (fun cb =>
        (mqueueSize cb.membersq, mqueueContent cb.membersq 0, htblValues cb.members, cb.freed))
      = some (1, some 0, [], [0]) := by decide +kernel
  obtain ⟨cb, hcb, heq⟩ := Option.map_eq_some_iff.mp hrun
  simp only [Prod.mk.injEq] at heq
  obtain ⟨hsize, hcontent, hvalues, hfreed⟩ := heq
  refine ⟨cb, hcb, hcontent, hfreed, ?_⟩
  rintro ⟨mps, hcontents, -, hperm, -, -⟩
  rw [hvalues, List.perm_nil] at hperm
  rw [hperm, hsize] at hcontents
  cases hcontents

end Rms.V01
