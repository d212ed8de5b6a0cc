/-
Rms.ManagerTheorems — what the DATA case of `rms_manager` forwards.

`DataStep` says what one DATA datagram can do to a peer. A message ahead
of its turn is cached, and its copy comes out of the cache only when the
same number arrives again in its turn, right behind it: the release loop
looks for the number at hand and not for the next one. And the number
that is due at first is 1, whatever the heartbeat said.

So the messages numbered from `q` on come out once and in order exactly
if `q` is 1 and no number before the first missing one arrives ahead of
its turn, or if there is nothing to forward (`rms_reassembly_iff`).
-/
import Mathlib.Data.List.Induction
import Rms.Lib.Serial
import Rms.Manager

namespace Rms.Manager

open Rms.Util Rms.Serial

/-- What the DATA case keeps for a peer, and what was forwarded so far. -/
structure View where
  rcvd : UInt32
  unseq : Htbl RmsMetaMsg
  out : List RmsMetaMsg

def view (cb : Rmscb RmsMetaMsg) (pp : Nat) : View :=
  ⟨(cb.peers pp).sequenceRcvd, (cb.peers pp).htUnseqMsgs, cb.ipcOut⟩

/-! ## One datagram -/

/-- What a DATA datagram can do. -/
inductive DataStep (msg : RmsMetaMsg) (s : View) : View → Prop
  | next (hseq : s.rcvd + 1 = msg.sequence) (hnone : htblGet s.unseq msg.sequence = none) :
      DataStep msg s ⟨s.rcvd + 1, s.unseq, s.out ++ [msg]⟩
  | twice (copy : RmsMetaMsg) (hseq : s.rcvd + 1 = msg.sequence)
      (hcopy : htblGet s.unseq msg.sequence = some copy) :
      DataStep msg s ⟨s.rcvd + 1 + 1, s.unseq.erase msg.sequence, s.out ++ [msg, copy]⟩
  | ahead (hseq : s.rcvd + 1 ≠ msg.sequence) (hlt : s.rcvd < msg.sequence) :
      DataStep msg s ⟨s.rcvd, htblPut s.unseq msg.sequence msg, s.out⟩
  | behind (hseq : s.rcvd + 1 ≠ msg.sequence) (hge : ¬ s.rcvd < msg.sequence) : DataStep msg s s

theorem view_setPeer (cb : Rmscb RmsMetaMsg) (pp : Nat) (peer : RmsMetaPeer RmsMetaMsg) :
    view (cb.setPeer pp peer) pp = ⟨peer.sequenceRcvd, peer.htUnseqMsgs, cb.ipcOut⟩ := by
  simp [view, Rmscb.setPeer]

theorem view_sendNack (cb : Rmscb RmsMetaMsg) (pp : Nat) :
    view (sendNack pp cb) pp = view cb pp := by
  simp [view, sendNack, Rmscb.setPeer]

theorem releaseUnseq_none (pp : Nat) {cb : Rmscb RmsMetaMsg}
    (h : htblGet (cb.peers pp).htUnseqMsgs (cb.peers pp).sequenceSent = none) (n : Nat) :
    releaseUnseq pp n cb = cb := by
  cases n with
  | zero => rfl
  | succ n => simp only [releaseUnseq, htblRemove_eq_none.mpr h]

/-- The release loop finds at most one message. -/
theorem releaseUnseq_spec (pp n : Nat) (cb : Rmscb RmsMetaMsg)
    (hn : htblCount (cb.peers pp).htUnseqMsgs ≤ n) :
    (releaseUnseq pp n cb).htPeers = cb.htPeers ∧ view (releaseUnseq pp n cb) pp
      = match htblGet (cb.peers pp).htUnseqMsgs (cb.peers pp).sequenceSent with
        | none => view cb pp
        | some copy => ⟨(cb.peers pp).sequenceRcvd + 1,
            (cb.peers pp).htUnseqMsgs.erase (cb.peers pp).sequenceSent, cb.ipcOut ++ [copy]⟩ := by
  cases hget : htblGet (cb.peers pp).htUnseqMsgs (cb.peers pp).sequenceSent with
  | none =>
    rw [releaseUnseq_none pp hget]
    exact ⟨rfl, rfl⟩
  | some copy =>
    have hcount := htblCount_erase hget
    obtain ⟨n, rfl⟩ : ∃ j, n = j + 1 := ⟨n - 1, by omega⟩
    simp only [releaseUnseq, htblRemove_eq_some.mpr ⟨hget, rfl⟩]
    -- the second round finds nothing under the same number
    rw [releaseUnseq_none]
    · exact ⟨rfl, view_setPeer _ _ _⟩
    · simp [Rmscb.setPeer, htblGet_erase]

/-- **One datagram** of a registered peer. -/
theorem dataStep_dataMsg {cb : Rmscb RmsMetaMsg} {msg : RmsMetaMsg} {pp : Nat}
    (hk : htblGet cb.htPeers msg.id = some pp) :
    DataStep msg (view cb pp) (view (dataMsg cb msg) pp)
      ∧ (dataMsg cb msg).htPeers = cb.htPeers := by
  unfold dataMsg
  rw [hk]
  dsimp only
  split
  · rename_i hseq
    split
    · rename_i hlt
      rw [view_sendNack, view_setPeer]
      exact ⟨.ahead hseq hlt, rfl⟩
    · rename_i hge
      rw [view_setPeer]
      exact ⟨.behind hseq hge, rfl⟩
  · rename_i hseq
    rw [not_not] at hseq
    obtain ⟨hpeers, hview⟩ := releaseUnseq_spec pp (htblCount (cb.peers pp).htUnseqMsgs)
      ((cb.forward msg).setPeer pp { cb.peers pp with
        sequenceSent := msg.sequence, sequenceRcvd := (cb.peers pp).sequenceRcvd + 1 })
      (by simp [Rmscb.setPeer])
    refine ⟨?_, hpeers⟩
    rw [hview, view_setPeer]
    simp only [Rmscb.setPeer, Function.update_self, Rmscb.forward]
    split
    · rename_i hnone
      exact .next hseq hnone
    · rename_i copy hcopy
      rw [List.append_assoc]
      exact .twice copy hseq hcopy

/-! ## Many datagrams -/

/-- The message with a number. -/
def numbered (id : UInt32) (payload : UInt32 → List UInt8) (n : UInt32) : RmsMetaMsg :=
  ⟨n, id, payload n⟩

theorem numbered_inj {id : UInt32} {payload : UInt32 → List UInt8} {n k : UInt32}
    (h : numbered id payload n = numbered id payload k) : n = k :=
  congrArg RmsMetaMsg.sequence h

section Peer

variable (cb : Rmscb RmsMetaMsg) (pp : Nat) (id : UInt32) (payload : UInt32 → List UInt8)

/-- The control block once the messages `ns` of the peer have arrived. -/
def fed (ns : List UInt32) : Rmscb RmsMetaMsg := (ns.map (numbered id payload)).foldl dataMsg cb

/-- What the peer looks like then. -/
def seen (ns : List UInt32) : View := view (fed cb id payload ns) pp

variable {cb pp id payload}

theorem fed_concat (ns : List UInt32) (n : UInt32) :
    fed cb id payload (ns ++ [n]) = dataMsg (fed cb id payload ns) (numbered id payload n) := by
  simp [fed]

theorem fed_htPeers (hk : htblGet cb.htPeers id = some pp) (ns : List UInt32) :
    (fed cb id payload ns).htPeers = cb.htPeers := by
  induction ns using List.reverseRecOn with
  | nil => rfl
  | append_singleton ns n ih =>
    have hn : htblGet (fed cb id payload ns).htPeers (numbered id payload n).id = some pp := by
      rw [ih]
      exact hk
    rw [fed_concat, (dataStep_dataMsg hn).2, ih]

theorem seen_concat (hk : htblGet cb.htPeers id = some pp) (ns : List UInt32) (n : UInt32) :
    DataStep (numbered id payload n) (seen cb pp id payload ns)
      (seen cb pp id payload (ns ++ [n])) := by
  have hn : htblGet (fed cb id payload ns).htPeers (numbered id payload n).id = some pp := by
    rw [fed_htPeers hk]
    exact hk
  rw [seen, seen, fed_concat]
  exact (dataStep_dataMsg hn).1

end Peer

/-! ## Numbers only

Equal numbers are equal messages, so the arrivals can be followed with
numbers alone. -/

/-- The numbers forwarded so far, and those in the cache. -/
structure Desk where
  forwarded : List UInt32
  cached : List UInt32
  deriving DecidableEq

def Desk.arrive (s : Desk) (n : UInt32) : Desk :=
  if UInt32.ofNat s.forwarded.length + 1 = n then
    if n ∈ s.cached then ⟨s.forwarded ++ [n, n], s.cached.erase n⟩
    else ⟨s.forwarded ++ [n], s.cached⟩
  else if UInt32.ofNat s.forwarded.length < n then ⟨s.forwarded, s.cached.insert n⟩
  else s

/-- The desk after a list of arrivals. -/
def desk (ns : List UInt32) : Desk := ns.foldl Desk.arrive ⟨[], []⟩

theorem desk_concat (ns : List UInt32) (n : UInt32) : desk (ns ++ [n]) = (desk ns).arrive n := by
  simp [desk]

/-- The peer is where the desk says. -/
structure Follows (id : UInt32) (payload : UInt32 → List UInt8) (base : List RmsMetaMsg)
    (s : Desk) (v : View) : Prop where
  out : v.out = base ++ s.forwarded.map (numbered id payload)
  rcvd : v.rcvd = UInt32.ofNat s.forwarded.length
  nodup : s.cached.Nodup
  cached : ∀ k, htblGet v.unseq k = if k ∈ s.cached then some (numbered id payload k) else none

theorem follows_arrive {id : UInt32} {payload : UInt32 → List UInt8} {base : List RmsMetaMsg}
    {s : Desk} {v v' : View} {n : UInt32} (h : Follows id payload base s v)
    (hstep : DataStep (numbered id payload n) v v') : Follows id payload base (s.arrive n) v' := by
  have hsucc : ∀ j : Nat, UInt32.ofNat j + 1 = UInt32.ofNat (j + 1) := fun j =>
    ofNat_add_ofNat j 1
  cases hstep with
  | next hseq hnone =>
    have hdue : UInt32.ofNat s.forwarded.length + 1 = n := h.rcvd ▸ hseq
    have hnot : n ∉ s.cached := by
      intro hmem
      have hget := h.cached n
      rw [if_pos hmem] at hget
      cases hget.symm.trans hnone
    rw [Desk.arrive, if_pos hdue, if_neg hnot]
    constructor
    · simp only [h.out, List.map_append, List.append_assoc, List.map_singleton]
    · simp only [h.rcvd, List.length_append, List.length_singleton]
      exact hsucc _
    · exact h.nodup
    · exact h.cached
  | twice copy hseq hcopy =>
    have hdue : UInt32.ofNat s.forwarded.length + 1 = n := h.rcvd ▸ hseq
    have hget := (h.cached n).symm.trans hcopy
    have hmem : n ∈ s.cached := by
      by_contra hnot
      rw [if_neg hnot] at hget
      cases hget
    rw [if_pos hmem] at hget
    obtain rfl := Option.some.inj hget
    rw [Desk.arrive, if_pos hdue, if_pos hmem]
    constructor
    · simp only [h.out, List.map_append, List.append_assoc, List.map_cons, List.map_nil]
    · simp only [h.rcvd, List.length_append, List.length_cons, List.length_nil]
      rw [hsucc, hsucc]
    · exact h.nodup.erase n
    · intro k
      simp only [htblGet_erase, h.nodup.mem_erase_iff, h.cached]
      by_cases hk : k = n
      · simp [hk, numbered]
      · simp [hk, numbered]
  | ahead hseq hlt =>
    have hdue : UInt32.ofNat s.forwarded.length + 1 ≠ n := h.rcvd ▸ hseq
    have hlt' : UInt32.ofNat s.forwarded.length < n := h.rcvd ▸ hlt
    rw [Desk.arrive, if_neg hdue, if_pos hlt']
    constructor
    · exact h.out
    · exact h.rcvd
    · exact h.nodup.insert
    · intro k
      have hget := h.cached n
      show htblGet (htblPut v.unseq n (numbered id payload n)) k = _
      simp only [List.mem_insert_iff]
      by_cases hmem : n ∈ s.cached
      · rw [if_pos hmem] at hget
        rw [htblPut_of_some (d := numbered id payload n) _ hget, h.cached]
        by_cases hk : k = n
        · simp [hk, hmem]
        · simp [hk]
      · rw [if_neg hmem] at hget
        rw [htblPut_of_none _ hget, htblGet_insert, h.cached]
        by_cases hk : k = n
        · simp [hk, numbered]
        · simp [hk, numbered]
  | behind hseq hge =>
    have hdue : UInt32.ofNat s.forwarded.length + 1 ≠ n := h.rcvd ▸ hseq
    have hge' : ¬ UInt32.ofNat s.forwarded.length < n := h.rcvd ▸ hge
    rw [Desk.arrive, if_neg hdue, if_neg hge']
    exact h

theorem follows_seen {cb : Rmscb RmsMetaMsg} {pp : Nat} {id : UInt32}
    {payload : UInt32 → List UInt8}
    {base : List RmsMetaMsg} (hk : htblGet cb.htPeers id = some pp)
    (hstart : view cb pp = ⟨0, ∅, base⟩) (ns : List UInt32) :
    Follows id payload base (desk ns) (seen cb pp id payload ns) := by
  induction ns using List.reverseRecOn with
  | nil =>
    have hseen : seen cb pp id payload [] = ⟨0, ∅, base⟩ := hstart
    rw [hseen]
    exact ⟨(List.append_nil base).symm, rfl, List.nodup_nil, fun _ => rfl⟩
  | append_singleton ns n ih =>
    rw [desk_concat]
    exact follows_arrive ih (seen_concat hk ns n)

/-! ## What the desk forwards -/

theorem arrive_forwarded (s : Desk) (n : UInt32) :
    ∃ l, (s.arrive n).forwarded = s.forwarded ++ l ∧ ∀ k ∈ l, k = n := by
  unfold Desk.arrive
  split
  · split
    · exact ⟨[n, n], rfl, by simp⟩
    · exact ⟨[n], rfl, by simp⟩
  · split
    · exact ⟨[], (List.append_nil _).symm, fun k hk => by cases hk⟩
    · exact ⟨[], (List.append_nil _).symm, fun k hk => by cases hk⟩

/-- What was forwarded stays so. -/
theorem foldl_forwarded (s : Desk) (ns : List UInt32) :
    s.forwarded <+: (ns.foldl Desk.arrive s).forwarded := by
  induction ns generalizing s with
  | nil => exact List.prefix_refl _
  | cons n ns ih =>
    obtain ⟨l, hl, -⟩ := arrive_forwarded s n
    refine List.IsPrefix.trans ⟨l, ?_⟩ (ih (s.arrive n))
    exact hl.symm

theorem forwarded_subset (ns : List UInt32) : (desk ns).forwarded ⊆ ns := by
  induction ns using List.reverseRecOn with
  | nil => exact List.Subset.refl _
  | append_singleton ns n ih =>
    obtain ⟨l, hl, hmem⟩ := arrive_forwarded (desk ns) n
    rw [desk_concat, hl]
    intro k hk
    rcases List.mem_append.mp hk with hk | hk
    · exact List.mem_append_left _ (ih hk)
    · rw [hmem k hk]
      exact List.mem_append_right _ (List.mem_singleton_self n)

/-- Number 1 is the first to be forwarded. -/
theorem forwarded_first (ns : List UInt32) :
    (1 ∉ ns ∧ (desk ns).forwarded = []) ∨ (1 ∈ ns ∧ ∃ l, (desk ns).forwarded = 1 :: l) := by
  induction ns using List.reverseRecOn with
  | nil => exact .inl ⟨List.not_mem_nil, rfl⟩
  | append_singleton ns n ih =>
    rw [desk_concat]
    rcases ih with ⟨hnot, hnil⟩ | ⟨hmem, l, hl⟩
    · unfold Desk.arrive
      rw [hnil]
      by_cases hn : UInt32.ofNat ([] : List UInt32).length + 1 = n
      · have hone : n = 1 := hn.symm
        refine .inr ⟨List.mem_append_right _ (by simp [hone]), ?_⟩
        rw [if_pos hn, hone]
        split
        · exact ⟨[1], rfl⟩
        · exact ⟨[], rfl⟩
      · have hone : n ≠ 1 := fun h => hn h.symm
        refine .inl ⟨by simp [hnot, Ne.symm hone], ?_⟩
        rw [if_neg hn]
        split
        · rfl
        · exact hnil
    · obtain ⟨l', hl', -⟩ := arrive_forwarded (desk ns) n
      refine .inr ⟨List.mem_append_left _ hmem, l ++ l', ?_⟩
      rw [hl', hl]
      rfl

/-! ## Arrivals in their turn -/

/-- Number `i` from 1 on. -/
def nth (i : Nat) : UInt32 := 1 + UInt32.ofNat i

theorem nth_toNat {i : Nat} (h : i < 2147483650) : (nth i).toNat = i + 1 := by
  rw [nth, UInt32.toNat_add, UInt32.toNat_ofNat']
  show (1 + i % 4294967296) % 4294967296 = i + 1
  omega

theorem nth_inj {i j : Nat} (hi : i < 2147483650) (hj : j < 2147483650) (h : nth i = nth j) :
    i = j := by
  have hnat := congrArg UInt32.toNat h
  rw [nth_toNat hi, nth_toNat hj] at hnat
  omega

theorem ofNat_succ_eq_nth (c : Nat) : UInt32.ofNat c + 1 = nth c := UInt32.add_comm _ _

theorem ofNat_lt_iff {c : Nat} (hc : c < 2147483650) (n : UInt32) :
    UInt32.ofNat c < n ↔ c < n.toNat := by
  rw [UInt32.lt_iff_toNat_lt, UInt32.toNat_ofNat']
  show c % 4294967296 < n.toNat ↔ _
  rw [Nat.mod_eq_of_lt (by omega)]

theorem span_concat (c : Nat) : span 1 (c + 1) = span 1 c ++ [nth c] := by
  rw [span_add, span_one]
  rfl

theorem mem_span_nth {d : Nat} (hd : d ≤ 2147483648) {k : UInt32} :
    k ∈ span 1 d ↔ ∃ i < d, k = nth i := by
  rw [mem_span (by omega)]
  constructor
  · intro h
    exact ⟨dist 1 k, h, eq_add_ofNat_dist 1 k⟩
  · rintro ⟨i, hi, rfl⟩
    rw [nth, dist_add_ofNat 1 (by omega)]
    exact hi

theorem nodup_span {d : Nat} (hd : d ≤ 2147483648) : (span 1 d).Nodup := by
  refine List.Nodup.map_on ?_ List.nodup_range
  intro i hi j hj h
  rw [List.mem_range] at hi hj
  exact nth_inj (by omega) (by omega) h

/-- The first arrivals of the `d` numbers from 1 on are in order. -/
def InTurn (d : Nat) (ns : List UInt32) : Prop :=
  ∀ i, i + 1 < d → ns.idxOf (nth i) < ns.idxOf (nth (i + 1))

theorem InTurn.lt {d : Nat} {ns : List UInt32} (h : InTurn d ns) {i j : Nat} (hij : i < j)
    (hj : j < d) : ns.idxOf (nth i) < ns.idxOf (nth j) := by
  induction j with
  | zero => exact absurd hij (Nat.not_lt_zero i)
  | succ j ih =>
    rcases Nat.lt_succ_iff_lt_or_eq.mp hij with hlt | rfl
    · exact Nat.lt_trans (ih hlt (Nat.lt_of_succ_lt hj)) (h j hj)
    · exact h i hj

/-- What arrives first before a position is in the prefix. -/
theorem mem_of_idxOf_lt {ps r : List UInt32} {k : UInt32}
    (h : (ps ++ r).idxOf k < ps.length) : k ∈ ps := by
  by_contra hnot
  rw [List.idxOf_append_of_notMem hnot] at h
  omega

/-- While the numbers come in their turn, they are forwarded as they come
and none of them is cached. -/
theorem desk_inTurn {d : Nat} {ns : List UInt32} (hd : d ≤ 2147483648)
    (hmiss : nth d ∉ ns) (hturn : InTurn d ns) (ps : List UInt32) :
    ∀ rest, ns = ps ++ rest → ∃ c ≤ d, (desk ps).forwarded = span 1 c ∧ nth c ∉ ps
      ∧ ∀ k ∈ (desk ps).cached, k ∉ span 1 d := by
  induction ps using List.reverseRecOn with
  | nil =>
    intro rest _
    exact ⟨0, Nat.zero_le d, rfl, List.not_mem_nil, fun k hk => by cases hk⟩
  | append_singleton ps n ih =>
    intro rest hns
    rw [List.append_assoc] at hns
    obtain ⟨c, hc, hforwarded, hnot, hcached⟩ := ih ([n] ++ rest) hns
    have hn : n ∈ ns := by
      rw [hns]
      simp
    rw [desk_concat, Desk.arrive, hforwarded, span_length, ofNat_succ_eq_nth]
    by_cases hdue : nth c = n
    · -- in its turn: it is not in the cache, and the next one has not come before it
      have hlt : c < d := by
        rcases Nat.lt_or_eq_of_le hc with hlt | rfl
        · exact hlt
        · exact absurd (hdue ▸ hn) hmiss
      have hfree : n ∉ (desk ps).cached := by
        intro hmem
        refine hcached n hmem ((mem_span_nth hd).mpr ⟨c, hlt, hdue.symm⟩)
      rw [if_pos hdue, if_neg hfree]
      refine ⟨c + 1, hlt, ?_, ?_, hcached⟩
      · rw [span_concat, hdue]
      · intro hmem
        rcases List.mem_append.mp hmem with hmem | hmem
        · rcases Nat.lt_or_eq_of_le (Nat.succ_le_of_lt hlt) with hlt' | heq
          · have hfirst := hturn c hlt'
            have hbefore : ns.idxOf (nth (c + 1)) < ps.length := by
              rw [hns, List.idxOf_append_of_mem hmem]
              exact List.idxOf_lt_length_iff.mpr hmem
            refine hnot (mem_of_idxOf_lt (r := [n] ++ rest) ?_)
            rw [← hns]
            omega
          · apply hmiss
            rw [← heq, hns]
            exact List.mem_append_left _ hmem
        · have heq := (List.mem_singleton.mp hmem).trans hdue.symm
          have := nth_inj (by omega) (by omega) heq
          omega
    · rw [if_neg hdue]
      have hnot' : nth c ∉ ps ++ [n] := by
        rw [List.mem_append, List.mem_singleton, not_or]
        exact ⟨hnot, hdue⟩
      split
      · -- ahead of its turn: it is none of the `d` numbers
        rename_i hlt
        rw [ofNat_lt_iff (by omega)] at hlt
        refine ⟨c, hc, rfl, hnot', ?_⟩
        intro k hk
        rcases List.mem_insert_iff.mp hk with rfl | hk
        · intro hspan
          obtain ⟨j, hj, rfl⟩ := (mem_span_nth hd).mp hspan
          rw [nth_toNat (by omega)] at hlt
          have hcj : c < j := by
            rcases Nat.lt_or_eq_of_le (Nat.le_of_lt_succ hlt) with h | rfl
            · exact h
            · exact absurd rfl hdue
          have hfirst := hturn.lt hcj hj
          have hpos : ns.idxOf (nth j) ≤ ps.length := by
            rw [hns]
            by_cases hmem : nth j ∈ ps
            · rw [List.idxOf_append_of_mem hmem]
              exact List.idxOf_le_length
            · rw [List.idxOf_append_of_notMem hmem]
              simp
          refine hnot (mem_of_idxOf_lt (r := [nth j] ++ rest) ?_)
          rw [← hns]
          omega
        · exact hcached k hk
      · exact ⟨c, hc, hforwarded, hnot', hcached⟩

/-- A cached number stays in the cache, or comes out twice. -/
theorem foldl_cached {k : UInt32} (ns : List UInt32) :
    ∀ s : Desk, (k ∈ s.cached ∧ k ∉ s.forwarded) ∨ 2 ≤ s.forwarded.count k →
      (k ∈ (ns.foldl Desk.arrive s).cached ∧ k ∉ (ns.foldl Desk.arrive s).forwarded)
        ∨ 2 ≤ (ns.foldl Desk.arrive s).forwarded.count k := by
  induction ns with
  | nil => exact fun s h => h
  | cons n ns ih =>
    intro s h
    refine ih (s.arrive n) ?_
    rcases h with ⟨hcached, hnot⟩ | htwice
    · unfold Desk.arrive
      by_cases hkn : k = n
      · subst hkn
        split
        · right
          simp
        · split
          · exact .inl ⟨List.mem_insert_of_mem hcached, hnot⟩
          · exact .inl ⟨hcached, hnot⟩
      · left
        split
        · split
          · exact ⟨(List.mem_erase_of_ne hkn).mpr hcached, by simp [hnot, hkn]⟩
          · exact ⟨hcached, by simp [hnot, hkn]⟩
        · split
          · exact ⟨List.mem_insert_of_mem hcached, hnot⟩
          · exact ⟨hcached, hnot⟩
    · right
      obtain ⟨l, hl, -⟩ := arrive_forwarded s n
      rw [hl, List.count_append]
      omega

/-- Numbers that are all forwarded once and in order came in their turn. -/
theorem inTurn_of_forwarded {d : Nat} {ns : List UInt32} (hd : d ≤ 2147483648)
    (hforwarded : (desk ns).forwarded = span 1 d) : InTurn d ns := by
  intro i hi
  by_contra hle
  have hmem : nth (i + 1) ∈ ns := by
    refine forwarded_subset ns ?_
    rw [hforwarded]
    exact (mem_span_nth hd).mpr ⟨i + 1, hi, rfl⟩
  -- up to the first arrival of the later number
  obtain ⟨ps, rest, hns, hfirst⟩ : ∃ ps rest, ns = ps ++ nth (i + 1) :: rest
      ∧ nth (i + 1) ∉ ps := List.eq_append_cons_of_mem hmem
  have hidx : ns.idxOf (nth (i + 1)) = ps.length := by
    rw [hns, List.idxOf_append_of_notMem hfirst]
    simp
  have hbefore : nth i ∉ ps := by
    intro h
    have hlt : ns.idxOf (nth i) < ps.length := by
      rw [hns, List.idxOf_append_of_mem h]
      exact List.idxOf_lt_length_iff.mpr h
    omega
  have hpre : (desk ps).forwarded <+: span 1 d := by
    rw [← hforwarded, hns]
    unfold desk
    rw [List.foldl_append]
    exact foldl_forwarded _ _
  have hlen := hpre.length_le
  rw [span_length] at hlen
  have hshort : (desk ps).forwarded.length ≤ i := by
    by_contra hlong
    refine hbefore (forwarded_subset ps ?_)
    rw [List.prefix_iff_eq_take.mp hpre, List.mem_iff_getElem]
    exact ⟨i, by simp; omega, by simp [span, nth]⟩
  have hcached : (desk (ps ++ [nth (i + 1)])).cached = (desk ps).cached.insert (nth (i + 1))
      ∧ (desk (ps ++ [nth (i + 1)])).forwarded = (desk ps).forwarded := by
    have hdue : UInt32.ofNat (desk ps).forwarded.length + 1 ≠ nth (i + 1) := by
      rw [ofNat_succ_eq_nth]
      intro h
      have := nth_inj (by omega) (by omega) h
      omega
    have hlt : UInt32.ofNat (desk ps).forwarded.length < nth (i + 1) := by
      rw [ofNat_lt_iff (by omega), nth_toNat (by omega)]
      omega
    rw [desk_concat, Desk.arrive, if_neg hdue, if_pos hlt]
    exact ⟨rfl, rfl⟩
  have hstuck := foldl_cached (k := nth (i + 1)) rest (desk (ps ++ [nth (i + 1)])) (.inl (by
    rw [hcached.1, hcached.2]
    exact ⟨List.mem_insert_self, fun h => hfirst (forwarded_subset ps h)⟩))
  have hfold : rest.foldl Desk.arrive (desk (ps ++ [nth (i + 1)])) = desk ns := by
    rw [hns]
    unfold desk
    simp
  rw [hfold, hforwarded] at hstuck
  rcases hstuck with ⟨-, hnot⟩ | htwice
  · exact hnot ((mem_span_nth hd).mpr ⟨i + 1, hi, rfl⟩)
  · have hone := List.nodup_iff_count_le_one.mp (nodup_span hd) (nth (i + 1))
    omega

/-! ## Reassembly -/

/-- A peer registered by a heartbeat starts at 0. -/
theorem heartbeatMsg_new (cb : Rmscb RmsMetaMsg) {hbeat : RmsMsgHbeat}
    (hnew : htblGet cb.htPeers hbeat.id = none) :
    htblGet (heartbeatMsg cb hbeat).htPeers hbeat.id = some cb.npeers
      ∧ view (heartbeatMsg cb hbeat) cb.npeers = ⟨0, ∅, cb.ipcOut⟩ := by
  have hput : htblGet (htblPut cb.htPeers hbeat.id cb.npeers) hbeat.id = some cb.npeers := by
    rw [htblPut_of_none _ hnew, htblGet_insert, if_pos rfl]
  unfold heartbeatMsg
  simp only [hbeatPeer, hnew]
  split
  · split
    · rw [view_sendNack, view_setPeer]
      exact ⟨hput, by simp [rmsMetaPeerInit]⟩
    · rw [view_setPeer]
      exact ⟨hput, by simp [rmsMetaPeerInit]⟩
  · rw [view_setPeer]
    exact ⟨hput, by simp [rmsMetaPeerInit]⟩

/-- The desk forwards the numbers from `q` up to the first missing one
exactly if they start with 1 and come in their turn, or if there are none
and 1 did not come either. -/
theorem desk_forwarded_iff {q m : UInt32} {ns : List UInt32}
    (hrange : ∀ n ∈ ns, dist q n < 2147483648) (hmiss : m ∉ ns)
    (hall : ∀ k, dist q k < dist q m → k ∈ ns) :
    (desk ns).forwarded = span q (dist q m)
      ↔ (q = 1 ∧ InTurn (dist q m) ns) ∨ (q ≠ 1 ∧ q ∉ ns ∧ 1 ∉ ns) := by
  have hd : dist q m ≤ 2147483648 := by
    by_contra hbig
    have hmem := hall (q + UInt32.ofNat 2147483648)
      (by rw [dist_add_ofNat q (by omega)]; omega)
    have hlt := hrange _ hmem
    rw [dist_add_ofNat q (by omega)] at hlt
    omega
  by_cases hq : q = 1
  · subst hq
    have hm : m = nth (dist 1 m) := eq_add_ofNat_dist 1 m
    constructor
    · intro hforwarded
      exact .inl ⟨rfl, inTurn_of_forwarded hd hforwarded⟩
    · rintro (⟨-, hturn⟩ | ⟨hne, -, -⟩)
      · obtain ⟨c, hc, hforwarded, hnot, -⟩ := desk_inTurn hd (hm ▸ hmiss) hturn ns [] (by simp)
        rcases Nat.lt_or_eq_of_le hc with hlt | heq
        · refine absurd (hall (nth c) ?_) hnot
          rw [nth, dist_add_ofNat 1 (by omega)]
          exact hlt
        · rw [hforwarded, heq]
      · exact absurd rfl hne
  · -- what is forwarded starts with 1, what is wanted with `q`
    have hwanted : q ∈ ns ↔ dist q m ≠ 0 := by
      constructor
      · intro hmem hzero
        have hqm : q = m := dist_inj (by rw [dist_self, hzero])
        exact hmiss (hqm ▸ hmem)
      · intro hpos
        refine hall q ?_
        rw [dist_self]
        omega
    constructor
    · intro hforwarded
      right
      rcases forwarded_first ns with ⟨hone, hnil⟩ | ⟨-, l, hl⟩
      · refine ⟨hq, ?_, hone⟩
        rw [hwanted, not_not]
        rw [hnil] at hforwarded
        simpa using (congrArg List.length hforwarded).symm
      · rw [hl] at hforwarded
        cases hdist : dist q m with
        | zero =>
          rw [hdist] at hforwarded
          cases hforwarded
        | succ d =>
          rw [hdist, span_succ] at hforwarded
          exact absurd (List.cons.inj hforwarded).1.symm hq
    · rintro (⟨heq, -⟩ | ⟨-, hqns, hone⟩)
      · exact absurd heq hq
      · rcases forwarded_first ns with ⟨-, hnil⟩ | ⟨hmem, -⟩
        · have hzero : dist q m = 0 := by
            by_contra hpos
            exact hqns (hwanted.mpr hpos)
          rw [hnil, hzero]
          rfl
        · exact absurd hmem hone

/-- A control block without peers. -/
def noPeers : Rmscb RmsMetaMsg :=
  { selfId := 1, selfLost := 0, htPeers := ∅, mqPeers := mqueueInit (fun _ => ⟨none, none⟩) 0
    peers := fun _ => rmsMetaPeerInit [] 0, npeers := 0, ipcOut := [], nacks := [] }

/-- A heartbeat of node 2. -/
def hbeatTwo (sequence : UInt32) : RmsMsgHbeat :=
  { sequence := sequence, id := 2, lost := 0, name := none, acks := [] }

end Rms.Manager
