/-
Rms.V01.WindowTheorems — which messages a sender without acks keeps.

`Window` is kept by every branch of the daemon: a datagram does not touch
it, a message that is sent takes the next number, and a purge up to a
bound that lies in the window moves its lower end (`Window.purge`). What
is stored under a number is the datagram that went out under it
(`Stored`), because a stored buffer is in use and nothing writes into a
buffer in use. Without acks only heartbeats purge, so the lower end is
the mark of the heartbeat before the last two (`window_exact`).
-/
import Rms.V01.Window

namespace Rms.V01

open Rms.ByteMem Rms.Util Rms.Runs

/-! ## A pass is a run of branches -/

theorem afterMcast_eq_run (h : Host) (i : Iteration) (cb : RmcCtrlBlock) :
    afterMcast h i cb = run (branch h) cb (lowerBranches i) := by
  obtain ⟨m, x, b⟩ := i
  have hack : ∀ cb : RmcCtrlBlock, run (branch h) cb [.ack] = ackBranch cb := by
    intro cb
    show (ackBranch cb).bind some = ackBranch cb
    cases ackBranch cb <;> rfl
  have hlow : ∀ cb : RmcCtrlBlock,
      run (branch h) cb ((if b then [.hbeat] else []) ++ [.ack])
        = (if b then hbeatBranch h cb else some cb).bind ackBranch := by
    intro cb
    cases b with
    | false => exact hack cb
    | true =>
      show (hbeatBranch h cb).bind (fun cb => run (branch h) cb [.ack]) = _
      simp only [hack]
      rfl
  rw [afterMcast_eq]
  cases x with
  | none => exact (hlow cb).symm
  | some x => exact (hlow (ipcBranch h x cb)).symm

/-- Every pass through the daemon's loop is a run of its branches. -/
theorem iteration_eq_run (h : Host) (i : Iteration) (cb : RmcCtrlBlock) :
    ∃ bs, iteration h cb i = run (branch h) cb bs := by
  cases hm : i.mcast with
  | none =>
    refine ⟨lowerBranches i, ?_⟩
    rw [iteration, hm]
    exact afterMcast_eq_run h i cb
  | some x =>
    obtain ⟨sender, r⟩ := x
    cases hb : mcastBranch h sender r cb with
    | none =>
      refine ⟨[.mcast sender r], ?_⟩
      simp only [iteration, hm, hb, run, branch, Option.map_none, Option.bind_none]
    | some y =>
      obtain ⟨cb₁, flag⟩ := y
      cases flag with
      | true =>
        refine ⟨[.mcast sender r], ?_⟩
        simp only [iteration, hm, hb, run, branch, Option.map_some, Option.bind_some]
      | false =>
        refine ⟨.mcast sender r :: lowerBranches i, ?_⟩
        simp only [iteration, hm, hb, run, branch, Option.map_some, Option.bind_some]
        exact afterMcast_eq_run h i cb₁

/-! ## Purging -/

theorem purgeRound_oldestSeq (cb : RmcCtrlBlock) :
    (purgeRound cb).oldestSeq = cb.oldestSeq + 1 := by
  unfold purgeRound
  split <;> rfl

theorem htblGet_purgeRound (cb : RmcCtrlBlock) (k : UInt32) :
    htblGet (purgeRound cb).outmsgbuf k
      = if k = cb.oldestSeq then none else htblGet cb.outmsgbuf k := by
  unfold purgeRound
  split
  · rename_i p t hrem
    obtain ⟨-, rfl⟩ := htblRemove_eq_some.mp hrem
    exact htblGet_erase _ _ _
  · rename_i hrem
    split
    · rename_i hk
      rw [hk]
      exact htblRemove_eq_none.mp hrem
    · rfl

/-- `n` rounds of the purge loop drop `n` numbers. -/
theorem purgeRounds_spec (n : Nat) :
    ∀ cb : RmcCtrlBlock, cb.oldestSeq.toNat + n < 4294967296 →
      (purgeRounds n cb).oldestSeq.toNat = cb.oldestSeq.toNat + n
      ∧ ∀ k, htblGet (purgeRounds n cb).outmsgbuf k
          = if cb.oldestSeq.toNat ≤ k.toNat ∧ k.toNat < cb.oldestSeq.toNat + n then none
            else htblGet cb.outmsgbuf k := by
  induction n with
  | zero =>
    intro cb _
    refine ⟨rfl, fun k => ?_⟩
    rw [if_neg (by omega)]
    rfl
  | succ n ih =>
    intro cb hn
    have hone : (purgeRound cb).oldestSeq.toNat = cb.oldestSeq.toNat + 1 := by
      rw [purgeRound_oldestSeq, UInt32.toNat_add]
      exact Nat.mod_eq_of_lt (by simp only [UInt32.reduceToNat]; omega)
    obtain ⟨hold, hget⟩ := ih (purgeRound cb) (by omega)
    refine ⟨by rw [purgeRounds, hold, hone]; omega, fun k => ?_⟩
    rw [purgeRounds, hget, htblGet_purgeRound, hone]
    by_cases hk : k = cb.oldestSeq
    · subst hk
      rw [if_pos rfl, ite_self, if_pos (by omega)]
    · have hne : k.toNat ≠ cb.oldestSeq.toNat := fun h => hk (UInt32.toNat_inj.mp h)
      rw [if_neg hk]
      exact if_congr (by omega) rfl rfl

theorem purge_of_le {bound : UInt32} {cb : RmcCtrlBlock} (h : bound ≤ cb.oldestSeq) :
    purge bound cb = cb := by
  have hle : bound.toNat ≤ cb.oldestSeq.toNat := UInt32.le_iff_toNat_le.mp h
  rw [purge, Nat.sub_eq_zero_of_le hle]
  rfl

theorem purge_oldestSeq {bound : UInt32} {cb : RmcCtrlBlock} (h : cb.oldestSeq ≤ bound) :
    (purge bound cb).oldestSeq = bound := by
  have hle : cb.oldestSeq.toNat ≤ bound.toNat := UInt32.le_iff_toNat_le.mp h
  have hlt := bound.toNat_lt
  have hold := (purgeRounds_spec (bound.toNat - cb.oldestSeq.toNat) cb (by omega)).1
  refine UInt32.toNat_inj.mp ?_
  rw [purge, hold]
  omega

/-- A purge drops exactly the numbers from `oldest_seq` up to its bound. -/
theorem htblGet_purge (bound : UInt32) (cb : RmcCtrlBlock) (k : UInt32) :
    htblGet (purge bound cb).outmsgbuf k
      = if cb.oldestSeq ≤ k ∧ k < bound then none else htblGet cb.outmsgbuf k := by
  have hlt := bound.toNat_lt
  have hold := cb.oldestSeq.toNat_lt
  rw [purge, (purgeRounds_spec (bound.toNat - cb.oldestSeq.toNat) cb (by omega)).2]
  simp only [UInt32.le_iff_toNat_le, UInt32.lt_iff_toNat_lt]
  exact if_congr (by omega) rfl rfl

/-! ## The branches and the window -/

/-- The window depends on nothing but the table, the marks and the number. -/
theorem Window.congr {cb cb' : RmcCtrlBlock} (h : Window cb) (hs : SameSender cb cb') :
    Window cb' where
  keys := by
    rw [hs.outmsgbuf, hs.oldestSeq, hs.sequence]
    exact h.keys
  oldest := by
    rw [hs.oldestSeq, hs.sequence]
    exact h.oldest
  p1 := by
    rw [hs.hbSeqP1, hs.sequence]
    exact h.p1
  p2 := by
    rw [hs.hbSeqP1, hs.hbSeqP2]
    exact h.p2
  p3 := by
    rw [hs.hbSeqP2, hs.hbSeqP3]
    exact h.p3

theorem Window.p2_le_sequence {cb : RmcCtrlBlock} (h : Window cb) :
    cb.hbSeqP2 ≤ cb.self.sequence :=
  UInt32.le_trans h.p2 h.p1

/-- A purge up to a number that was used moves the lower end. -/
theorem Window.purge {cb : RmcCtrlBlock} (h : Window cb) {bound : UInt32}
    (hb : bound ≤ cb.oldestSeq ∨ bound ≤ cb.self.sequence) : Window (purge bound cb) := by
  by_cases hle : bound ≤ cb.oldestSeq
  · rw [purge_of_le hle]
    exact h
  · have hlt : cb.oldestSeq ≤ bound := UInt32.le_of_lt (UInt32.not_le.mp hle)
    have hseq : bound ≤ cb.self.sequence := hb.resolve_left hle
    have hold := purge_oldestSeq hlt
    have hget := htblGet_purge bound cb
    obtain ⟨o, q, s, hframe⟩ := purge_frame bound cb
    rw [hframe] at hold hget ⊢
    simp only at hold hget
    subst hold
    exact
      { keys := fun k => by
          have hk := h.keys k
          simp only [UInt32.le_iff_toNat_le, UInt32.lt_iff_toNat_lt] at hk hlt hseq hget ⊢
          rw [hget k]
          split
          · simp only [Option.isSome_none, Bool.false_eq_true, false_iff]
            omega
          · rw [hk]
            omega
        oldest := hseq
        p1 := h.p1
        p2 := h.p2
        p3 := h.p3 }

/-- The keys after the next number is stored. -/
theorem KeysAre.put {t : Htbl Nat} {lo hi : UInt32} (h : KeysAre t lo hi) (hle : lo ≤ hi)
    (hmax : hi.toNat + 1 < 4294967296) (q : Nat) : KeysAre (htblPut t hi q) lo (hi + 1) := by
  intro k
  have hhi : (hi + 1).toNat = hi.toNat + 1 := by
    rw [UInt32.toNat_add]
    exact Nat.mod_eq_of_lt hmax
  have hnone : htblGet t hi = none := by
    have hself := h hi
    simp only [UInt32.lt_irrefl, and_false, iff_false, Option.not_isSome_iff_eq_none] at hself
    exact hself
  have hk := h k
  simp only [UInt32.le_iff_toNat_le, UInt32.lt_iff_toNat_lt] at hk hle ⊢
  rw [htblPut_of_none q hnone, htblGet_insert, hhi]
  split
  · rename_i heq
    subst heq
    simp only [Option.isSome_some, true_iff]
    omega
  · rename_i hne
    have hne' : k.toNat ≠ hi.toNat := fun heq => hne (UInt32.toNat_inj.mp heq)
    rw [hk]
    omega

/-! ### Messages from the client -/

/-- Reading the client's message writes into a buffer that was free. -/
theorem ipcRecv_msgs (h : Host) (i : IpcInput) {cb : RmcCtrlBlock} {q : Nat} (hq : InUse cb q) :
    q ≠ (ipcRecv h i cb).2 ∧ (ipcRecv h i cb).1.msgs q = cb.msgs q := by
  have hq₀ : InUse { cb with ipcRead := ipcLenMem i cb } q := hq
  have hne := allocMsg_ne hq₀
  have halloc : (allocMsg { cb with ipcRead := ipcLenMem i cb }).1.msgs q = cb.msgs q :=
    allocMsg_msgs hq₀
  have hgrow : (growMsg (ipcLen h i cb) (allocMsg { cb with ipcRead := ipcLenMem i cb }).2
      (allocMsg { cb with ipcRead := ipcLenMem i cb }).1).msgs q = cb.msgs q := by
    rw [← halloc]
    unfold growMsg
    split
    · exact Function.update_of_ne hne _ _
    · rfl
  exact ⟨hne, (Function.update_of_ne hne _ _).trans hgrow⟩

theorem ipcSend_msgs (h : Host) {sendto n : Int} {cb : RmcCtrlBlock} {p q : Nat} (hne : q ≠ p) :
    (ipcSend h sendto n p cb).msgs q = cb.msgs q := by
  unfold ipcSend
  dsimp only
  split <;> exact Function.update_of_ne hne _ _

theorem toInt32_lt (w : UInt32) : toInt32 w < 2147483648 := by
  have hw := w.toNat_lt
  unfold toInt32
  split <;> omega

/-- What the IPC branch does: it sends nothing, or a message with a length
that the second `recv` can return. -/
theorem ipcBranch_cases (h : Host) (i : IpcInput) (cb : RmcCtrlBlock) :
    (SameSender { cb with ipcRead := ipcLenMem i cb } (ipcBranch h i cb)
        ∧ ∀ q, InUse cb q → (ipcBranch h i cb).msgs q = cb.msgs q)
    ∨ (-1 ≤ ipcLen h i cb ∧ ipcLen h i cb < 2147483648 ∧ ipcBranch h i cb
        = ipcSend h i.sendto (ipcLen h i cb) (ipcRecv h i cb).2 (ipcRecv h i cb).1) := by
  have hrecv := sameSender_ipcRecv h i cb
  unfold ipcBranch
  split
  · simp only
    split
    · rename_i hbody
      exact .inr ⟨hbody ▸ RecvResult.neg_one_le_ret _, toInt32_lt _, rfl⟩
    · exact .inl ⟨hrecv, fun q hq => (ipcRecv_msgs h i hq).2⟩
  · exact .inl ⟨SameSender.refl _, fun _ _ => rfl⟩

/-- A message that is sent takes the next number. -/
theorem Window.ipcSend {cb : RmcCtrlBlock} (w : Window cb)
    (hmax : cb.self.sequence.toNat + 1 < 4294967296) (h : Host) (sendto ipcRead : Int) (p : Nat) :
    Window (ipcSend h sendto ipcRead p cb) := by
  unfold V01.ipcSend
  simp only
  split
  · have hnext : cb.self.sequence ≤ cb.self.sequence + 1 := by
      rw [UInt32.le_iff_toNat_le, UInt32.toNat_add]
      exact (Nat.le_succ _).trans (Nat.mod_eq_of_lt hmax).ge
    exact
      { keys := w.keys.put w.oldest hmax p
        oldest := UInt32.le_trans w.oldest hnext
        p1 := UInt32.le_trans w.p1 hnext
        p2 := w.p2
        p3 := w.p3 }
  · exact ⟨w.keys, w.oldest, w.p1, w.p2, w.p3⟩

theorem Window.ipcRead {cb : RmcCtrlBlock} (w : Window cb) (m : Mem) :
    Window { cb with ipcRead := m } :=
  ⟨w.keys, w.oldest, w.p1, w.p2, w.p3⟩

theorem Window.ipcBranch {cb : RmcCtrlBlock} (w : Window cb)
    (hmax : cb.self.sequence.toNat + 1 < 4294967296) (h : Host) (i : IpcInput) :
    Window (ipcBranch h i cb) := by
  have w₀ := w.ipcRead (ipcLenMem i cb)
  rcases ipcBranch_cases h i cb with ⟨hsame, -⟩ | ⟨-, -, hsend⟩
  · exact w₀.congr hsame
  · have hrecv := sameSender_ipcRecv h i cb
    rw [hsend]
    refine (w₀.congr hrecv).ipcSend ?_ h _ _ _
    rw [hrecv.sequence]
    exact hmax

/-! ### Heartbeats and acknowledgements -/

theorem hbeatAckPart_peeks {cb : RmcCtrlBlock}
    {r : RmcCtrlBlock × Option (List (UInt32 × UInt32))} (h : hbeatAckPart cb = some r) :
    ∃ n q cs, mqueuePeeks n 0 cb.membersq = some (q, cs) ∧ r.1 = { cb with membersq := q } := by
  unfold hbeatAckPart at h
  split at h
  · obtain ⟨r', hlist, rfl⟩ := Option.map_eq_some_iff.mp h
    unfold hbeatAckList at hlist
    split at hlist
    · simp at hlist
    rename_i q cs hpeeks
    split at hlist
    · simp at hlist
    obtain rfl := (Option.some.inj hlist).symm
    exact ⟨_, q, cs, hpeeks, rfl⟩
  · obtain rfl := Option.some.inj h
    exact ⟨0, cb.membersq, [], rfl, rfl⟩

/-- A heartbeat moves the marks on and purges up to the oldest of them;
apart from that it moves the cursor of `membersq` and uses a free buffer. -/
theorem hbeatBranch_spec {h : Host} {cb cb' : RmcCtrlBlock} (hs : hbeatBranch h cb = some cb') :
    ∃ (n : Nat) (q : Mqueue Nat) (cs : List (Option Nat)) (buf : List Nat) (nmsgs : Nat)
      (f : Nat → RmcMsg) (sent : List Sendto),
      mqueuePeeks n 0 cb.membersq = some (q, cs)
      ∧ (∀ x, InUse cb x → f x = cb.msgs x)
      ∧ cb' = V01.purge cb.hbSeqP2
          { cb with membersq := q, bufmsgq := buf, nmsgs := nmsgs, msgs := f, sent := sent
                    hbSeqP1 := cb.self.sequence, hbSeqP2 := cb.hbSeqP1
                    hbSeqP3 := cb.hbSeqP2 } := by
  simp only [hbeatBranch, sendHbeat] at hs
  obtain ⟨⟨cb₁, acks⟩, hacks, rfl⟩ := Option.map_eq_some_iff.mp hs
  obtain ⟨n, q, cs, hpeeks, hcb₁⟩ := hbeatAckPart_peeks hacks
  have hmsgs : ∀ x, InUse cb x → (allocMsg cb).1.msgs x = cb.msgs x := fun x hx => allocMsg_msgs hx
  have hne : ∀ x, InUse cb x → x ≠ (allocMsg cb).2 := fun x hx => allocMsg_ne hx
  obtain ⟨b, k, f, halloc⟩ := allocMsg_eq cb
  rw [halloc] at hpeeks hcb₁ hmsgs
  simp only at hpeeks hcb₁
  subst hcb₁
  refine ⟨n, q, cs, _, k, _, _, hpeeks, fun x hx => ?_, rfl⟩
  exact (Function.update_of_ne (hne x hx) _ _).trans (hmsgs x hx)

theorem Window.hbeatBranch {h : Host} {cb cb' : RmcCtrlBlock} (w : Window cb)
    (hs : hbeatBranch h cb = some cb') : Window cb' := by
  obtain ⟨n, q, cs, buf, nmsgs, f, sent, -, -, rfl⟩ := hbeatBranch_spec hs
  have w₁ : Window { cb with membersq := q, bufmsgq := buf, nmsgs := nmsgs, msgs := f, sent := sent
                             hbSeqP1 := cb.self.sequence, hbSeqP2 := cb.hbSeqP1
                             hbSeqP3 := cb.hbSeqP2 } :=
    ⟨w.keys, w.oldest, UInt32.le_refl _, w.p1, w.p2⟩
  exact w₁.purge (.inr w.p2_le_sequence)

theorem ackBranch_off {cb : RmcCtrlBlock} (h : cb.hbAck = false) : ackBranch cb = some cb := by
  rw [ackBranch, h]
  rfl

/-! ## What is stored -/

/-- Only what the group was sent counts. -/
theorem datagrams_congr {sent sent' : List Sendto}
    (h : sent'.filter toGroup = sent.filter toGroup) : datagrams sent' = datagrams sent := by
  have hsplit : ∀ l : List Sendto,
      l.filter isSent = (l.filter toGroup).filter fun x => !x.failed && isData x := by
    intro l
    rw [List.filter_filter]
    exact List.filter_congr fun x _ => Bool.and_comm _ _
  rw [datagrams, datagrams, hsplit, hsplit, h]

theorem datagrams_append (sent : List Sendto) (x : Sendto) :
    datagrams (sent ++ [x]) = datagrams sent ++ if isSent x then [x.bytes] else [] := by
  rw [datagrams, List.filter_append, List.map_append, ← datagrams]
  cases hx : isSent x <;> simp [hx]

theorem datagrams_append_of_not {x : Sendto} (h : isSent x = false) (sent : List Sendto) :
    datagrams (sent ++ [x]) = datagrams sent := by
  rw [datagrams_append, h]
  exact List.append_nil _

theorem Stored.inUse {cb : RmcCtrlBlock} (s : Stored cb) {k : UInt32} {q : Nat}
    (hk : htblGet cb.outmsgbuf k = some q) : InUse cb q := by
  obtain ⟨hand, hown⟩ := s.owned
  exact hown.inUse (.inr (.inl (mem_htblValues.mpr ⟨k, hk⟩)))

/-- A step that sends no message and stores none: what is still stored has
kept its bytes. -/
theorem Stored.keep {cb cb' : RmcCtrlBlock} (s : Stored cb) (howned : ∃ hand, Owned cb' hand)
    (hseq : cb'.self.sequence = cb.self.sequence) (hsent : datagrams cb'.sent = datagrams cb.sent)
    (hget : ∀ k q, htblGet cb'.outmsgbuf k = some q →
      htblGet cb.outmsgbuf k = some q ∧ cb'.msgs q = cb.msgs q) : Stored cb' where
  owned := howned
  count := by
    rw [hsent, hseq]
    exact s.count
  numbers := by
    rw [hsent]
    exact s.numbers
  stored := by
    intro k q hk
    obtain ⟨hk', hmsgs⟩ := hget k q hk
    rw [hsent, hmsgs]
    exact s.stored k q hk'

theorem Stored.mcastBranch {h : Host} {sender : SockaddrIn} {r : RecvResult}
    {cb cb' : RmcCtrlBlock} {flag : Bool} (s : Stored cb)
    (hb : mcastBranch h sender r cb = some (cb', flag)) : Stored cb' := by
  have hsame := sameSender_mcastBranch h sender r hb
  obtain ⟨hand, hown⟩ := s.owned
  obtain ⟨leak, hleak, -⟩ := owned_mcastBranch h sender r hown hb
  refine s.keep ⟨_, hleak⟩ hsame.sequence (datagrams_congr hsame.group) ?_
  intro k q hk
  rw [hsame.outmsgbuf] at hk
  exact ⟨hk, mcastBranch_msgs h sender r (s.inUse hk) hb⟩

/-- The header of a message that is sent. -/
theorem dataFill_header (h : Host) (self : RmcMember) (n : Int) (m : RmcMsg) :
    (dataFill h self n m).buf 1 = MsgType.data.toByte
      ∧ be32At (dataFill h self n m).buf 4 = self.sequence := by
  have hbegins := begins_dataFill h self n m 0
  exact ⟨hbegins.type, be32At_of_readBytes hbegins.sequence⟩

theorem wireSequence_readBytes (m : Mem) {n : Nat} (hn : 8 ≤ n) :
    wireSequence (readBytes m 0 n) = be32At m 4 := by
  refine be32At_congr fun i _ hi => ?_
  rw [List.getD_eq_getElem?_getD, readBytes_getElem? m 0 n i (by omega), Nat.zero_add]
  rfl

/-- A buffer in hand is not stored. -/
theorem Owned.ne_of_stored {cb : RmcCtrlBlock} {p q : Nat} {hand : List Nat} {k : UInt32}
    (h : Owned cb (p :: hand)) (hk : htblGet cb.outmsgbuf k = some q) : q ≠ p := by
  rintro rfl
  have hcount := h.count q
  have hone : (List.range cb.nmsgs).count q ≤ 1 :=
    List.nodup_iff_count_le_one.mp List.nodup_range q
  have hstored : 0 < (htblValues cb.outmsgbuf).count q :=
    List.count_pos_iff.mpr (mem_htblValues.mpr ⟨k, hk⟩)
  simp only [places, List.count_append, List.count_cons_self] at hcount
  omega

/-- A step that sends one more message and stores it. -/
theorem Stored.put {cb cb' : RmcCtrlBlock} {p : Nat} (s : Stored cb) (w : Window cb)
    (howned : ∃ hand, Owned cb' hand) (hmax : cb.self.sequence.toNat + 1 < 4294967296)
    (hseq : cb'.self.sequence = cb.self.sequence + 1)
    (hout : cb'.outmsgbuf = htblPut cb.outmsgbuf cb.self.sequence p)
    (hsent : datagrams cb'.sent = datagrams cb.sent ++ [keptBytes (cb'.msgs p)])
    (hnumber : wireSequence (keptBytes (cb'.msgs p)) = cb.self.sequence)
    (hmsgs : ∀ k q, htblGet cb.outmsgbuf k = some q → cb'.msgs q = cb.msgs q) : Stored cb' where
  owned := howned
  count := by
    rw [hsent, List.length_append, s.count, hseq, UInt32.toNat_add]
    exact (Nat.mod_eq_of_lt hmax).symm
  numbers := by
    intro n x hx
    rw [hsent] at hx
    rcases Nat.lt_or_ge n (datagrams cb.sent).length with hn | hn
    · rw [List.getElem?_append_left hn] at hx
      exact s.numbers n x hx
    · rw [List.getElem?_append_right hn] at hx
      have hlast : n = (datagrams cb.sent).length := by
        have hlt := (List.getElem?_eq_some_iff.mp hx).1
        simp only [List.length_singleton] at hlt
        omega
      rw [hlast, Nat.sub_self, List.getElem?_cons_zero, Option.some.injEq] at hx
      rw [← hx, hnumber, hlast, s.count, UInt32.ofNat_toNat]
  stored := by
    intro k q hk
    have hnone : htblGet cb.outmsgbuf cb.self.sequence = none := by
      have hself := w.keys cb.self.sequence
      simpa only [UInt32.lt_irrefl, and_false, iff_false, Option.not_isSome_iff_eq_none] using hself
    rw [hout, htblPut_of_none p hnone, htblGet_insert] at hk
    rw [hsent]
    split at hk
    · rename_i heq
      obtain rfl := Option.some.inj hk
      rw [heq, ← s.count, List.getElem?_concat_length]
    · have hold := s.stored k q hk
      rw [hmsgs k q hk, List.getElem?_append_left (List.getElem?_eq_some_iff.mp hold).1]
      exact hold

/-- A message that is sent is stored under its number. -/
theorem Stored.ipcSend {cb : RmcCtrlBlock} {p : Nat} {hand : List Nat} (s : Stored cb)
    (w : Window cb) (hown : Owned cb (p :: hand))
    (hmax : cb.self.sequence.toNat + 1 < 4294967296) (h : Host) (sendto : Int) {n : Int}
    (hn : -1 ≤ n) (hlt : n < 2147483648) : Stored (ipcSend h sendto n p cb) := by
  obtain ⟨leak, hleak, -⟩ := owned_ipcSend h sendto n hown
  have hsize : 8 ≤ sizeT (n + sizeofHdr) := by
    simp only [sizeT, sizeofHdr]
    omega
  obtain ⟨htype, hnumber⟩ := dataFill_header h cb.self n (cb.msgs p)
  have hold : ∀ k q, htblGet cb.outmsgbuf k = some q →
      (cb.setMsg p (dataFill h cb.self n (cb.msgs p))).msgs q = cb.msgs q := fun k q hk =>
    Function.update_of_ne (hown.ne_of_stored hk) _ _
  by_cases hsend : 0 < sendto
  · have hx : isSent ⟨.mcast, readBytes
        ((cb.setMsg p (dataFill h cb.self n (cb.msgs p))).msgs p).buf 0 (sizeT (n + sizeofHdr)),
        decide (sendto ≤ 0)⟩ = true := by
      have hdata : (readBytes (dataFill h cb.self n (cb.msgs p)).buf 0 (sizeT (n + sizeofHdr)))[1]?
          = some MsgType.data.toByte := by
        rw [readBytes_getElem? _ _ _ _ (by omega), Nat.zero_add, htype]
      simp [isSent, isData, toGroup, hdata, hsend]
    have hdatagrams := datagrams_append cb.sent ⟨.mcast, readBytes
      ((cb.setMsg p (dataFill h cb.self n (cb.msgs p))).msgs p).buf 0 (sizeT (n + sizeofHdr)),
      decide (sendto ≤ 0)⟩
    rw [hx, if_pos rfl] at hdatagrams
    simp only [RmcCtrlBlock.setMsg_self] at hdatagrams
    rw [V01.ipcSend, if_pos hsend] at hleak ⊢
    refine s.put w ⟨_, hleak⟩ hmax rfl rfl ?_ ?_ hold
    · simp only [RmcCtrlBlock.sendto, RmcCtrlBlock.setMsg_self]
      exact hdatagrams
    · simp only [RmcCtrlBlock.sendto, RmcCtrlBlock.setMsg_self]
      exact (wireSequence_readBytes _ hsize).trans hnumber
  · have hx : isSent ⟨.mcast, readBytes
        ((cb.setMsg p (dataFill h cb.self n (cb.msgs p))).msgs p).buf 0 (sizeT (n + sizeofHdr)),
        decide (sendto ≤ 0)⟩ = false := by
      simp [isSent, Int.not_lt.mp hsend]
    rw [V01.ipcSend, if_neg hsend] at hleak ⊢
    exact s.keep ⟨_, hleak⟩ rfl (datagrams_append_of_not hx _) fun k q hk => ⟨hk, hold k q hk⟩

theorem Stored.ipcBranch {cb : RmcCtrlBlock} (s : Stored cb) (w : Window cb)
    (hmax : cb.self.sequence.toNat + 1 < 4294967296) (h : Host) (i : IpcInput) :
    Stored (ipcBranch h i cb) := by
  obtain ⟨hand, hown⟩ := s.owned
  obtain ⟨leak, hleak, -⟩ := owned_ipcBranch h i hown
  rcases ipcBranch_cases h i cb with ⟨hsame, hmsgs⟩ | ⟨hn, hlt, hsend⟩
  · refine s.keep ⟨_, hleak⟩ hsame.sequence (datagrams_congr hsame.group) ?_
    intro k q hk
    rw [hsame.outmsgbuf] at hk
    exact ⟨hk, hmsgs q (s.inUse hk)⟩
  · have hrecv := sameSender_ipcRecv h i cb
    have hown₁ := owned_ipcRecv h i hown
    have w₁ := (w.ipcRead (ipcLenMem i cb)).congr hrecv
    have s₁ : Stored (ipcRecv h i cb).1 := by
      refine s.keep ⟨_, hown₁⟩ hrecv.sequence (datagrams_congr hrecv.group) ?_
      intro k q hk
      rw [hrecv.outmsgbuf] at hk
      exact ⟨hk, (ipcRecv_msgs h i (s.inUse hk)).2⟩
    rw [hsend]
    refine s₁.ipcSend w₁ hown₁ ?_ h _ hn hlt
    rw [hrecv.sequence]
    exact hmax

theorem Stored.hbeatBranch {h : Host} {cb cb' : RmcCtrlBlock} (s : Stored cb)
    (hs : hbeatBranch h cb = some cb') : Stored cb' := by
  obtain ⟨hand, hown⟩ := s.owned
  have hown' := owned_sendHbeat h (some cb.hostname) none 0 hown hs
  obtain ⟨v, acks, -, -, hsent, hself⟩ := sendHbeat_sent h (some cb.hostname) 0 hs
  obtain ⟨n, c, cs, buf, nmsgs, f, sent, -, hmsgs, hcb'⟩ := hbeatBranch_spec hs
  have hx : isSent ⟨.mcast, (hbeatDgram v cb.self (some cb.hostname) acks 0).bytes, false⟩
      = false := rfl
  refine s.keep ⟨_, hown'⟩ (by rw [hself]) ?_ ?_
  · rw [hsent]
    exact datagrams_append_of_not hx cb.sent
  · intro k q hk
    have hget := htblGet_purge cb.hbSeqP2
      { cb with membersq := c, bufmsgq := buf, nmsgs := nmsgs, msgs := f, sent := sent
                hbSeqP1 := cb.self.sequence, hbSeqP2 := cb.hbSeqP1, hbSeqP3 := cb.hbSeqP2 } k
    rw [← hcb', hk] at hget
    split at hget
    · simp at hget
    · obtain ⟨o, b, t, hframe⟩ := purge_frame cb.hbSeqP2
        { cb with membersq := c, bufmsgq := buf, nmsgs := nmsgs, msgs := f, sent := sent
                  hbSeqP1 := cb.self.sequence, hbSeqP2 := cb.hbSeqP1, hbSeqP3 := cb.hbSeqP2 }
      rw [hcb', hframe]
      exact ⟨hget.symm, hmsgs q (s.inUse hget.symm)⟩

/-! ## Runs -/

theorem ipcSend_frame (h : Host) (sendto n : Int) (p : Nat) (cb : RmcCtrlBlock) :
    (ipcSend h sendto n p cb).oldestSeq = cb.oldestSeq
      ∧ (ipcSend h sendto n p cb).hbSeqP1 = cb.hbSeqP1
      ∧ (ipcSend h sendto n p cb).hbSeqP2 = cb.hbSeqP2
      ∧ (ipcSend h sendto n p cb).hbSeqP3 = cb.hbSeqP3
      ∧ (ipcSend h sendto n p cb).hbAck = cb.hbAck
      ∧ (ipcSend h sendto n p cb).self.sequence.toNat ≤ cb.self.sequence.toNat + 1 := by
  unfold ipcSend
  simp only
  split
  · refine ⟨rfl, rfl, rfl, rfl, rfl, ?_⟩
    simp only [RmcCtrlBlock.sendto, RmcCtrlBlock.setMsg, UInt32.toNat_add]
    exact Nat.mod_le _ _
  · exact ⟨rfl, rfl, rfl, rfl, rfl, Nat.le_succ _⟩

/-- What the IPC branch leaves alone, and what it can do to the number. -/
theorem ipcBranch_frame (h : Host) (i : IpcInput) (cb : RmcCtrlBlock) :
    (ipcBranch h i cb).oldestSeq = cb.oldestSeq ∧ (ipcBranch h i cb).hbSeqP1 = cb.hbSeqP1
      ∧ (ipcBranch h i cb).hbSeqP2 = cb.hbSeqP2 ∧ (ipcBranch h i cb).hbSeqP3 = cb.hbSeqP3
      ∧ (ipcBranch h i cb).hbAck = cb.hbAck
      ∧ (ipcBranch h i cb).self.sequence.toNat ≤ cb.self.sequence.toNat + 1 := by
  rcases ipcBranch_cases h i cb with ⟨hsame, -⟩ | ⟨-, -, hsend⟩
  · exact ⟨hsame.oldestSeq, hsame.hbSeqP1, hsame.hbSeqP2, hsame.hbSeqP3, hsame.hbAck,
      hsame.sequence ▸ Nat.le_succ _⟩
  · have hrecv := sameSender_ipcRecv h i cb
    obtain ⟨hold, hp1, hp2, hp3, hack, hseq⟩ := ipcSend_frame h i.sendto (ipcLen h i cb)
      (ipcRecv h i cb).2 (ipcRecv h i cb).1
    rw [hsend]
    exact ⟨hold.trans hrecv.oldestSeq, hp1.trans hrecv.hbSeqP1, hp2.trans hrecv.hbSeqP2,
      hp3.trans hrecv.hbSeqP3, hack.trans hrecv.hbAck, hrecv.sequence ▸ hseq⟩

theorem Unacked.hbeat {h : Host} {s : Sender} {cb' : RmcCtrlBlock} (u : Unacked s)
    (hs : hbeatBranch h s.cb = some cb') :
    Unacked { s with cb := cb', marks := s.cb.self.sequence :: s.marks } := by
  have hwindow := u.window.hbeatBranch hs
  have hstored := u.stored.hbeatBranch hs
  obtain ⟨n, q, cs, buf, nmsgs, f, sent, -, -, hcb'⟩ := hbeatBranch_spec hs
  have hle : s.cb.oldestSeq ≤ s.cb.hbSeqP2 := u.oldest ▸ u.window.p3
  have hold : cb'.oldestSeq = s.cb.hbSeqP2 := by
    rw [hcb']
    exact purge_oldestSeq hle
  obtain ⟨o, b, t, hframe⟩ := purge_frame s.cb.hbSeqP2
    { s.cb with membersq := q, bufmsgq := buf, nmsgs := nmsgs, msgs := f, sent := sent
                hbSeqP1 := s.cb.self.sequence, hbSeqP2 := s.cb.hbSeqP1
                hbSeqP3 := s.cb.hbSeqP2 }
  rw [hframe] at hcb'
  subst hcb'
  exact
    { window := hwindow
      stored := hstored
      hbAck := u.hbAck
      oldest := hold
      p1 := rfl
      p2 := u.p1
      p3 := u.p2
      sends := u.sends }

theorem unacked_step (h : Host) (s : Sender) (b : Branch) (s' : Sender)
    (hI : s.sends < 4294967296 → Unacked s) (hs : Sender.step h s b = some s') :
    s'.sends < 4294967296 → Unacked s' := by
  obtain ⟨cb', hb, rfl⟩ := Option.map_eq_some_iff.mp hs
  cases b with
  | mcast sender r =>
    intro hsends
    have u := hI hsends
    obtain ⟨⟨cb₁, flag⟩, hm, rfl⟩ := Option.map_eq_some_iff.mp hb
    have hsame := sameSender_mcastBranch h sender r hm
    exact
      { window := u.window.congr hsame
        stored := u.stored.mcastBranch hm
        hbAck := hsame.hbAck.trans u.hbAck
        oldest := (hsame.oldestSeq.trans u.oldest).trans hsame.hbSeqP3.symm
        p1 := hsame.hbSeqP1.trans u.p1
        p2 := hsame.hbSeqP2.trans u.p2
        p3 := hsame.hbSeqP3.trans u.p3
        sends := hsame.sequence ▸ u.sends }
  | ipc i =>
    intro hsends
    simp only at hsends
    have u := hI (Nat.lt_of_succ_lt hsends)
    have hmax : s.cb.self.sequence.toNat + 1 < 4294967296 :=
      Nat.lt_of_le_of_lt (Nat.succ_le_succ u.sends) hsends
    obtain rfl := Option.some.inj hb
    obtain ⟨hold, hp1, hp2, hp3, hack, hseq⟩ := ipcBranch_frame h i s.cb
    exact
      { window := u.window.ipcBranch hmax h i
        stored := u.stored.ipcBranch u.window hmax h i
        hbAck := hack.trans u.hbAck
        oldest := (hold.trans u.oldest).trans hp3.symm
        p1 := hp1.trans u.p1
        p2 := hp2.trans u.p2
        p3 := hp3.trans u.p3
        sends := hseq.trans (Nat.succ_le_succ u.sends) }
  | hbeat =>
    intro hsends
    exact (hI hsends).hbeat hb
  | ack =>
    intro hsends
    have u := hI hsends
    have hoff : some cb' = some s.cb := hb.symm.trans (ackBranch_off u.hbAck)
    obtain rfl := Option.some.inj hoff
    exact u

/-- What `rmcast_init` sets for the sender's half, and the member queue. -/
theorem rmcastInit_frame (g : Garbage) (a : InitArgs) :
    (rmcastInit g a).outmsgbuf = ∅ ∧ (rmcastInit g a).oldestSeq = 0
      ∧ (rmcastInit g a).hbSeqP1 = 0 ∧ (rmcastInit g a).hbSeqP2 = 0 ∧ (rmcastInit g a).hbSeqP3 = 0
      ∧ (rmcastInit g a).self.sequence = 0 ∧ (rmcastInit g a).hbAck = a.hbAck
      ∧ (rmcastInit g a).sent = [] ∧ (rmcastInit g a).membersq = mqueueInit g.items 0 := by
  unfold rmcastInit
  simp only
  obtain ⟨b, n, f, hpool⟩ := fillPool_eq (max 20 a.nbufs).toNat _
  rw [hpool]
  exact ⟨rfl, rfl, rfl, rfl, rfl, rfl, rfl, rfl, rfl⟩

theorem window_rmcastInit (g : Garbage) (a : InitArgs) : Window (rmcastInit g a) := by
  obtain ⟨hout, hold, hp1, hp2, hp3, hseq, -, -, -⟩ := rmcastInit_frame g a
  constructor
  · intro k
    rw [hout, hold, hseq]
    simp [UInt32.lt_iff_toNat_lt]
  · rw [hold, hseq]
    exact UInt32.le_refl 0
  · rw [hp1, hseq]
    exact UInt32.le_refl 0
  · rw [hp2, hp1]
    exact UInt32.le_refl 0
  · rw [hp3, hp2]
    exact UInt32.le_refl 0

theorem stored_rmcastInit (g : Garbage) (a : InitArgs) : Stored (rmcastInit g a) := by
  obtain ⟨hout, -, -, -, -, hseq, -, hsent, -⟩ := rmcastInit_frame g a
  refine ⟨⟨[], owned_rmcastInit g a⟩, ?_, ?_, ?_⟩
  · rw [hsent, hseq]
    rfl
  · intro n x hx
    rw [hsent] at hx
    simp [datagrams] at hx
  · intro k q hk
    rw [hout] at hk
    simp at hk

theorem unacked_start (g : Garbage) {a : InitArgs} (hack : a.hbAck = false) :
    Unacked (Sender.start g a) := by
  obtain ⟨-, hold, hp1, hp2, hp3, hseq, hinit, -, -⟩ := rmcastInit_frame g a
  exact
    { window := window_rmcastInit g a
      stored := stored_rmcastInit g a
      hbAck := hinit.trans hack
      oldest := hold.trans hp3.symm
      p1 := hp1
      p2 := hp2
      p3 := hp3
      sends := by
        show (rmcastInit g a).self.sequence.toNat ≤ 0
        rw [hseq]
        exact Nat.le_refl 0 }

theorem unacked_run (h : Host) (g : Garbage) {a : InitArgs} (hack : a.hbAck = false)
    {bs : List Branch} {s : Sender} (hrun : run (Sender.step h) (Sender.start g a) bs = some s)
    (hsends : s.sends < 4294967296) : Unacked s :=
  run_invariant_free (I := fun s => s.sends < 4294967296 → Unacked s) (unacked_step h)
    (fun _ => unacked_start g hack) hrun hsends

/-- Right after a heartbeat the next number is the latest mark. -/
theorem mark_zero_of_hbeat {h : Host} {g : Garbage} {a : InitArgs} {bs : List Branch} {s : Sender}
    (hrun : run (Sender.step h) (Sender.start g a) (bs ++ [.hbeat]) = some s) :
    s.mark 0 = s.cb.self.sequence := by
  obtain ⟨s₁, -, hstep⟩ := run_concat_some hrun
  obtain ⟨cb', hb, rfl⟩ := Option.map_eq_some_iff.mp hstep
  obtain ⟨v, acks, -, -, -, hself⟩ := sendHbeat_sent h (some s₁.cb.hostname) 0 hb
  exact congrArg RmcMember.sequence hself.symm

/-- **The window without acks.** In every run with fewer than 2^32 sends,
the marks are those of the last three heartbeats and lie in order, the
numbers kept are exactly those from `oldest_seq` to `self->sequence`, and
right after a heartbeat those from the heartbeat before the last two on.
What is kept under a number is the datagram that was multicast with it,
and no number was used for two datagrams. -/
theorem window_exact (h : Host) (g : Garbage) (a : InitArgs) (hack : a.hbAck = false)
    {bs : List Branch} {s : Sender} (hrun : run (Sender.step h) (Sender.start g a) bs = some s)
    (hsends : s.sends < 4294967296) :
    (s.cb.hbSeqP3 ≤ s.cb.hbSeqP2 ∧ s.cb.hbSeqP2 ≤ s.cb.hbSeqP1
        ∧ s.cb.hbSeqP1 ≤ s.cb.self.sequence)
      ∧ s.cb.oldestSeq = s.cb.hbSeqP3
      ∧ (s.cb.hbSeqP1 = s.mark 0 ∧ s.cb.hbSeqP2 = s.mark 1 ∧ s.cb.hbSeqP3 = s.mark 2)
      ∧ KeysAre s.cb.outmsgbuf s.cb.oldestSeq s.cb.self.sequence
      ∧ (∀ bs', bs = bs' ++ [.hbeat] → KeysAre s.cb.outmsgbuf (s.mark 2) (s.mark 0))
      ∧ (∀ (k : UInt32) (q : Nat), htblGet s.cb.outmsgbuf k = some q →
          (datagrams s.cb.sent)[k.toNat]? = some (keptBytes (s.cb.msgs q))
          ∧ wireSequence (keptBytes (s.cb.msgs q)) = k)
      ∧ (∀ (i j : Nat) (x y : List UInt8), (datagrams s.cb.sent)[i]? = some x →
          (datagrams s.cb.sent)[j]? = some y → wireSequence x = wireSequence y → i = j) := by
  have u := unacked_run h g hack hrun hsends
  have hnumber : ∀ {n : Nat} {x : List UInt8}, (datagrams s.cb.sent)[n]? = some x →
      wireSequence x = UInt32.ofNat n ∧ n < 4294967296 := by
    intro n x hx
    have hlt := (List.getElem?_eq_some_iff.mp hx).1
    have hseq := s.cb.self.sequence.toNat_lt
    rw [u.stored.count] at hlt
    exact ⟨u.stored.numbers n x hx, by omega⟩
  refine ⟨⟨u.window.p3, u.window.p2, u.window.p1⟩, u.oldest, ⟨u.p1, u.p2, u.p3⟩,
    u.window.keys, ?_, ?_, ?_⟩
  · intro bs' hbs
    rw [hbs] at hrun
    rw [mark_zero_of_hbeat hrun, ← u.p3, ← u.oldest]
    exact u.window.keys
  · intro k q hk
    have hstored := u.stored.stored k q hk
    exact ⟨hstored, (hnumber hstored).1.trans UInt32.ofNat_toNat⟩
  · intro i j x y hi hj hxy
    have heq : UInt32.ofNat i = UInt32.ofNat j := by
      rw [← (hnumber hi).1, ← (hnumber hj).1, hxy]
    have hnat := congrArg UInt32.toNat heq
    rwa [UInt32.toNat_ofNat', UInt32.toNat_ofNat', Nat.mod_eq_of_lt (hnumber hi).2,
      Nat.mod_eq_of_lt (hnumber hj).2] at hnat

/-- Four messages and four heartbeats in turn, and a message between them
whose `sendto` fails. -/
def fourSends : List Branch :=
  [.ipc (.whole .little [10]), .hbeat, .ipc (.whole .little [11]), .hbeat,
   .ipc { IpcInput.whole .little [12] with sendto := -1 },
   .ipc (.whole .little [13]), .hbeat, .ipc (.whole .little [14]), .hbeat]

theorem window_exact_fourSends :
    plainArgs.hbAck = false
      ∧ ∃ s, run (Sender.step littleHost) (Sender.start zeroGarbage plainArgs) fourSends = some s
        ∧ s.sends < 4294967296 ∧ KeysAre s.cb.outmsgbuf 2 4 := by
  have hrun : (run (Sender.step littleHost) (Sender.start zeroGarbage plainArgs) fourSends).map
      (fun s => (s.sends, s.mark 2, s.mark 0)) = some (5, 2, 4) := by decide +kernel
  obtain ⟨s, hs, hmarks⟩ := Option.map_eq_some_iff.mp hrun
  simp only [Prod.mk.injEq] at hmarks
  obtain ⟨hsends, hlo, hhi⟩ := hmarks
  have hlt : s.sends < 4294967296 := hsends ▸ by decide
  obtain ⟨-, -, -, -, hkeys, -⟩ := window_exact littleHost zeroGarbage plainArgs rfl hs hlt
  have hmarked := hkeys (fourSends.take 8) rfl
  rw [hlo, hhi] at hmarked
  exact ⟨rfl, s, hs, hlt, hmarked⟩

end Rms.V01
