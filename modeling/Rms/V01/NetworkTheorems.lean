/-
Rms.V01.NetworkTheorems — nothing is delivered that was not sent.

  §1 What a node puts out — every DATA datagram of a daemon, the
     retransmissions included, is a message of its own client under the
     number it was sent with (`Honest`). This holds whatever the node is
     sent, since no buffer is ever in two places: what is kept for
     retransmission is written by nobody.
  §2 What a node makes of it — the messages in a receiver's caches and on
     its client's socket are those that some node put out (`Sound`).
  §3 Runs — `delivered_agree`: two receivers never differ on what a number
     of a sender stands for.

Order, loss and repetition are not the subject here.
-/
import Rms.V01.FormatTheorems
import Rms.V01.IsolationTheorems
import Rms.V01.Network
import Rms.V01.RejoinTheorems

namespace Rms.V01

open Rms.ByteMem Rms.Util Rms.Runs

variable {cb cb' : RmcCtrlBlock} {hand : List Nat} {h : Host} {id : UInt32} {sends : List Send}

/-! ## §1 What a node puts out -/

/-- Bytes that are long enough for a header and say DATA are the datagram
of one of the messages. -/
def Genuine (id : UInt32) (sends : List Send) (bytes : List UInt8) : Prop :=
  sizeofHdr ≤ bytes.length → bytes[1]? = some MsgType.data.toByte →
    ∃ v, ∃ y ∈ sends, bytes = (y.dgram v id).bytes

theorem Genuine.mono {bytes : List UInt8} (hg : Genuine id sends bytes) (new : List Send) :
    Genuine id (sends ++ new) bytes := by
  intro hlen htype
  obtain ⟨v, y, hy, hbytes⟩ := hg hlen htype
  exact ⟨v, y, List.mem_append_left new hy, hbytes⟩

/-- A datagram of another type is no DATA datagram. -/
theorem genuine_of_type {m : Mem} {d : Datagram} (hb : Begins m d)
    (ht : d.type ≠ MsgType.data.toByte) (n : Nat) : Genuine id sends (readBytes m 0 n) := by
  intro hlen htype
  rw [readBytes_length, sizeofHdr] at hlen
  rw [readBytes_getElem? m 0 n 1 (by omega), Nat.zero_add, hb.type] at htype
  exact absurd (Option.some.inj htype) ht

/-- What was sent on the way from `cb` to `cb'` and did not fail is genuine. -/
def Puts (id : UInt32) (sends : List Send) (cb cb' : RmcCtrlBlock) : Prop :=
  ∃ xs, cb'.sent = cb.sent ++ xs ∧ ∀ x ∈ xs, x.failed = false → Genuine id sends x.bytes

theorem Silent.puts (hs : Silent cb cb') : Puts id sends cb cb' :=
  ⟨[], by rw [hs.sent, List.append_nil], fun _ hx => absurd hx List.not_mem_nil⟩

theorem Puts.trans {cb₁ : RmcCtrlBlock} (h₁ : Puts id sends cb cb₁) (h₂ : Puts id sends cb₁ cb') :
    Puts id sends cb cb' := by
  obtain ⟨xs, hxs, hgx⟩ := h₁
  obtain ⟨ys, hys, hgy⟩ := h₂
  refine ⟨xs ++ ys, by rw [hys, hxs, List.append_assoc], ?_⟩
  intro x hx
  rcases List.mem_append.mp hx with hx | hx
  · exact hgx x hx
  · exact hgy x hx

theorem puts_one {x : Sendto} (hsent : cb'.sent = cb.sent ++ [x])
    (hg : x.failed = false → Genuine id sends x.bytes) : Puts id sends cb cb' :=
  ⟨[x], hsent, by rwa [List.forall_mem_singleton]⟩

/-! ### The switch -/

theorem puts_sendNack (h : Host) (mp p : Nat) (cb : RmcCtrlBlock) :
    Puts id sends cb (sendNack h mp p cb) :=
  puts_one (sendNack_sent h mp p cb) fun _ =>
    genuine_of_type (begins_nackFill h (cb.mems mp) (cb.msgs p) (nackList (cb.mems mp)))
      (show MsgType.nack.toByte ≠ MsgType.data.toByte by decide) _

theorem puts_dataMsg (h : Host) (sender : SockaddrIn) (p : Nat) (cb : RmcCtrlBlock) :
    Puts id sends cb (dataMsg h sender p cb) := by
  unfold dataMsg
  split
  · exact (silent_releaseMsg cb p).puts
  · rename_i mp _
    split
    · split
      · have halloc : Silent cb (allocMsg (cacheMsg h mp p cb)).1 :=
          (silent_allocMsg (cacheMsg h mp p cb)).of_eq rfl rfl
        exact (halloc.puts.trans (puts_sendNack h mp _ _)).trans (silent_releaseMsg _ _).puts
      · exact (silent_releaseMsg cb p).puts
    · have hquiet : Silent cb (dataInSequence h sender mp p cb) :=
        (silent_releaseCached h mp _ _).of_eq rfl rfl
      exact hquiet.puts

theorem puts_hbeatMsg (h : Host) (p : Nat) (cb : RmcCtrlBlock) :
    Puts id sends cb (hbeatMsg h p cb) := by
  have hmember := silent_hbeatMember h p (cb.setMsg p (hbeatDecode h.endian (cb.msgs p)))
  rw [hbeatMsg_eq]
  generalize hbeatMember h p (cb.setMsg p (hbeatDecode h.endian (cb.msgs p))) = r at hmember ⊢
  have hquiet : Silent cb (hbeatApply h p r) := ⟨hmember.version, hmember.sent⟩
  refine (hquiet.puts.trans ?_).trans (silent_releaseMsg _ _).puts
  unfold hbeatGap
  split
  · split
    · exact puts_sendNack h _ _ _
    · exact (Silent.refl _).puts
  · exact (Silent.refl _).puts

/-- The buffers kept for retransmission hold genuine datagrams, and none of
them is `p`. -/
def KeptGenuine (id : UInt32) (sends : List Send) (p : Nat) (cb : RmcCtrlBlock) : Prop :=
  ∀ k q, htblGet cb.outmsgbuf k = some q → q ≠ p ∧ Genuine id sends (keptBytes (cb.msgs q))

/-- A NACK is answered out of the buffers that are kept. -/
theorem puts_nackLoop (h : Host) {p : Nat} (n : Nat) :
    ∀ (itr : Nat) {cb : RmcCtrlBlock}, KeptGenuine id sends p cb →
      Puts id sends cb (nackLoop h p n itr cb) := by
  induction n with
  | zero => exact fun itr cb _ => (Silent.refl cb).puts
  | succ n ih =>
    intro itr cb hkept
    simp only [nackLoop]
    generalize ntohl h.endian (load32 h.endian (cb.msgs p).buf (sizeofHdr + itr * sizeofLong)) = k
    generalize (cb.msgs p).setBuf (store32 h.endian (cb.msgs p).buf (sizeofHdr + itr * sizeofLong) k)
      = m
    have hkept' : KeptGenuine id sends p (cb.setMsg p m) := by
      intro k q hk
      rw [show (cb.setMsg p m).msgs q = cb.msgs q from Function.update_of_ne (hkept k q hk).1 _ _]
      exact hkept k q hk
    cases hk : htblGet (cb.setMsg p m).outmsgbuf k with
    | none => exact ih (itr + 1) hkept'
    | some q =>
      have hone : Puts id sends cb ((cb.setMsg p m).sendto (.ucast (cb.setMsg p m).ucastAddr) q
          (sizeT (((cb.setMsg p m).msgs q).length + sizeofHdr)) false) :=
        puts_one rfl fun _ => (hkept' k q hk).2
      exact hone.trans (ih (itr + 1) hkept')

theorem puts_dispatch {sender : SockaddrIn} {p : Nat} (hkept : KeptGenuine id sends p cb)
    (hd : dispatch h sender p cb = some cb') : Puts id sends cb cb' := by
  unfold dispatch at hd
  split at hd
  · obtain rfl := Option.some.inj hd
    exact puts_dataMsg h sender p cb
  · obtain rfl := Option.some.inj hd
    exact puts_hbeatMsg h p cb
  · obtain rfl := Option.some.inj hd
    exact puts_nackLoop h _ 1 hkept
  · exact (silent_leaveMsg h hd).puts
  · obtain rfl := Option.some.inj hd
    exact (silent_releaseMsg cb p).puts

theorem puts_mcastBranch {sender : SockaddrIn} {r : RecvResult} {flag : Bool}
    (hown : Owned cb hand) (hb : mcastBranch h sender r cb = some (cb', flag))
    (hkept : ∀ k q, htblGet cb.outmsgbuf k = some q → Genuine id sends (keptBytes (cb.msgs q))) :
    Puts id sends cb cb' := by
  rcases mcastBranch_accepted hb with ⟨hnone, -⟩ | ⟨m, -, -, hd⟩
  · exact (silent_dropped hb hnone).puts
  · refine (silent_received h r cb).puts.trans (puts_dispatch ?_ hd)
    intro k q hk
    have hout : (received h r cb).outmsgbuf = cb.outmsgbuf := (sameSender_allocMsg cb).outmsgbuf
    rw [hout] at hk
    have hin : InUse cb q := hown.inUse (.inr (.inl (mem_htblValues.mpr ⟨k, hk⟩)))
    rw [received_msgs h r hin]
    exact ⟨allocMsg_ne hin, hkept k q hk⟩

/-! ### The client's messages -/

/-- What the second `recv` returned lies behind the header. -/
theorem ipcRecv_body {i : IpcInput} {data : List UInt8}
    (hbody : i.body.limit (sizeT (ipcLen h i cb)) = .ok data) :
    readBytes ((ipcRecv h i cb).1.msgs (ipcRecv h i cb).2).buf sizeofHdr data.length = data := by
  simp only [ipcRecv, hbody, RecvResult.into, RmcCtrlBlock.setMsg, Function.update_self,
    RmcMsg.setBuf]
  exact readBytes_writeBytes _ _ _

/-- The datagram around it is one of the messages of the history. -/
theorem genuine_ipcSend {i : IpcInput} (sends : List Send)
    (hlen : 0 < (i.len.limit sizeofLong).ret)
    (hbody : (i.body.limit (sizeT (ipcLen h i cb))).ret = ipcLen h i cb) (hpos : 0 < i.sendto) :
    Genuine cb.self.id (sends ++ newSends h cb (.branch (.ipc i)))
      (readBytes (dataFill h cb.self (ipcLen h i cb)
        ((ipcRecv h i cb).1.msgs (ipcRecv h i cb).2)).buf 0
        (sizeT (ipcLen h i cb + sizeofHdr))) := by
  intro hlong _
  rw [readBytes_length] at hlong
  cases hrecv : i.body.limit (sizeT (ipcLen h i cb)) with
  | err =>
    -- a failed `recv` with a length word of −1: eleven bytes are sent
    rw [hrecv] at hbody
    rw [← hbody] at hlong
    exact absurd hlong (by decide)
  | ok data =>
    have hpay := ipcRecv_body hrecv
    rw [hrecv] at hbody
    have hn : (data.length : Int) = ipcLen h i cb := hbody
    have hmsg : clientMsg h i cb = some data := by
      simp only [clientMsg, hrecv]
      exact if_pos ⟨hlen, hn, hpos⟩
    have hlt : data.length < 2147483648 := by
      have := toInt32_lt (load32 h.endian (ipcLenMem i cb) 0)
      rw [ipcLen] at hn
      omega
    have hb := begins_dataFill h cb.self data.length ((ipcRecv h i cb).1.msgs (ipcRecv h i cb).2)
      data.length
    rw [hpay, sizeT_natCast (by omega)] at hb
    refine ⟨((ipcRecv h i cb).1.msgs (ipcRecv h i cb).2).buf 0, ⟨cb.self.sequence, data⟩, ?_, ?_⟩
    · simp [newSends, hmsg]
    · rw [← hn, show sizeT ((data.length : Int) + (sizeofHdr : Nat)) = sizeofHdr + data.length by
        simp only [sizeT, sizeofHdr]
        omega]
      exact begins_iff.mp hb

theorem puts_ipcBranch (sends : List Send) (i : IpcInput) (cb : RmcCtrlBlock) :
    Puts cb.self.id (sends ++ newSends h cb (.branch (.ipc i))) cb (ipcBranch h i cb) := by
  obtain ⟨hself, hsent, -⟩ := ipcRecv_frame h i cb
  unfold ipcBranch
  split
  · rename_i hlen
    dsimp only
    split
    · rename_i hbody
      refine puts_one (x := ⟨.mcast, readBytes (dataFill h cb.self (ipcLen h i cb)
        ((ipcRecv h i cb).1.msgs (ipcRecv h i cb).2)).buf 0
        (sizeT (ipcLen h i cb + sizeofHdr)), decide (i.sendto ≤ 0)⟩) ?_ ?_
      · unfold ipcSend
        simp only [RmcCtrlBlock.sendto, RmcCtrlBlock.setMsg_self, hself]
        split <;> simp only [hsent, RmcCtrlBlock.setMsg]
      · intro hok
        have hpos : 0 < i.sendto := by simpa using hok
        exact genuine_ipcSend sends hlen hbody hpos
    · exact Silent.puts (by obtain ⟨b, n, f, z, hr⟩ := ipcRecv_eq h i cb; rw [hr]; exact ⟨rfl, rfl⟩)
  · exact Silent.puts ⟨rfl, rfl⟩

/-- A message is kept only if `sendto` took it, as it was sent. -/
theorem ipcSend_keepsSent {sendto n : Int} {p q : Nat} {k : UInt32}
    (hk : htblGet (ipcSend h sendto n p cb).outmsgbuf k = some q) :
    htblGet cb.outmsgbuf k = some q
      ∨ 0 < sendto ∧ q = p ∧ keptBytes ((ipcSend h sendto n p cb).msgs q)
        = readBytes (dataFill h cb.self n (cb.msgs p)).buf 0 (sizeT (n + sizeofHdr)) := by
  unfold ipcSend at hk ⊢
  by_cases hpos : 0 < sendto
  · rw [if_pos hpos] at hk ⊢
    rcases htblGet_put_cases hk with hold | ⟨-, rfl⟩
    · exact .inl hold
    · refine .inr ⟨hpos, rfl, ?_⟩
      simp only [RmcCtrlBlock.sendto, RmcCtrlBlock.setMsg_self]
      rfl
  · rw [if_neg hpos] at hk
    exact .inl hk

/-- What the IPC branch keeps is genuine. -/
theorem ipcBranch_keepsGenuine {sends : List Send} (i : IpcInput) (hown : Owned cb hand)
    (hkept : ∀ k q, htblGet cb.outmsgbuf k = some q →
      Genuine cb.self.id sends (keptBytes (cb.msgs q)))
    {k : UInt32} {q : Nat} (hk : htblGet (ipcBranch h i cb).outmsgbuf k = some q) :
    Genuine cb.self.id (sends ++ newSends h cb (.branch (.ipc i)))
      (keptBytes ((ipcBranch h i cb).msgs q)) := by
  have hinUse : htblGet cb.outmsgbuf k = some q → InUse cb q :=
    fun hk => hown.inUse (.inr (.inl (mem_htblValues.mpr ⟨_, hk⟩)))
  have hout := (sameSender_ipcRecv h i cb).outmsgbuf
  have hself := (ipcRecv_frame h i cb).1
  unfold ipcBranch at hk ⊢
  split at hk
  · rename_i hlen
    rw [if_pos hlen]
    dsimp only at hk ⊢
    split at hk
    · rename_i hbody
      rw [if_pos hbody]
      rcases ipcSend_keepsSent hk with hold | ⟨hpos, rfl, hbytes⟩
      · have hold' : htblGet cb.outmsgbuf k = some q := hout ▸ hold
        obtain ⟨hne, hmsgs⟩ := ipcRecv_msgs h i (hinUse hold')
        rw [ipcSend_msgs h hne, hmsgs]
        exact (hkept k q hold').mono _
      · rw [hbytes, hself]
        exact genuine_ipcSend sends hlen hbody hpos
    · rename_i hbody
      rw [if_neg hbody]
      have hold : htblGet cb.outmsgbuf k = some q := hout ▸ hk
      rw [(ipcRecv_msgs h i (hinUse hold)).2]
      exact (hkept k q hold).mono _
  · rename_i hlen
    rw [if_neg hlen]
    exact (hkept k q hk).mono _

/-! ### A step of a node -/

/-- A node that puts out nothing but its client's messages. -/
structure Honest (id : UInt32) (n : Node) : Prop where
  owned : ∃ hand, Owned n.cb hand
  self : n.cb.self.id = id
  kept : ∀ k q, htblGet n.cb.outmsgbuf k = some q → Genuine id n.sends (keptBytes (n.cb.msgs q))
  sent : ∀ x ∈ n.cb.sent, x.failed = false → Genuine id n.sends x.bytes

theorem puts_hbeatBranch (hb : hbeatBranch h cb = some cb') : Puts id sends cb cb' := by
  obtain ⟨w, acks, -, -, hsent, -⟩ := sendHbeat_sent h (some cb.hostname) 0 hb
  refine puts_one hsent fun _ => ?_
  have hb := begins_writeBytes (fun _ => 0) (hbeatDgram w cb.self (some cb.hostname) acks 0)
  rw [← begins_iff.mp hb]
  exact genuine_of_type hb (show MsgType.hbeat.toByte ≠ MsgType.data.toByte by decide) _

theorem begins_leaveFill (h : Host) (self : RmcMember) (m : RmcMsg) :
    Begins (leaveFill h self m).buf
      ⟨m.buf 0, MsgType.leave.toByte, 0, self.sequence, self.id, []⟩ := by
  have hzero : (0 : UInt16) = htons h.endian 0 := by cases h.endian <;> rfl
  have hb := begins_header h.endian m .leave 0 self.sequence self.id 0
  rw [← hzero] at hb
  exact hb

theorem puts_daemonExit (h : Host) (cb : RmcCtrlBlock) : Puts id sends cb (daemonExit h cb) := by
  refine puts_one (x := ⟨.mcast, readBytes (leaveFill h (allocMsg cb).1.self
    ((allocMsg cb).1.msgs (allocMsg cb).2)).buf 0 (sizeT sizeofHdr), false⟩) ?_ fun _ => ?_
  · simp only [daemonExit, releaseMsg, RmcCtrlBlock.sendto, RmcCtrlBlock.setMsg,
      Function.update_self, (silent_allocMsg cb).sent]
  · exact genuine_of_type (begins_leaveFill h _ _)
      (show MsgType.leave.toByte ≠ MsgType.data.toByte by decide) _

/-- The id of a node is set once. -/
theorem nodeStep_id {op : NodeOp} (hstep : nodeStep h cb op = some cb') :
    cb'.self.id = cb.self.id := by
  cases op with
  | branch b =>
    cases b with
    | mcast sender r =>
      obtain ⟨⟨cb₁, flag⟩, hb, rfl⟩ := Option.map_eq_some_iff.mp hstep
      exact (sameSender_mcastBranch h sender r hb).id
    | ipc i =>
      obtain rfl := Option.some.inj hstep
      rcases ipcBranch_cases h i cb with ⟨hsame, -⟩ | ⟨-, -, hsend⟩
      · exact hsame.id
      · rw [hsend]
        have hself := (ipcRecv_frame h i cb).1
        unfold ipcSend
        dsimp only
        split <;> simp only [RmcCtrlBlock.sendto, RmcCtrlBlock.setMsg, hself]
    | hbeat =>
      obtain ⟨n, q, cs, buf, nmsgs, f, sent, -, -, rfl⟩ := hbeatBranch_spec hstep
      obtain ⟨o, b, s, hframe⟩ := purge_frame cb.hbSeqP2
        { cb with membersq := q, bufmsgq := buf, nmsgs := nmsgs, msgs := f, sent := sent
                  hbSeqP1 := cb.self.sequence, hbSeqP2 := cb.hbSeqP1, hbSeqP3 := cb.hbSeqP2 }
      rw [hframe]
    | ack => exact (ackBranch_frame hstep).2.1
  | leave out keys =>
    obtain rfl := Option.some.inj hstep
    obtain ⟨buf, o, mems, t, freed, hleave, -⟩ := leaveWith_frame out keys cb
    rw [hleave]
  | exit =>
    obtain rfl := Option.some.inj hstep
    exact (sameSender_allocMsg cb).id

theorem owned_nodeStep {op : NodeOp} (hown : Owned cb hand) (hstep : nodeStep h cb op = some cb') :
    ∃ hand', Owned cb' hand' := by
  cases op with
  | branch b => exact owned_branch hown hstep
  | leave out keys =>
    obtain rfl := Option.some.inj hstep
    exact owned_leaveWith out keys hown
  | exit =>
    obtain rfl := Option.some.inj hstep
    exact ⟨hand, owned_daemonExit h hown⟩

theorem puts_nodeStep {op : NodeOp} (hown : Owned cb hand) (hstep : nodeStep h cb op = some cb')
    (hkept : ∀ k q, htblGet cb.outmsgbuf k = some q →
      Genuine cb.self.id sends (keptBytes (cb.msgs q))) :
    Puts cb.self.id (sends ++ newSends h cb op) cb cb' := by
  cases op with
  | branch b =>
    cases b with
    | mcast sender r =>
      obtain ⟨⟨cb₁, flag⟩, hb, rfl⟩ := Option.map_eq_some_iff.mp hstep
      exact puts_mcastBranch hown hb fun k q hk => (hkept k q hk).mono _
    | ipc i =>
      obtain rfl := Option.some.inj hstep
      exact puts_ipcBranch sends i cb
    | hbeat => exact puts_hbeatBranch hstep
    | ack => exact (silent_ackBranch hstep).puts
  | leave out keys =>
    obtain rfl := Option.some.inj hstep
    exact (silent_leaveWith out keys cb).puts
  | exit =>
    obtain rfl := Option.some.inj hstep
    exact puts_daemonExit h cb

theorem nodeStep_keepsGenuine {op : NodeOp} (hown : Owned cb hand) (hstep : nodeStep h cb op = some cb')
    (hkept : ∀ k q, htblGet cb.outmsgbuf k = some q →
      Genuine cb.self.id sends (keptBytes (cb.msgs q)))
    {k : UInt32} {q : Nat} (hk : htblGet cb'.outmsgbuf k = some q) :
    Genuine cb.self.id (sends ++ newSends h cb op) (keptBytes (cb'.msgs q)) := by
  have hold : Keeps cb cb' →
      Genuine cb.self.id (sends ++ newSends h cb op) (keptBytes (cb'.msgs q)) := by
    intro hkeep
    obtain ⟨hold, hmsgs⟩ := hkeep k q hk
    rw [hmsgs (hown.inUse (.inr (.inl (mem_htblValues.mpr ⟨k, hold⟩))))]
    exact (hkept k q hold).mono _
  cases op with
  | branch b =>
    cases b with
    | mcast sender r =>
      obtain ⟨⟨cb₁, flag⟩, hb, rfl⟩ := Option.map_eq_some_iff.mp hstep
      refine hold fun k q hq => ?_
      rw [(sameSender_mcastBranch h sender r hb).outmsgbuf] at hq
      exact ⟨hq, fun hin => mcastBranch_msgs h sender r hin hb⟩
    | ipc i =>
      obtain rfl := Option.some.inj hstep
      exact ipcBranch_keepsGenuine i hown hkept hk
    | hbeat => exact hold (keeps_hbeatBranch hstep)
    | ack => exact hold (keeps_ackBranch hstep)
  | leave out keys =>
    obtain rfl := Option.some.inj hstep
    exact hold (keeps_leaveWith out keys cb)
  | exit =>
    obtain rfl := Option.some.inj hstep
    exact hold (keeps_daemonExit h cb)

/-- **One step** of a node, whatever it is sent. -/
theorem honest_step {n n' : Node} {op : NodeOp} (hn : Honest id n) (hstep : n.step h op = some n') :
    Honest id n' := by
  obtain ⟨cb', hcb, rfl⟩ := Option.map_eq_some_iff.mp hstep
  obtain ⟨hand, hown⟩ := hn.owned
  have hid := hn.self
  subst hid
  obtain ⟨xs, hsent, hg⟩ := puts_nodeStep hown hcb hn.kept
  refine ⟨owned_nodeStep hown hcb, nodeStep_id hcb, fun k q => nodeStep_keepsGenuine hown hcb hn.kept, ?_⟩
  intro x hx
  rw [show (Node.mk cb' (n.sends ++ newSends h n.cb op)).cb.sent = n.cb.sent ++ xs from hsent] at hx
  rcases List.mem_append.mp hx with hx | hx
  · exact fun hok => (hn.sent x hx hok).mono _
  · exact hg x hx

/-! ## §2 What a node makes of it -/

/-- Bytes that are long enough for a header are a datagram. -/
theorem exists_datagram : ∀ {bytes : List UInt8}, sizeofHdr ≤ bytes.length →
    ∃ d : Datagram, d.bytes = bytes
  | b₀ :: b₁ :: b₂ :: b₃ :: b₄ :: b₅ :: b₆ :: b₇ :: b₈ :: b₉ :: b₁₀ :: b₁₁ :: body, _ =>
      ⟨⟨b₀, b₁, word16 b₂ b₃, word32 b₄ b₅ b₆ b₇, word32 b₈ b₉ b₁₀ b₁₁, body⟩, by
        simp only [Datagram.bytes, be16_word16, be32_word32, List.cons_append, List.nil_append]⟩

theorem accepted_eq_some {r : RecvResult} {m : RmcMsg} (hacc : accepted h r cb = some m) :
    m = (received h r cb).msgs (allocMsg cb).2 ∧ sizeofHdr ≤ (recvMsg r cb).2.2 := by
  unfold accepted at hacc
  dsimp only at hacc
  split at hacc
  · cases hacc
  · rename_i hlen
    exact ⟨(Option.some.inj hacc).symm, Nat.not_lt.mp (not_or.mp hlen).1⟩

/-- A genuine datagram that reaches the switch as DATA is the message that
its sender announced. -/
theorem view_of_genuine {bytes : List UInt8} {m : RmcMsg} (hg : Genuine id sends bytes)
    (hacc : accepted h (.ok bytes) cb = some m)
    (htype : MsgType.ofByte m.hdrType = some .data) :
    ∃ y ∈ sends, msgView h.endian m = ⟨y.announced, y.sequence, id⟩ := by
  obtain ⟨hm, hret⟩ := accepted_eq_some hacc
  -- the buffer and the datagram are long enough for a header
  have hlen : sizeofHdr ≤ (bytes.take ((allocMsg cb).1.msgs (allocMsg cb).2).size).length :=
    hret.trans (sizeT_natCast_le _)
  rw [List.length_take] at hlen
  have hroom : sizeofHdr ≤ ((allocMsg cb).1.msgs (allocMsg cb).2).size := by omega
  have hdata : bytes[1]? = some MsgType.data.toByte := by
    have hhdr : sizeofHdr ≤ bytes.length := by omega
    obtain ⟨d, rfl⟩ := exists_datagram hhdr
    have hheld := holds_received_cut h rfl hroom d
    rw [← hm] at hheld
    rw [← MsgType.eq_toByte htype, hheld.type]
    rfl
  obtain ⟨v, y, hy, rfl⟩ := hg (by omega) hdata
  have hheld := holds_received_cut h rfl hroom (y.dgram v id)
  rw [← hm] at hheld
  rw [accepted_datagram h rfl hroom] at hacc
  split at hacc
  · rename_i hok
    refine ⟨y, hy, ?_⟩
    rw [hheld.view (hok.length_le hroom), hok.view_cut hroom]
    simp only [Datagram.view, Datagram.payload, Send.dgram, Send.announced, UInt16.toNat_ofNat']
  · cases hacc

/-- What a message leaves in the cache and hands over was there before, or
is the message. -/
theorem mem_handed {α : Type*} {num : α → UInt32} {v : Option (Peer α)} {ev : PeerEvent α}
    {a : Handed α} (ha : a ∈ Peer.handed num v ev) :
    (∃ u, v = some u ∧ a.msg ∈ htblValues u.unseqMsgs) ∨ ev = .data a.msg := by
  cases v with
  | none => cases ha
  | some v =>
    cases ev with
    | data b =>
      rcases mem_handed_arrive ha with heq | hmem
      · exact .inr (congrArg PeerEvent.data heq.symm)
      · exact .inl ⟨v, rfl, hmem⟩
    | hbeat session sequence => cases ha
    | leave => cases ha
    | other => cases ha

/-- Everything a node has cached or handed to its client satisfies `P`. -/
structure Holding (P : MsgView → Prop) (e : Endian) (cb : RmcCtrlBlock) : Prop where
  cached : ∀ x v, peerView e cb x = some v → ∀ m ∈ htblValues v.unseqMsgs, P m
  delivered : ∀ r ∈ cb.ipcOut, P ⟨r.payload, r.sequence, r.id⟩

theorem Holding.mono {P Q : MsgView → Prop} {e : Endian} (hh : Holding P e cb)
    (hPQ : ∀ m, P m → Q m) : Holding Q e cb :=
  ⟨fun x v hv m hm => hPQ m (hh.cached x v hv m hm), fun r hr => hPQ _ (hh.delivered r hr)⟩

/-- A datagram that is no DATA, or one with `P`. -/
theorem holding_mcastBranch {P : MsgView → Prop} {sender : SockaddrIn} {r : RecvResult}
    {flag : Bool} (hown : Owned cb hand) (hh : Holding P h.endian cb)
    (hb : mcastBranch h sender r cb = some (cb', flag))
    (hP : ∀ m, accepted h r cb = some m → MsgType.ofByte m.hdrType = some .data →
      P (msgView h.endian m)) : Holding P h.endian cb' := by
  have hview := peerView_mcastBranch hown hb
  have hout := ipcOut_view_mcastBranch hown hb
  cases hacc : accepted h r cb with
  | none =>
    simp only [hacc, List.append_nil] at hview hout
    refine ⟨fun x v hv => hh.cached x v ((hview x).symm.trans hv), ?_⟩
    rw [hout]
    exact hh.delivered
  | some m =>
    simp only [hacc] at hview hout
    have hnew : ∀ a, eventOf h.endian m (msgView h.endian m) = .data a → P a := by
      intro a hev
      obtain ⟨ht, rfl⟩ := eventOf_eq_data hev
      exact hP m hacc ht
    constructor
    · intro x v hv a ha
      rw [hview x] at hv
      split at hv
      · rcases Peer.mem_next hv ha with ⟨u, hu, hmem⟩ | hev
        · exact hh.cached x u hu a hmem
        · exact hnew a hev
      · exact hh.cached x v hv a ha
    · intro rec hrec
      rw [hout] at hrec
      rcases List.mem_append.mp hrec with hrec | hrec
      · exact hh.delivered rec hrec
      · obtain ⟨a, ha, rfl⟩ := List.mem_map.mp hrec
        have hmsg : P a.msg := by
          rcases mem_handed ha with ⟨u, hu, hmem⟩ | hev
          · exact hh.cached _ u hu _ hmem
          · exact hnew _ hev
        cases a <;> exact hmsg

/-- The caches lose messages and gain none, and nothing is handed over. -/
structure Shrinks (e : Endian) (cb cb' : RmcCtrlBlock) : Prop where
  cached : ∀ x v', peerView e cb' x = some v' →
    ∃ v, peerView e cb x = some v ∧ ∀ m ∈ htblValues v'.unseqMsgs, m ∈ htblValues v.unseqMsgs
  ipcOut : cb'.ipcOut = cb.ipcOut

theorem Holding.shrink {P : MsgView → Prop} {e : Endian} (hh : Holding P e cb)
    (hs : Shrinks e cb cb') : Holding P e cb' := by
  refine ⟨?_, by rw [hs.ipcOut]; exact hh.delivered⟩
  intro x v' hv' m hm
  obtain ⟨v, hv, hsub⟩ := hs.cached x v' hv'
  exact hh.cached x v hv m (hsub m hm)

/-- A branch below the switch leaves the peers alone. -/
theorem shrinks_of_kept (e : Endian) (hown : Owned cb hand) (hmembers : cb'.members = cb.members)
    (hmems : cb'.mems = cb.mems) (hmsgs : ∀ q, InUse cb q → cb'.msgs q = cb.msgs q)
    (hout : cb'.ipcOut = cb.ipcOut) : Shrinks e cb cb' := by
  refine ⟨fun x v' hv' => ⟨v', ?_, fun _ hm => hm⟩, hout⟩
  rw [← peerView_of_kept e hown hmsgs x, ← peerAt_congr hmembers hmems x]
  exact hv'

/-- Dropping members empties caches. -/
theorem dropMembers_cached (keys : List UInt32) :
    ∀ {cb : RmcCtrlBlock} {x : UInt32} {mp : Nat},
      htblGet (dropMembers keys cb).members x = some mp →
        htblGet cb.members x = some mp
          ∧ ∀ q ∈ htblValues ((dropMembers keys cb).mems mp).unseqMsgs,
              q ∈ htblValues (cb.mems mp).unseqMsgs := by
  induction keys with
  | nil => exact fun hk => ⟨hk, fun q hq => hq⟩
  | cons key keys ih =>
    intro cb x mp
    simp only [dropMembers]
    split
    · rename_i mp₀ t heq
      obtain ⟨-, rfl⟩ := htblRemove_eq_some.mp heq
      obtain ⟨buf, t, hdrain, hget⟩ := drainUnseq_frame mp₀
        (htblEnumIntKeys (cb.mems mp₀).unseqMsgs (htblCount (cb.mems mp₀).unseqMsgs))
        { cb with members := cb.members.erase key }
      rw [hdrain]
      intro hk
      obtain ⟨hx, hsub⟩ := ih hk
      refine ⟨?_, fun q hq => ?_⟩
      · rw [htblGet_erase] at hx
        split at hx
        · cases hx
        · exact hx
      · have hq := hsub q hq
        by_cases hmp : mp = mp₀
        · subst hmp
          simp only [Function.update_self] at hq
          obtain ⟨k, hk⟩ := mem_htblValues.mp hq
          rw [hget] at hk
          split at hk
          · cases hk
          · exact mem_htblValues.mpr ⟨k, hk⟩
        · simp only [Function.update_of_ne hmp] at hq
          exact hq
    · exact ih

theorem mem_htblValues_map {α β : Type*} {f : α → β} {t : Htbl α} {b : β} :
    b ∈ htblValues (htblMap f t) ↔ ∃ a ∈ htblValues t, f a = b := by
  simp only [mem_htblValues, htblGet_map, Option.map_eq_some_iff]
  constructor
  · rintro ⟨k, a, hk, rfl⟩
    exact ⟨a, ⟨k, hk⟩, rfl⟩
  · rintro ⟨a, ⟨k, hk⟩, rfl⟩
    exact ⟨k, a, hk, rfl⟩

theorem shrinks_leaveWith (e : Endian) (out keys : List UInt32) (cb : RmcCtrlBlock) :
    Shrinks e cb (leaveWith out keys cb) := by
  obtain ⟨buf, o, hdrain, -⟩ := drainOut_frame out cb
  obtain ⟨buf', o', mems, t, freed, hleave, -⟩ := leaveWith_frame out keys cb
  have hmsgs := (leaveWith_kept out keys cb).1
  refine ⟨?_, by rw [hleave]⟩
  intro x v' hv'
  obtain ⟨w', hw', rfl⟩ := Option.map_eq_some_iff.mp hv'
  obtain ⟨mp, hk, rfl⟩ := Option.map_eq_some_iff.mp hw'
  obtain ⟨hx, hsub⟩ := dropMembers_cached keys hk
  rw [hdrain] at hx hsub
  refine ⟨(cb.mems mp).peer.map fun q => msgView e (cb.msgs q), ?_, ?_⟩
  · simp only [peerView, peerAt, hx, Option.map_some]
  · intro m hm
    obtain ⟨q, hq, rfl⟩ := mem_htblValues_map.mp hm
    rw [hmsgs]
    refine mem_htblValues_map.mpr ⟨q, hsub q ?_, rfl⟩
    simp only [leaveWith, hdrain] at hq
    exact hq

/-- A step that is no arrival hands nothing over and caches nothing. -/
theorem shrinks_nodeStep {op : NodeOp} (e : Endian) (hown : Owned cb hand)
    (hop : op.isArrival = false) (hstep : nodeStep h cb op = some cb') : Shrinks e cb cb' := by
  cases op with
  | branch b =>
    cases b with
    | mcast sender r => cases hop
    | ipc i =>
      obtain rfl := Option.some.inj hstep
      obtain ⟨hmembers, hmems, -, hout⟩ := ipcBranch_receiver h i cb
      refine shrinks_of_kept e hown hmembers hmems (fun q hq => ?_) hout
      rcases ipcBranch_cases h i cb with ⟨-, hmsgs⟩ | ⟨-, -, hsend⟩
      · exact hmsgs q hq
      · obtain ⟨hne, hmsgs⟩ := ipcRecv_msgs h i hq
        rw [hsend, ipcSend_msgs h hne, hmsgs]
    | hbeat =>
      obtain ⟨hmembers, hmems⟩ := hbeatBranch_peers hstep
      obtain ⟨n, q, cs, buf, nmsgs, f, sent, -, hmsgs, rfl⟩ := hbeatBranch_spec hstep
      obtain ⟨o, b, s, hframe⟩ := purge_frame cb.hbSeqP2
        { cb with membersq := q, bufmsgq := buf, nmsgs := nmsgs, msgs := f, sent := sent
                  hbSeqP1 := cb.self.sequence, hbSeqP2 := cb.hbSeqP1, hbSeqP3 := cb.hbSeqP2 }
      refine shrinks_of_kept e hown hmembers hmems ?_ (by rw [hframe])
      rw [hframe]
      exact hmsgs
    | ack =>
      obtain ⟨q, sync, o, b, s, rfl⟩ := ackBranch_eq hstep
      exact shrinks_of_kept e hown rfl rfl (fun _ _ => rfl) rfl
  | leave out keys =>
    obtain rfl := Option.some.inj hstep
    exact shrinks_leaveWith e out keys cb
  | exit =>
    obtain rfl := Option.some.inj hstep
    obtain ⟨hmems, hmembers, hout, -⟩ := allocMsg_receiver cb
    refine shrinks_of_kept e hown hmembers hmems (fun q hq => ?_) hout
    exact (Function.update_of_ne (allocMsg_ne hq) _ _).trans (allocMsg_msgs hq)

/-! ## §3 Runs -/

section Network

variable {ι : Type*} [DecidableEq ι] {hosts : ι → Host} {g : ι → Garbage} {a : ι → InitArgs}
  {net net' : ι → Node}

/-- Every node is honest, and what it has cached and delivered was sent. -/
structure Sound (hosts : ι → Host) (a : ι → InitArgs) (net : ι → Node) : Prop where
  honest : ∀ i, Honest (a i).id (net i)
  holding : ∀ i, Holding (fun m => SentBy a net m.id m.sequence m.payload) (hosts i).endian
    (net i).cb

/-- One node moved, by a step of its own. -/
theorem netStep_cases {op : NetOp ι} (hstep : netStep hosts net op = some net') :
    ∃ i op' cb', nodeStep (hosts i) (net i).cb op' = some cb'
      ∧ net' = Function.update net i
          { cb := cb', sends := (net i).sends ++ newSends (hosts i) (net i).cb op' }
      ∧ ((op = .act i op' ∧ op'.isArrival = false)
        ∨ ∃ j k source x, op = .arrive i j k source ∧ (net j).cb.sent[k]? = some x
          ∧ x.failed = false ∧ op' = .branch (.mcast source (.ok x.bytes))) := by
  have hat : ∀ {i op'}, stepAt hosts net i op' = some net' →
      ∃ cb', nodeStep (hosts i) (net i).cb op' = some cb' ∧ net' = Function.update net i
        { cb := cb', sends := (net i).sends ++ newSends (hosts i) (net i).cb op' } := by
    intro i op' hat
    obtain ⟨n, hn, rfl⟩ := Option.map_eq_some_iff.mp hat
    obtain ⟨cb', hcb, rfl⟩ := Option.map_eq_some_iff.mp hn
    exact ⟨cb', hcb, rfl⟩
  cases op with
  | act i op' =>
    simp only [netStep] at hstep
    split at hstep
    · cases hstep
    · rename_i hop
      obtain ⟨cb', hcb, hnet⟩ := hat hstep
      exact ⟨i, op', cb', hcb, hnet, .inl ⟨rfl, Bool.eq_false_iff.mpr hop⟩⟩
  | arrive i j k source =>
    simp only [netStep] at hstep
    split at hstep
    · cases hstep
    · rename_i x hx
      split at hstep
      · cases hstep
      · rename_i hok
        obtain ⟨cb', hcb, hnet⟩ := hat hstep
        exact ⟨i, _, cb', hcb, hnet,
          .inr ⟨j, k, source, x, rfl, hx, Bool.eq_false_iff.mpr hok, rfl⟩⟩

theorem SentBy.update {i : ι} {cb' : RmcCtrlBlock} {new : List Send} {id sequence : UInt32}
    {payload : List UInt8} (hs : SentBy a net id sequence payload) :
    SentBy a (Function.update net i { cb := cb', sends := (net i).sends ++ new }) id sequence
      payload := by
  obtain ⟨j, hid, y, hy, hseq, hpay⟩ := hs
  refine ⟨j, hid, y, ?_, hseq, hpay⟩
  by_cases hj : j = i
  · subst hj
    rw [Function.update_self]
    exact List.mem_append_left new hy
  · rw [Function.update_of_ne hj]
    exact hy

/-- **One step** of the network. -/
theorem sound_step {op : NetOp ι} (hs : Sound hosts a net)
    (hstep : netStep hosts net op = some net') : Sound hosts a net' := by
  obtain ⟨i, op', cb', hcb, rfl, hop⟩ := netStep_cases hstep
  obtain ⟨hand, hown⟩ := (hs.honest i).owned
  have hmono : ∀ m : MsgView, SentBy a net m.id m.sequence m.payload →
      SentBy a (Function.update net i
        { cb := cb', sends := (net i).sends ++ newSends (hosts i) (net i).cb op' })
        m.id m.sequence m.payload := fun m hm => hm.update
  constructor
  · intro j
    by_cases hj : j = i
    · subst hj
      rw [Function.update_self]
      exact honest_step (hs.honest j) (Option.map_eq_some_iff.mpr ⟨cb', hcb, rfl⟩)
    · rw [Function.update_of_ne hj]
      exact hs.honest j
  · intro j
    by_cases hj : j = i
    · subst hj
      rw [Function.update_self]
      refine Holding.mono ?_ hmono
      rcases hop with ⟨-, hact⟩ | ⟨j', k, source, x, -, hx, hok, rfl⟩
      · exact (hs.holding j).shrink (shrinks_nodeStep _ hown hact hcb)
      · obtain ⟨⟨cb₁, flag⟩, hb, rfl⟩ := Option.map_eq_some_iff.mp hcb
        refine holding_mcastBranch hown (hs.holding j) hb fun m hacc ht => ?_
        have hgen := (hs.honest j').sent x (List.mem_of_getElem? hx) hok
        obtain ⟨y, hy, hview⟩ := view_of_genuine hgen hacc ht
        rw [hview]
        exact ⟨j', rfl, y, hy, rfl, rfl⟩
    · rw [Function.update_of_ne hj]
      exact (hs.holding j).mono hmono

/-- What `rmcast_init` leaves of the parts that the network looks at. -/
theorem rmcastInit_node (g : Garbage) (a : InitArgs) :
    (rmcastInit g a).self.id = a.id ∧ (rmcastInit g a).members = ∅
      ∧ (rmcastInit g a).ipcOut = [] := by
  unfold rmcastInit
  simp only
  obtain ⟨b, n, f, hpool⟩ := fillPool_eq (max 20 a.nbufs).toNat _
  rw [hpool]
  exact ⟨rfl, rfl, rfl⟩

theorem honest_start (g : Garbage) (a : InitArgs) : Honest a.id (Node.start g a) := by
  obtain ⟨hout, -, -, -, -, -, -, hsent, -⟩ := rmcastInit_frame g a
  refine ⟨⟨[], owned_rmcastInit g a⟩, (rmcastInit_node g a).1, ?_, ?_⟩
  · intro k q hk
    rw [show (Node.start g a).cb.outmsgbuf = ∅ from hout] at hk
    cases hk
  · intro x hx
    rw [show (Node.start g a).cb.sent = [] from hsent] at hx
    cases hx

omit [DecidableEq ι] in
theorem sound_start (hosts : ι → Host) (g : ι → Garbage) (a : ι → InitArgs) :
    Sound hosts a (netStart g a) := by
  refine ⟨fun i => honest_start (g i) (a i), fun i => ?_⟩
  obtain ⟨-, hmembers, hout⟩ := rmcastInit_node (g i) (a i)
  constructor
  · intro x v hv
    simp only [netStart, Node.start, peerView, peerAt, hmembers, htblGet_empty, Option.map_none] at hv
    cases hv
  · intro r hr
    rw [show (netStart g a i).cb.ipcOut = [] from hout] at hr
    cases hr

/-! ### Agreement -/

/-- A number stands for one message, and the next number for none. -/
structure Numbered (n : Node) : Prop where
  below : ∀ y ∈ n.sends, y.sequence < n.cb.self.sequence
  unique : ∀ y ∈ n.sends, ∀ z ∈ n.sends, y.sequence = z.sequence → y = z

/-- The number goes on with every message of the history. -/
theorem ipcBranch_sequence (h : Host) (i : IpcInput) (cb : RmcCtrlBlock) :
    ((ipcBranch h i cb).self.sequence = cb.self.sequence ∧ clientMsg h i cb = none)
      ∨ (ipcBranch h i cb).self.sequence = cb.self.sequence + 1 := by
  have hself := (ipcRecv_frame h i cb).1
  have hnone : ¬ (0 < (i.len.limit sizeofLong).ret
      ∧ (i.body.limit (sizeT (ipcLen h i cb))).ret = ipcLen h i cb ∧ 0 < i.sendto) →
      clientMsg h i cb = none := by
    intro hnot
    unfold clientMsg
    split
    · rfl
    · rename_i data hdata
      rw [hdata] at hnot
      exact if_neg hnot
  unfold ipcBranch
  split
  · rename_i hlen
    dsimp only
    split
    · rename_i hbody
      unfold ipcSend
      dsimp only
      split
      · exact .inr (by simp only [RmcCtrlBlock.sendto, RmcCtrlBlock.setMsg, hself])
      · rename_i hpos
        refine .inl ⟨?_, hnone fun hall => hpos hall.2.2⟩
        simp only [RmcCtrlBlock.sendto, RmcCtrlBlock.setMsg, hself]
    · rename_i hbody
      exact .inl ⟨by rw [hself], hnone fun hall => hbody hall.2.1⟩
  · rename_i hlen
    exact .inl ⟨rfl, hnone fun hall => hlen hall.1⟩

/-- Only a message of the client and `rmcast_leave` move the number. -/
theorem nodeStep_sequence {op : NodeOp} (hstep : nodeStep h cb op = some cb')
    (hleave : ∀ out keys, op ≠ .leave out keys) (hipc : ∀ i, op ≠ .branch (.ipc i)) :
    cb'.self.sequence = cb.self.sequence ∧ newSends h cb op = [] := by
  cases op with
  | branch b =>
    cases b with
    | mcast sender r =>
      obtain ⟨⟨cb₁, flag⟩, hb, rfl⟩ := Option.map_eq_some_iff.mp hstep
      exact ⟨(sameSender_mcastBranch h sender r hb).sequence, rfl⟩
    | ipc i => exact absurd rfl (hipc i)
    | hbeat =>
      obtain ⟨n, q, cs, buf, nmsgs, f, sent, -, -, rfl⟩ := hbeatBranch_spec hstep
      obtain ⟨o, b, s, hframe⟩ := purge_frame cb.hbSeqP2
        { cb with membersq := q, bufmsgq := buf, nmsgs := nmsgs, msgs := f, sent := sent
                  hbSeqP1 := cb.self.sequence, hbSeqP2 := cb.hbSeqP1, hbSeqP3 := cb.hbSeqP2 }
      rw [hframe]
      exact ⟨rfl, rfl⟩
    | ack => exact ⟨(ackBranch_frame hstep).1, rfl⟩
  | leave out keys => exact absurd rfl (hleave out keys)
  | exit =>
    obtain rfl := Option.some.inj hstep
    exact ⟨(sameSender_allocMsg cb).sequence, rfl⟩

/-- A message under the next number keeps numbers apart. -/
theorem Numbered.ipc {n : Node} (hn : Numbered n) (i : IpcInput)
    (hmax : n.cb.self.sequence.toNat + 1 < 4294967296) :
    Numbered { cb := ipcBranch h i n.cb
               sends := n.sends ++ newSends h n.cb (.branch (.ipc i)) } := by
  have hnext : (n.cb.self.sequence + 1).toNat = n.cb.self.sequence.toNat + 1 := by
    rw [UInt32.toNat_add]
    exact Nat.mod_eq_of_lt hmax
  have hnew : ∀ y ∈ newSends h n.cb (.branch (.ipc i)), y.sequence = n.cb.self.sequence
      ∧ clientMsg h i n.cb = some y.data := by
    intro y hy
    simp only [newSends, List.mem_map, Option.mem_toList] at hy
    obtain ⟨data, hdata, rfl⟩ := hy
    exact ⟨rfl, hdata⟩
  have hbelow := hn.below
  simp only [UInt32.lt_iff_toNat_lt] at hbelow
  constructor
  · intro y hy
    simp only [UInt32.lt_iff_toNat_lt]
    rcases ipcBranch_sequence h i n.cb with ⟨hseq, hnone⟩ | hseq
    · rw [hseq]
      rcases List.mem_append.mp hy with hy | hy
      · exact hbelow y hy
      · cases hnone.symm.trans (hnew y hy).2
    · rw [hseq, hnext]
      rcases List.mem_append.mp hy with hy | hy
      · exact Nat.lt_succ_of_lt (hbelow y hy)
      · rw [(hnew y hy).1]
        exact Nat.lt_succ_self _
  · intro y hy z hz heq
    rcases List.mem_append.mp hy with hy | hy <;> rcases List.mem_append.mp hz with hz | hz
    · exact hn.unique y hy z hz heq
    · have := hbelow y hy
      rw [heq, (hnew z hz).1] at this
      exact absurd this (lt_irrefl _)
    · have := hbelow z hz
      rw [← heq, (hnew y hy).1] at this
      exact absurd this (lt_irrefl _)
    · obtain ⟨hy₁, hy₂⟩ := hnew y hy
      obtain ⟨hz₁, hz₂⟩ := hnew z hz
      cases y
      cases z
      cases hy₂.symm.trans hz₂
      cases heq
      rfl

theorem numbered_step {op : NetOp ι} (hn : ∀ j, Numbered (net j)) (hok : NoReuse net op)
    (hstep : netStep hosts net op = some net') (j : ι) : Numbered (net' j) := by
  obtain ⟨i, op', cb', hcb, rfl, hop⟩ := netStep_cases hstep
  by_cases hj : j = i
  · subst hj
    rw [Function.update_self]
    have hsame : (∀ out keys, op' ≠ .leave out keys) → (∀ x, op' ≠ .branch (.ipc x)) →
        Numbered { cb := cb', sends := (net j).sends ++ newSends (hosts j) (net j).cb op' } := by
      intro hleave hipc
      obtain ⟨hseq, hnew⟩ := nodeStep_sequence hcb hleave hipc
      rw [hnew, List.append_nil]
      exact ⟨by rw [hseq]; exact (hn j).below, (hn j).unique⟩
    rcases hop with ⟨rfl, -⟩ | ⟨j', k, source, x, rfl, -, -, rfl⟩
    · cases op' with
      | branch b =>
        cases b with
        | ipc x =>
          obtain rfl := Option.some.inj hcb
          exact (hn j).ipc x hok
        | mcast sender r => exact hsame (fun _ _ => nofun) (fun _ => nofun)
        | hbeat => exact hsame (fun _ _ => nofun) (fun _ => nofun)
        | ack => exact hsame (fun _ _ => nofun) (fun _ => nofun)
      | leave out keys => exact absurd hok id
      | exit => exact hsame (fun _ _ => nofun) (fun _ => nofun)
    · exact hsame (fun _ _ => nofun) (fun _ => nofun)
  · rw [Function.update_of_ne hj]
    exact hn j

/-- **Agreement.** If the nodes have ids of their own and none goes back to a
number it has used, no two records on the network, at one receiver or at
two, differ in what a number of a sender stands for. -/
theorem delivered_agree (hosts : ι → Host) (g : ι → Garbage) {a : ι → InitArgs}
    (hids : Function.Injective fun i => (a i).id) {ops : List (NetOp ι)}
    (hok : Guarded (netStep hosts) NoReuse (netStart g a) ops) :
    Throughout (netStep hosts)
      (fun net => ∀ i i', ∀ r ∈ (net i).cb.ipcOut, ∀ r' ∈ (net i').cb.ipcOut,
        r.id = r'.id → r.sequence = r'.sequence → r.payload = r'.payload)
      (netStart g a) ops := by
  refine throughout_of_guarded
    (I := fun net => Sound hosts a net ∧ ∀ j, Numbered (net j))
    (fun _ _ _ hs hok hstep => ⟨sound_step hs.1 hstep, numbered_step hs.2 hok hstep⟩)
    ?_ ⟨sound_start hosts g a, fun j => ⟨nofun, nofun⟩⟩ hok
  rintro net ⟨hs, hn⟩ i i' r hr r' hr' hid hseq
  obtain ⟨j, hj, y, hy, hyseq, hypay⟩ := (hs.holding i).delivered r hr
  obtain ⟨j', hj', y', hy', hyseq', hypay'⟩ := (hs.holding i').delivered r' hr'
  obtain rfl : j = j' := hids (hj.trans (hid.trans hj'.symm))
  obtain rfl := (hn j).unique y hy y' hy' (hyseq.trans (hseq.trans hyseq'.symm))
  exact hypay.symm.trans hypay'

/-- Nodes 1, 2 and 3. -/
def threeNodes (i : Fin 3) : InitArgs := { plainArgs with id := UInt32.ofNat (i.val + 1) }

/-- Node 1 makes itself known and sends; nodes 2 and 3 hear it, and one of
them twice. -/
def groupContact : List (NetOp (Fin 3)) :=
  [.act 0 (.branch .hbeat), .arrive 1 0 0 anyAddr, .arrive 2 0 0 anyAddr,
   .act 0 (.branch (.ipc (.whole .little [7, 8]))), .arrive 1 0 1 anyAddr, .arrive 2 0 1 anyAddr,
   .arrive 2 0 1 anyAddr]

theorem delivered_agree_three :
    (run (netStep fun _ => littleHost) (netStart (fun _ => zeroGarbage) threeNodes)
        groupContact).map (fun net => ((net 1).cb.ipcOut.map IpcRecord.payload,
          (net 2).cb.ipcOut.map IpcRecord.payload)) = some ([[7, 8]], [[7, 8]])
      ∧ Throughout (netStep fun _ => littleHost)
        (fun net => ∀ i i', ∀ r ∈ (net i).cb.ipcOut, ∀ r' ∈ (net i').cb.ipcOut,
          r.id = r'.id → r.sequence = r'.sequence → r.payload = r'.payload)
        (netStart (fun _ => zeroGarbage) threeNodes) groupContact :=
  ⟨by decide +kernel, delivered_agree _ _ (by unfold Function.Injective; decide) (by decide +kernel)⟩

end Network

end Rms.V01
