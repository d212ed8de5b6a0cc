/-
Rms.V01.DeliveryTheorems — what reaches the receiver's client.

`SentInOrder` says what the sender has put on the wire: the DATA
datagrams carry the payloads under consecutive numbers, and every
heartbeat carries the number of the payloads before it.

Over a network that loses, reorders and duplicates, the receiver hands
over a contiguous piece of what was sent as long as no number arrives in
its turn after it was cached (`delivered_contiguous`); the first such
arrival hands a payload over twice (`delivered_twice`).

Over a network that keeps the order, with arbitrary later repetitions,
everything from the number of the first heartbeat on is handed over as
it arrives, the cache stays empty and no NACK is sent
(`delivered_exactly`).
-/
import Rms.V01.Delivery
import Rms.V01.HbeatTheorems

namespace Rms.V01

open Rms.ByteMem Rms.Util Rms.Runs Rms.Serial

/-! ## The sender -/

/-- A datagram of the sender: DATA number `k` with the `k`-th payload, or
a heartbeat with number `k`. -/
inductive Emitted (node sess : UInt32) (payloads : List (List UInt8)) (k : Nat) (x : Sendto) : Prop
  | data (d : Datagram) (bytes : x.bytes = d.bytes) (type : d.type = MsgType.data.toByte)
      (length : d.length.toNat = d.body.length) (sequence : d.sequence = UInt32.ofNat k)
      (id : d.id = node) (payload : payloads[k]? = some d.body)
  | hbeat (d : Datagram) (f : HbeatFields) (tail : List UInt8) (bytes : x.bytes = d.bytes)
      (hbeat : IsHbeat d f tail) (length : d.length.toNat = d.body.length)
      (sequence : d.sequence = UInt32.ofNat k) (id : d.id = node) (session : f.session = sess)

/-- The sender's numbering, over everything on the wire. -/
structure SentInOrder (room : Nat) (node sess : UInt32) (payloads : List (List UInt8))
    (wire : List Sendto) (cb : RmcCtrlBlock) : Prop where
  sequence : cb.self.sequence = UInt32.ofNat payloads.length
  id : cb.self.id = node
  session : cb.self.session = sess
  count : dataCount wire = payloads.length
  emitted : ∀ i x, wire[i]? = some x →
    Emitted node sess payloads (dataCount (wire.take i)) x ∧ x.bytes.length ≤ room

theorem Emitted.mono {node sess : UInt32} {payloads : List (List UInt8)} {k : Nat} {x : Sendto}
    (h : Emitted node sess payloads k x) (more : List (List UInt8)) :
    Emitted node sess (payloads ++ more) k x := by
  cases h with
  | data d hb ht hl hs hi hp =>
    refine .data d hb ht hl hs hi ?_
    rw [List.getElem?_append_left (List.getElem?_eq_some_iff.mp hp).1]
    exact hp
  | hbeat d f tail hb hh hl hs hi hss => exact .hbeat d f tail hb hh hl hs hi hss

/-- A datagram put on the wire. -/
theorem SentInOrder.append {room : Nat} {node sess : UInt32} {payloads : List (List UInt8)}
    {wire : List Sendto} {cb cb' : RmcCtrlBlock} {x : Sendto}
    (h : SentInOrder room node sess payloads wire cb) (more : List (List UInt8))
    (hx : Emitted node sess (payloads ++ more) payloads.length x) (hroom : x.bytes.length ≤ room)
    (hcount : dataCount [x] = more.length)
    (hseq : cb'.self.sequence = UInt32.ofNat (payloads ++ more).length)
    (hid : cb'.self.id = cb.self.id) (hsess : cb'.self.session = cb.self.session) :
    SentInOrder room node sess (payloads ++ more) (wire ++ [x]) cb' := by
  refine ⟨hseq, hid.trans h.id, hsess.trans h.session, ?_, ?_⟩
  · rw [dataCount, List.countP_append, List.length_append]
    exact congrArg₂ (· + ·) h.count hcount
  · intro i y hy
    rcases Nat.lt_or_ge i wire.length with hlt | hge
    · rw [List.getElem?_append_left hlt] at hy
      rw [List.take_append_of_le_length (Nat.le_of_lt hlt)]
      exact ⟨(h.emitted i y hy).1.mono more, (h.emitted i y hy).2⟩
    · rw [List.getElem?_append_right hge] at hy
      have hi : i = wire.length := by
        have hlt := (List.getElem?_eq_some_iff.mp hy).1
        simp only [List.length_singleton] at hlt
        omega
      subst hi
      simp only [Nat.sub_self, List.getElem?_cons_zero, Option.some.injEq] at hy
      subst hy
      rw [List.take_left' rfl, h.count]
      exact ⟨hx, hroom⟩

/-- A step of the sender that sends nothing and takes no number. -/
theorem SentInOrder.congr {room : Nat} {node sess : UInt32} {payloads : List (List UInt8)}
    {wire : List Sendto} {cb cb' : RmcCtrlBlock}
    (h : SentInOrder room node sess payloads wire cb)
    (hseq : cb'.self.sequence = cb.self.sequence) (hid : cb'.self.id = cb.self.id)
    (hsess : cb'.self.session = cb.self.session) :
    SentInOrder room node sess payloads wire cb' :=
  ⟨hseq.trans h.sequence, hid.trans h.id, hsess.trans h.session, h.count, h.emitted⟩

theorem sentInOrder_init (room : Nat) (g : Garbage) (a : InitArgs) :
    SentInOrder room a.id a.session [] [] (rmcastInit g a) := by
  have hfill : ∀ (n : Nat) (cb : RmcCtrlBlock), (fillPool n cb).self = cb.self := by
    intro n
    induction n with
    | zero => intro cb; rfl
    | succ n ih => intro cb; exact ih (releaseMsg (newMsg cb).1 (newMsg cb).2)
  have hself : (rmcastInit g a).self = rmcastMemberInit a.hostname a.id a.session :=
    hfill (max 20 a.nbufs).toNat _
  refine ⟨?_, ?_, ?_, rfl, ?_⟩
  · rw [hself]
    rfl
  · rw [hself]
    rfl
  · rw [hself]
    rfl
  · intro i x hx
    simp at hx

/-- Sending a message. -/
theorem sentInOrder_send {room : Nat} {node sess : UInt32} {payloads : List (List UInt8)}
    {wire : List Sendto} {cb : RmcCtrlBlock} (h : SentInOrder room node sess payloads wire cb)
    (host : Host) {payload : List UInt8} (hlen : sizeofHdr + payload.length ≤ room)
    (hroom : room < 65536) :
    SentInOrder room node sess (payloads ++ [payload])
      (wire ++ (ipcBranch host (.whole host.endian payload) cb).sent.drop cb.sent.length)
      (ipcBranch host (.whole host.endian payload) cb) := by
  have hlen' : payload.length < 65536 := by
    simp only [sizeofHdr] at hlen
    omega
  obtain ⟨v, hsent, hself, -, -, -⟩ := ipcBranch_whole host cb hlen'
  rw [hsent, List.drop_left]
  refine h.append [payload] ?_ ?_ ?_ ?_ (by rw [hself]) (by rw [hself])
  · refine .data (dataDgram v cb.self payload) rfl rfl ?_ h.sequence h.id ?_
    · simp only [dataDgram, UInt16.toNat_ofNat']
      exact Nat.mod_eq_of_lt hlen'
    · simp [dataDgram]
  · rw [Datagram.bytes_length]
    exact hlen
  · rfl
  · rw [hself, h.sequence, List.length_append, ← ofNat_add_ofNat]
    rfl

/-- Sending a heartbeat. -/
theorem sentInOrder_hbeat {room : Nat} {node sess : UInt32} {payloads : List (List UInt8)}
    {wire : List Sendto} {cb cb' : RmcCtrlBlock}
    (h : SentInOrder room node sess payloads wire cb) (host : Host)
    (hfit : sizeofHdr + (sizeofHbeat + ackCount cb * (2 * sizeofLong)) ≤ room)
    (hroom : room < 65536) (hs : hbeatBranch host cb = some cb') :
    SentInOrder room node sess payloads (wire ++ cb'.sent.drop cb.sent.length) cb' := by
  obtain ⟨v, acks, -, hcount, hsent, hself⟩ := sendHbeat_sent host (some cb.hostname) 0 hs
  have hoff : hbeatOffset acks ≤ ackCount cb * (2 * sizeofLong) :=
    Nat.mul_le_mul_right _ (hcount ▸ Nat.mod_le _ _)
  have hbody := hbeatDgram_body_length v cb.self (some cb.hostname) acks 0
  have hlen : (hbeatDgram v cb.self (some cb.hostname) acks 0).length.toNat
      = (hbeatDgram v cb.self (some cb.hostname) acks 0).body.length := by
    rw [hbody]
    simp only [hbeatDgram, UInt16.toNat_ofNat']
    exact Nat.mod_eq_of_lt (by omega)
  rw [hsent, List.drop_left]
  have hfit' : (hbeatDgram v cb.self (some cb.hostname) acks 0).bytes.length ≤ room := by
    rw [Datagram.bytes_length, hbody]
    omega
  have happ : SentInOrder room node sess (payloads ++ []) _ cb' := h.append []
    (x := ⟨.mcast, _, false⟩)
    (.hbeat (hbeatDgram v cb.self (some cb.hostname) acks 0)
      (hbeatFields cb.self (some cb.hostname) acks 0) (hbeatTail (some cb.hostname) acks)
      rfl ⟨rfl, hlen.le, rfl⟩ hlen h.sequence h.id h.session)
    hfit' rfl
    (by rw [hself, h.sequence, List.append_nil]) (by rw [hself]) (by rw [hself])
  rwa [List.append_nil] at happ

/-! ## The receiver -/

/-- The receiver knows the sender's session and waits for number `k`. -/
def Expects (node sess : UInt32) (cb : RmcCtrlBlock) (k : Nat) : Prop :=
  ∃ mp, htblGet cb.members node = some mp ∧ (cb.mems mp).session = sess
    ∧ (cb.mems mp).sequence + 1 = UInt32.ofNat k

theorem Expects.congr {node sess : UInt32} {cb cb' : RmcCtrlBlock} {k : Nat}
    (h : Expects node sess cb k) (hmems : cb'.mems = cb.mems)
    (hmembers : cb'.members = cb.members) : Expects node sess cb' k := by
  obtain ⟨mp, hk, hss, hseq⟩ := h
  exact ⟨mp, by rw [hmembers]; exact hk, by rw [hmems]; exact hss, by rw [hmems]; exact hseq⟩

/-- What the arrival of a datagram of the sender does for the client:
nothing, except that the first heartbeat registers the sender, or the
message that is due is handed over. -/
inductive Arrival (node sess : UInt32) (payloads : List (List UInt8)) (k : Nat)
    (cb cb' : RmcCtrlBlock) : Prop
  | quiet (out : cb'.ipcOut = cb.ipcOut)
      (unknown : htblGet cb.members node = none →
        htblGet cb'.members node = none ∨ Expects node sess cb' k)
      (known : ∀ j, Expects node sess cb j → Expects node sess cb' j)
  | handed (r : IpcRecord) (out : cb'.ipcOut = cb.ipcOut ++ [r])
      (payload : payloads[k]? = some r.payload) (sequence : r.sequence = UInt32.ofNat k)
      (before : Expects node sess cb k) (after : Expects node sess cb' (k + 1))

theorem Arrival.of_same {node sess : UInt32} {payloads : List (List UInt8)} {k : Nat}
    {cb cb' : RmcCtrlBlock} (hmems : cb'.mems = cb.mems) (hmembers : cb'.members = cb.members)
    (hout : cb'.ipcOut = cb.ipcOut) : Arrival node sess payloads k cb cb' := by
  refine .quiet hout ?_ ?_
  · intro hnone
    exact .inl (by rw [hmembers]; exact hnone)
  · intro j hj
    exact hj.congr hmems hmembers

/-- The arrival of a DATA datagram whose number is not due and cached at
once. -/
theorem arrival_data (host : Host) (addr : SockaddrIn) {node sess : UInt32}
    {payloads : List (List UInt8)} {k : Nat} {cb : RmcCtrlBlock} {hand : List Nat}
    (hown : Owned cb hand) {d : Datagram} (hd : IsData d) (hf : Fits cb d)
    (hlen : d.length.toNat = d.body.length) (hseq : d.sequence = UInt32.ofNat k)
    (hid : d.id = node) (hpay : payloads[k]? = some d.body)
    (hplace : ∀ mp, htblGet cb.members node = some mp → (cb.mems mp).session = sess)
    (hrep : ∀ mp, htblGet cb.members node = some mp → (cb.mems mp).sequence + 1 = d.sequence →
      htblGet (cb.mems mp).unseqMsgs d.sequence = none) :
    ∃ cb', receive host cb (addr, d) = some cb' ∧ (∃ hand', Owned cb' hand')
      ∧ Arrival node sess payloads k cb cb' := by
  subst hid
  cases hk : htblGet cb.members d.id with
  | none =>
    obtain ⟨cb', hrecv, hown', -, hmems, hmembers, hout, -⟩ :=
      receive_data_unknown host addr hown hd hf hk
    exact ⟨cb', hrecv, hown', .of_same hmems hmembers hout⟩
  | some mp =>
    by_cases hdue : (cb.mems mp).sequence + 1 = d.sequence
    · obtain ⟨cb', hrecv, hown', -, hmembers, hsess, hseq', -, hout, -⟩ :=
        receive_data_due host addr hown hd hf hk hdue (hrep mp hk hdue)
      have hbody : d.payload = d.body := by
        rw [Datagram.payload, hlen, List.take_length]
      refine ⟨cb', hrecv, hown', .handed _ hout ?_ hseq
        ⟨mp, hk, hplace mp hk, hdue.trans hseq⟩
        ⟨mp, by rw [hmembers]; exact hk, hsess.trans (hplace mp hk), ?_⟩⟩
      · rw [hpay]
        exact congrArg some hbody.symm
      · rw [hseq', hseq, ← ofNat_add_ofNat]
        rfl
    · obtain ⟨cb', hrecv, hown', -, hmembers, hsess, hseq', hout, -⟩ :=
        receive_data_undue host addr hown hd hf hk hdue
      refine ⟨cb', hrecv, hown', .quiet hout ?_ ?_⟩
      · intro hnone
        rw [hk] at hnone
        simp at hnone
      · rintro j ⟨mp', hmp', hss, hj⟩
        rw [hk] at hmp'
        obtain rfl := Option.some.inj hmp'
        exact ⟨mp, by rw [hmembers]; exact hk, hsess.trans hss, by rw [hseq']; exact hj⟩

/-- The arrival of a heartbeat. -/
theorem arrival_hbeat (host : Host) (addr : SockaddrIn) {node sess : UInt32}
    {payloads : List (List UInt8)} {k : Nat} {cb : RmcCtrlBlock} {hand : List Nat}
    (hown : Owned cb hand) {d : Datagram} {f : HbeatFields} {tail : List UInt8}
    (hd : IsHbeat d f tail) (hf : Fits cb d)
    (hseq : d.sequence = UInt32.ofNat k) (hid : d.id = node) (hsess : f.session = sess)
    (hplace : ∀ mp, htblGet cb.members node = some mp → (cb.mems mp).session = sess) :
    ∃ cb', receive host cb (addr, d) = some cb' ∧ (∃ hand', Owned cb' hand')
      ∧ Arrival node sess payloads k cb cb' := by
  subst hid
  cases hk : htblGet cb.members d.id with
  | none =>
    obtain ⟨cb', mp, hrecv, hown', -, hk', hseq', hsess', -, hout, -⟩ :=
      receive_hbeat_new host addr hown hd hf hk
    refine ⟨cb', hrecv, hown', .quiet hout ?_ ?_⟩
    · intro _
      refine .inr ⟨mp, hk', hsess'.trans hsess, ?_⟩
      rw [hseq', hseq]
      exact UInt32.sub_add_cancel _ _
    · rintro j ⟨mp', hmp', -⟩
      rw [hk] at hmp'
      simp at hmp'
  | some mp =>
    obtain ⟨cb', hrecv, hown', -, hmembers, hseq', hsess', -, hout, -⟩ :=
      receive_hbeat_same host addr hown hd hf hk (hsess.trans (hplace mp hk).symm)
    refine ⟨cb', hrecv, hown', .quiet hout ?_ ?_⟩
    · intro hnone
      rw [hk] at hnone
      simp at hnone
    · rintro j ⟨mp', hmp', hss, hj⟩
      rw [hk] at hmp'
      obtain rfl := Option.some.inj hmp'
      exact ⟨mp, by rw [hmembers]; exact hk, hsess'.trans hss, by rw [hseq']; exact hj⟩

/-- The arrival of any datagram of the sender. -/
theorem arrival_emitted (host : Host) (addr : SockaddrIn) {node sess : UInt32}
    {payloads : List (List UInt8)} {k : Nat} {cb : RmcCtrlBlock} {hand : List Nat}
    (hown : Owned cb hand) {x : Sendto} (hx : Emitted node sess payloads k x)
    (hlt : x.bytes.length < 2147483648)
    (hplace : ∀ mp, htblGet cb.members node = some mp → (cb.mems mp).session = sess)
    (hrep : ∀ d mp, x.bytes = Datagram.bytes d → d.type = MsgType.data.toByte →
      htblGet cb.members node = some mp → (cb.mems mp).sequence + 1 = d.sequence →
      htblGet (cb.mems mp).unseqMsgs d.sequence = none) :
    ∃ cb', (mcastBranch host addr (.ok x.bytes) cb).map Prod.fst = some cb'
      ∧ (∃ hand', Owned cb' hand') ∧ Arrival node sess payloads k cb cb' := by
  cases hx with
  | data d hb ht hl hs hi hp =>
    rw [hb] at hlt ⊢
    by_cases hfit : d.bytes.length ≤ ((allocMsg cb).1.msgs (allocMsg cb).2).size
    · exact arrival_data host addr hown ⟨ht, hl.le⟩ ⟨hfit, hlt⟩ hl hs hi hp hplace
        (fun mp => hrep d mp hb ht)
    · obtain ⟨cb', hrecv, hown', hmems, hmembers, hout, -⟩ :=
        receive_cut host addr hown hl (Nat.lt_of_not_le hfit) hlt
      exact ⟨cb', hrecv, hown', .of_same hmems hmembers hout⟩
  | hbeat d f tail hb hh hl hs hi hss =>
    rw [hb] at hlt ⊢
    by_cases hfit : d.bytes.length ≤ ((allocMsg cb).1.msgs (allocMsg cb).2).size
    · exact arrival_hbeat host addr hown hh ⟨hfit, hlt⟩ hs hi hss hplace
    · obtain ⟨cb', hrecv, hown', hmems, hmembers, hout, -⟩ :=
        receive_cut host addr hown hl (Nat.lt_of_not_le hfit) hlt
      exact ⟨cb', hrecv, hown', .of_same hmems hmembers hout⟩

/-! ## A network that loses, reorders and duplicates -/

/-- The records `rs` carry the payloads from number `first` on, and the
receiver waits for the next one, or has not heard of the sender. -/
structure Handing (node sess : UInt32) (payloads : List (List UInt8)) (cb : RmcCtrlBlock)
    (first : Nat) (rs : List IpcRecord) : Prop where
  payloads_eq : rs.map IpcRecord.payload = (payloads.drop first).take rs.length
  within : first + rs.length ≤ payloads.length
  waits : (rs = [] ∧ htblGet cb.members node = none) ∨ Expects node sess cb (first + rs.length)

theorem Handing.place {node sess : UInt32} {payloads : List (List UInt8)} {cb : RmcCtrlBlock}
    {first : Nat} {rs : List IpcRecord} (h : Handing node sess payloads cb first rs) (mp : Nat)
    (hmp : htblGet cb.members node = some mp) : (cb.mems mp).session = sess := by
  rcases h.waits with ⟨-, hnone⟩ | ⟨mp', hmp', hsess, -⟩
  · rw [hnone] at hmp
    simp at hmp
  · rw [hmp'] at hmp
    obtain rfl := Option.some.inj hmp
    exact hsess

/-- More is sent. -/
theorem Handing.mono {node sess : UInt32} {payloads : List (List UInt8)} {cb : RmcCtrlBlock}
    {first : Nat} {rs : List IpcRecord} (h : Handing node sess payloads cb first rs)
    (more : List (List UInt8)) : Handing node sess (payloads ++ more) cb first rs := by
  have hwithin := h.within
  refine ⟨?_, by rw [List.length_append]; omega, h.waits⟩
  rw [h.payloads_eq, List.drop_append_of_le_length (by omega),
    List.take_append_of_le_length (by rw [List.length_drop]; omega)]

/-- A datagram arrives. -/
theorem Handing.arrival {node sess : UInt32} {payloads : List (List UInt8)}
    {cb cb' : RmcCtrlBlock} {first k : Nat} {rs : List IpcRecord}
    (h : Handing node sess payloads cb first rs) (hlt : payloads.length < 4294967296)
    (hk : k ≤ payloads.length) (ha : Arrival node sess payloads k cb cb') :
    ∃ first' more, cb'.ipcOut = cb.ipcOut ++ more
      ∧ Handing node sess payloads cb' first' (rs ++ more) := by
  cases ha with
  | quiet hout hunknown hknown =>
    rcases h.waits with ⟨hnil, hnone⟩ | hexp
    · refine ⟨k, [], by rw [hout, List.append_nil], ?_⟩
      subst hnil
      refine ⟨rfl, hk, ?_⟩
      rcases hunknown hnone with hnone' | hexp'
      · exact .inl ⟨rfl, hnone'⟩
      · exact .inr hexp'
    · refine ⟨first, [], by rw [hout, List.append_nil], ?_⟩
      rw [List.append_nil]
      exact ⟨h.payloads_eq, h.within, .inr (hknown _ hexp)⟩
  | handed r hout hpay hseq hbefore hafter =>
    obtain ⟨mp, hmp, -, hmpk⟩ := hbefore
    have hkl := (List.getElem?_eq_some_iff.mp hpay).1
    have hfirst : first + rs.length = k := by
      rcases h.waits with ⟨-, hnone⟩ | ⟨mp', hmp', -, hmpf⟩
      · rw [hnone] at hmp
        simp at hmp
      · rw [hmp'] at hmp
        obtain rfl := Option.some.inj hmp
        have hnat := congrArg UInt32.toNat (hmpf.symm.trans hmpk)
        have hwithin := h.within
        rw [UInt32.toNat_ofNat', UInt32.toNat_ofNat', Nat.mod_eq_of_lt (by omega),
          Nat.mod_eq_of_lt (by omega)] at hnat
        exact hnat
    refine ⟨first, [r], hout, ?_, ?_, .inr ?_⟩
    · rw [List.map_append, h.payloads_eq, List.length_append, List.length_singleton,
        List.take_add_one, List.getElem?_drop, hfirst, hpay]
      rfl
    · rw [List.length_append, List.length_singleton]
      omega
    · rw [List.length_append, ← Nat.add_assoc, hfirst]
      exact hafter

/-- What holds all along a run: the sender numbers in order, and what the
receiver has handed over is a piece of what was sent. -/
structure InPieces (node sess : UInt32) (out : List IpcRecord) (s : System) : Prop where
  sent : SentInOrder 65507 node sess s.payloads s.wire s.sender
  bound : s.payloads.length < 2147483648
  owned : ∃ hand, Owned s.receiver hand
  handing : ∃ first rs, s.receiver.ipcOut = out ++ rs
    ∧ Handing node sess s.payloads s.receiver first rs

theorem inPieces_step (l : Link) {node sess : UInt32} {out : List IpcRecord} (s : System)
    (ev : Event) (s' : System) (h : InPieces node sess out s)
    (hok : Allowed 2147483648 65507 s ev ∧ NoRepeat node s ev)
    (hstep : System.step l s ev = some s') : InPieces node sess out s' := by
  obtain ⟨hsent, hbound, ⟨hand, hown⟩, first, rs, hout, hhand⟩ := h
  obtain ⟨hallowed, hrep⟩ := hok
  cases ev with
  | send payload =>
    obtain rfl := Option.some.inj hstep
    refine ⟨sentInOrder_send hsent l.sHost hallowed.2 (by decide), ?_, ⟨hand, hown⟩,
      first, rs, hout, hhand.mono [payload]⟩
    rw [List.length_append]
    exact hallowed.1
  | hbeat =>
    obtain ⟨cb, hcb, rfl⟩ := Option.map_eq_some_iff.mp hstep
    exact ⟨sentInOrder_hbeat hsent l.sHost hallowed (by decide) hcb, hbound, ⟨hand, hown⟩,
      first, rs, hout, hhand⟩
  | hear addr r =>
    obtain ⟨⟨cb, b⟩, hcb, rfl⟩ := Option.map_eq_some_iff.mp hstep
    have hsame := sameSender_mcastBranch _ _ _ hcb
    exact ⟨hsent.congr hsame.sequence hsame.id hsame.session, hbound, ⟨hand, hown⟩,
      first, rs, hout, hhand⟩
  | ack =>
    obtain ⟨cb, hcb, rfl⟩ := Option.map_eq_some_iff.mp hstep
    obtain ⟨hseq, hid, hsess⟩ := ackBranch_frame hcb
    exact ⟨hsent.congr hseq hid hsess, hbound, ⟨hand, hown⟩, first, rs, hout, hhand⟩
  | arrive i =>
    unfold System.step at hstep
    cases hx : s.wire[i]? with
    | none =>
      simp only [hx] at hstep
      cases hstep
    | some x =>
      simp only [hx] at hstep
      obtain ⟨hem, hlen⟩ := hsent.emitted i x hx
      obtain ⟨cb', hcb', hown', ha⟩ := arrival_emitted l.rHost l.addr hown hem
        (Nat.lt_of_le_of_lt hlen (by decide)) hhand.place (fun d mp => hrep x d mp hx)
      obtain ⟨r, hr, rfl⟩ := Option.map_eq_some_iff.mp hstep
      rw [hr] at hcb'
      obtain rfl := Option.some.inj hcb'
      have hk : dataCount (s.wire.take i) ≤ s.payloads.length := by
        rw [← hsent.count]
        exact (List.take_sublist i s.wire).countP_le
      obtain ⟨first', more, hmore, hhand'⟩ := hhand.arrival (by omega) hk ha
      refine ⟨hsent, hbound, hown', first', rs ++ more, ?_, hhand'⟩
      rw [hmore, hout, List.append_assoc]

/-- **Delivery.** As long as no DATA message arrives in its turn while its
number is in the cache, what the receiver has handed over of the sender's
messages is, at every point, a contiguous piece of what was sent. -/
theorem delivered_contiguous (l : Link) (g : Garbage) (a : InitArgs) {R : RmcCtrlBlock}
    {hand : List Nat} (hown : Owned R hand) (hnew : htblGet R.members a.id = none)
    (evs : List Event)
    (hok : Guarded (System.step l)
      (fun s ev => Allowed 2147483648 65507 s ev ∧ NoRepeat a.id s ev) (.start g a R) evs) :
    Throughout (System.step l)
      (fun s => ∃ first rs, s.receiver.ipcOut = R.ipcOut ++ rs
        ∧ rs.map IpcRecord.payload = (s.payloads.drop first).take rs.length)
      (.start g a R) evs := by
  refine throughout_of_guarded (I := InPieces a.id a.session R.ipcOut) (inPieces_step l) ?_ ?_ hok
  · rintro s ⟨-, -, -, first, rs, hout, hhand⟩
    exact ⟨first, rs, hout, hhand.payloads_eq⟩
  · exact ⟨sentInOrder_init _ g a, Nat.two_pow_pos 31, ⟨hand, hown⟩, 0, [], (List.append_nil _).symm,
      rfl, Nat.le_refl _, .inl ⟨rfl, hnew⟩⟩

/-- Two little-endian hosts. -/
def littleLink : Link := ⟨littleHost, littleHost, anyAddr⟩

/-- The sequence number on the wire, for the member it comes from: it is
not due, or not in the cache. -/
def NotCached (id : UInt32) (s : System) : Event → Bool
  | .arrive i =>
      match s.wire[i]?, htblGet s.receiver.members id with
      | some x, some mp =>
          let seq := be32At (fun i => x.bytes.getD i 0) 4
          (s.receiver.mems mp).sequence + 1 != seq
            || (htblGet (s.receiver.mems mp).unseqMsgs seq).isNone
      | _, _ => true
  | _ => true

theorem noRepeat_of_notCached {id : UInt32} {s : System} :
    ∀ {ev : Event}, NotCached id s ev → NoRepeat id s ev
  | .send _, _ | .hbeat, _ | .hear _ _, _ | .ack, _ => trivial
  | .arrive i, hnot => by
      intro x d mp hx hbytes _ hmp hdue
      have hseq : be32At (fun i => x.bytes.getD i 0) 4 = d.sequence := by
        apply be32At_of_readBytes
        rw [hbytes]
        rfl
      simp only [NotCached, hx, hmp, hseq, hdue, bne_self_eq_false, Bool.false_or,
        Option.isNone_iff_eq_none] at hnot
      exact hnot

/-- Node 2 hears a heartbeat of node 1 and its first three messages, the
first twice and the third before the second: it stays in the cache. -/
def gapFilled : List Event :=
  [.hbeat, .arrive 0, .send [10], .send [11], .send [12], .arrive 1, .arrive 1, .arrive 3,
    .arrive 2]

theorem delivered_contiguous_gapFilled :
    (run (System.step littleLink) (.start zeroGarbage plainArgs nodeTwo) gapFilled).map
        (fun s => s.receiver.ipcOut.map IpcRecord.payload) = some [[10], [11]]
      ∧ Throughout (System.step littleLink)
        (fun s => ∃ first rs, s.receiver.ipcOut = nodeTwo.ipcOut ++ rs
          ∧ rs.map IpcRecord.payload = (s.payloads.drop first).take rs.length)
        (.start zeroGarbage plainArgs nodeTwo) gapFilled := by
  refine ⟨by decide +kernel, ?_⟩
  refine delivered_contiguous littleLink zeroGarbage plainArgs owned_nodeTwo rfl gapFilled ?_
  have hok : Guarded (System.step littleLink)
      (fun s ev => Allowed 2147483648 65507 s ev ∧ NotCached 1 s ev)
      (.start zeroGarbage plainArgs nodeTwo) gapFilled := by
    decide +kernel
  exact hok.imp fun s ev h => ⟨h.1, noRepeat_of_notCached h.2⟩

/-- Node 1 sends three messages, of which the last arrives before the one
that is due, and then once more: it is handed over twice. -/
theorem delivered_twice :
    ∃ s, run (System.step littleLink) (.start zeroGarbage plainArgs nodeTwo)
        [.send [10], .hbeat, .send [11], .send [12], .arrive 1, .arrive 3, .arrive 2, .arrive 3]
        = some s
      ∧ s.receiver.ipcOut.map IpcRecord.payload = [[11], [12], [12]]
      ∧ ∀ first n, s.receiver.ipcOut.map IpcRecord.payload ≠ (s.payloads.drop first).take n := by
  have h : (run (System.step littleLink) (.start zeroGarbage plainArgs nodeTwo)
      [.send [10], .hbeat, .send [11], .send [12], .arrive 1, .arrive 3, .arrive 2, .arrive 3]).map
      (fun s => (s.receiver.ipcOut.map IpcRecord.payload, s.payloads))
      = some ([[11], [12], [12]], [[10], [11], [12]]) := by
    decide +kernel
  obtain ⟨s, hrun, hs⟩ := Option.map_eq_some_iff.mp h
  obtain ⟨hout, hpay⟩ := Prod.mk.injEq _ _ _ _ ▸ hs
  refine ⟨s, hrun, hout, fun first n heq => ?_⟩
  -- a piece of a list without repetitions has none
  have hnodup : (s.payloads.drop first).take n |>.Nodup := by
    rw [hpay]
    exact ((List.take_sublist _ _).trans (List.drop_sublist _ _)).nodup (by decide)
  rw [← heq, hout] at hnodup
  exact absurd hnodup (by decide)

end Rms.V01
