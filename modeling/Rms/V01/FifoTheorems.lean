/-
Rms.V01.FifoTheorems — delivery over a network that keeps the order.

Every datagram of the sender arrives in the order of sending, and any
datagram may arrive again at any later time. `Follows` relates the
receiver to what has arrived so far: nothing is handed over before the
first heartbeat, and from then on the receiver waits for exactly the
number of DATA messages that have arrived, with nothing cached.

The next datagram keeps the relation because it carries that number, be
it DATA or a heartbeat (`Follows.next`); a repeated one because its number
is behind (`Follows.again`). A heartbeat carries the number of the next
message and a fresh member is one number before it, so number 0 wraps
around once, at registration.
-/
import Rms.V01.DeliveryTheorems

namespace Rms.V01

open Rms.ByteMem Rms.Util Rms.Runs Rms.Serial

/-! ## Counting on the wire -/

theorem dataCount_append (xs ys : List Sendto) :
    dataCount (xs ++ ys) = dataCount xs + dataCount ys :=
  List.countP_append

theorem firstHbeat_append (xs ys : List Sendto) :
    firstHbeat (xs ++ ys) = (firstHbeat xs).or (firstHbeat ys) := by
  unfold firstHbeat
  rw [List.find?_append]
  cases xs.find? fun x => x.bytes[1]? == some MsgType.hbeat.toByte <;> rfl

theorem dataCount_take_le (wire : List Sendto) {i n : Nat} (h : i ≤ n) :
    dataCount (wire.take i) ≤ dataCount (wire.take n) :=
  ((List.take_prefix_take_left h).sublist).countP_le

/-- The number of a DATA datagram that has arrived is behind. -/
theorem dataCount_take_lt {wire : List Sendto} {i n : Nat} {x : Sendto}
    (hx : wire[i]? = some x) (hd : dataCount [x] = 1) (h : i < n) :
    dataCount (wire.take i) < dataCount (wire.take n) := by
  have hle := dataCount_take_le wire (Nat.succ_le_of_lt h)
  rw [List.take_add_one, hx, Option.toList_some, dataCount_append, hd] at hle
  exact hle

/-- DATA counts, and is no heartbeat. -/
theorem count_data {x : Sendto} {d : Datagram} (hb : x.bytes = d.bytes)
    (ht : d.type = MsgType.data.toByte) : dataCount [x] = 1 ∧ firstHbeat [x] = none := by
  have hbyte : x.bytes[1]? = some MsgType.data.toByte := by
    rw [hb, ← ht]
    rfl
  constructor
  · simp [dataCount, isData, hbyte]
  · simp [firstHbeat, hbyte, MsgType.toByte]

/-- A heartbeat says its number, and does not count. -/
theorem count_hbeat {x : Sendto} {d : Datagram} (hb : x.bytes = d.bytes)
    (ht : d.type = MsgType.hbeat.toByte) :
    dataCount [x] = 0 ∧ firstHbeat [x] = some d.sequence := by
  have hbyte : x.bytes[1]? = some MsgType.hbeat.toByte := by
    rw [hb, ← ht]
    rfl
  have hseq : be32At (fun i => x.bytes.getD i 0) 4 = d.sequence := by
    apply be32At_of_readBytes
    rw [hb]
    rfl
  constructor
  · simp [dataCount, isData, hbyte, MsgType.toByte]
  · simp only [firstHbeat, List.find?_singleton, hbyte, BEq.rfl, if_true, Option.map_some, hseq]

/-- A number behind the one that is due is neither due nor ahead. -/
theorem not_ahead {seq : UInt32} {k r : Nat} (hseq : seq + 1 = UInt32.ofNat r) (hk : k < r)
    (hr : r < 4294967296) : seq + 1 ≠ UInt32.ofNat k ∧ ¬ seq < UInt32.ofNat k := by
  have hnat := congrArg UInt32.toNat hseq
  have hkn : (UInt32.ofNat k).toNat = k := by
    rw [UInt32.toNat_ofNat']
    exact Nat.mod_eq_of_lt (by omega)
  rw [UInt32.toNat_add, UInt32.toNat_ofNat', Nat.mod_eq_of_lt hr] at hnat
  have hone : (1 : UInt32).toNat = 1 := rfl
  have hlt := seq.toNat_lt
  constructor
  · intro heq
    have := congrArg UInt32.toNat (hseq.symm.trans heq)
    rw [UInt32.toNat_ofNat', Nat.mod_eq_of_lt hr, hkn] at this
    omega
  · rw [UInt32.lt_iff_toNat_lt, hkn]
    omega

/-! ## The receiver -/

/-- The receiver after the datagrams `seen` have arrived. -/
inductive Follows (node sess : UInt32) (payloads : List (List UInt8)) (out : List IpcRecord)
    (seen : List Sendto) (cb : RmcCtrlBlock) : Prop
  | unheard (first : firstHbeat seen = none) (unknown : htblGet cb.members node = none)
      (out_eq : cb.ipcOut = out)
  | following (q : UInt32) (first : firstHbeat seen = some q) (le : q.toNat ≤ dataCount seen)
      (mp : Nat) (known : htblGet cb.members node = some mp)
      (session : (cb.mems mp).session = sess)
      (place : (cb.mems mp).sequence + 1 = UInt32.ofNat (dataCount seen))
      (cache : (cb.mems mp).unseqMsgs = ∅) (rs : List IpcRecord) (out_eq : cb.ipcOut = out ++ rs)
      (payloads_eq : rs.map IpcRecord.payload = (payloads.take (dataCount seen)).drop q.toNat)

theorem Follows.congr {node sess : UInt32} {payloads : List (List UInt8)} {out : List IpcRecord}
    {seen : List Sendto} {cb cb' : RmcCtrlBlock} (h : Follows node sess payloads out seen cb)
    (hmems : cb'.mems = cb.mems) (hmembers : cb'.members = cb.members)
    (hout : cb'.ipcOut = cb.ipcOut) : Follows node sess payloads out seen cb' := by
  cases h with
  | unheard first unknown out_eq =>
    exact .unheard first (by rw [hmembers]; exact unknown) (hout.trans out_eq)
  | following q first le mp known session place cache rs out_eq payloads_eq =>
    exact .following q first le mp (by rw [hmembers]; exact known) (by rw [hmems]; exact session)
      (by rw [hmems]; exact place) (by rw [hmems]; exact cache) rs (hout.trans out_eq) payloads_eq

/-- More is sent. -/
theorem Follows.mono {node sess : UInt32} {payloads : List (List UInt8)} {out : List IpcRecord}
    {seen : List Sendto} {cb : RmcCtrlBlock} (h : Follows node sess payloads out seen cb)
    (hle : dataCount seen ≤ payloads.length) (more : List (List UInt8)) :
    Follows node sess (payloads ++ more) out seen cb := by
  cases h with
  | unheard first unknown out_eq => exact .unheard first unknown out_eq
  | following q first le mp known session place cache rs out_eq payloads_eq =>
    refine .following q first le mp known session place cache rs out_eq ?_
    rw [payloads_eq, List.take_append_of_le_length hle]

/-- What an arrival in order keeps: the ledger of buffers, their sizes and
the receiver's silence. -/
structure Quietly (room : Nat) (cb cb' : RmcCtrlBlock) : Prop where
  owned : ∃ hand, Owned cb' hand
  roomy : Roomy room cb'
  sent : cb'.sent = cb.sent

/-- The next DATA message. -/
theorem Follows.next_data (host : Host) (addr : SockaddrIn) {room : Nat} {node sess : UInt32}
    {payloads : List (List UInt8)} {out : List IpcRecord} {seen : List Sendto}
    {cb : RmcCtrlBlock} {hand : List Nat} (h : Follows node sess payloads out seen cb)
    (hown : Owned cb hand) (hroom : Roomy room cb) {x : Sendto} {d : Datagram}
    (hb : x.bytes = d.bytes) (hd : IsData d) (hf : Fits cb d)
    (hlen : d.length.toNat = d.body.length)
    (hseq : d.sequence = UInt32.ofNat (dataCount seen)) (hid : d.id = node)
    (hpay : payloads[dataCount seen]? = some d.body) :
    ∃ cb', receive host cb (addr, d) = some cb' ∧ Quietly room cb cb'
      ∧ Follows node sess payloads out (seen ++ [x]) cb' := by
  obtain ⟨hcount, hfirst⟩ := count_data hb hd.type
  subst hid
  cases h with
  | unheard first unknown out_eq =>
    obtain ⟨cb', hrecv, hown', hroom', hmems, hmembers, hout, hsent⟩ :=
      receive_data_unknown host addr hown hd hf unknown
    refine ⟨cb', hrecv, ⟨hown', hroom' room hroom, hsent⟩, .unheard ?_ ?_ (hout.trans out_eq)⟩
    · rw [firstHbeat_append, first, hfirst]
      rfl
    · rw [hmembers]
      exact unknown
  | following q first le mp known session place cache rs out_eq payloads_eq =>
    obtain ⟨cb', hrecv, hown', hroom', hmembers, hsess, hplace, hcache, hout, hsent⟩ :=
      receive_data_due host addr hown hd hf known (place.trans hseq.symm)
        (by rw [cache]; exact htblGet_empty _)
    have hbody : d.payload = d.body := by
      rw [Datagram.payload, hlen, List.take_length]
    refine ⟨cb', hrecv, ⟨hown', hroom' room hroom, hsent⟩, .following q ?_ ?_ mp ?_
      (hsess.trans session) ?_ (hcache cache)
      (rs ++ [record host.endian addr (.direct d.view)]) ?_ ?_⟩
    · rw [firstHbeat_append, first]
      rfl
    · rw [dataCount_append]
      omega
    · rw [hmembers]
      exact known
    · rw [hplace, hseq, dataCount_append, hcount, ← ofNat_add_ofNat]
      rfl
    · rw [hout, out_eq, List.append_assoc]
    · have hlt := (List.getElem?_eq_some_iff.mp hpay).1
      rw [List.map_append, payloads_eq, dataCount_append, hcount, List.take_add_one, hpay,
        Option.toList_some, List.drop_append_of_le_length (by rw [List.length_take]; omega)]
      exact congrArg (_ ++ [·]) hbody

/-- The next heartbeat. -/
theorem Follows.next_hbeat (host : Host) (addr : SockaddrIn) {room : Nat} {node sess : UInt32}
    {payloads : List (List UInt8)} {out : List IpcRecord} {seen : List Sendto}
    {cb : RmcCtrlBlock} {hand : List Nat} (h : Follows node sess payloads out seen cb)
    (hown : Owned cb hand) (hroom : Roomy room cb) {x : Sendto} {d : Datagram} {f : HbeatFields}
    {tail : List UInt8} (hb : x.bytes = d.bytes) (hd : IsHbeat d f tail) (hf : Fits cb d)
    (hseq : d.sequence = UInt32.ofNat (dataCount seen)) (hid : d.id = node)
    (hsess : f.session = sess) (hlt : dataCount seen < 4294967296) :
    ∃ cb', receive host cb (addr, d) = some cb' ∧ Quietly room cb cb'
      ∧ Follows node sess payloads out (seen ++ [x]) cb' := by
  obtain ⟨hcount, hfirst⟩ := count_hbeat hb hd.type
  have hseen : dataCount (seen ++ [x]) = dataCount seen := by
    rw [dataCount_append, hcount, Nat.add_zero]
  subst hid
  cases h with
  | unheard first unknown out_eq =>
    obtain ⟨cb', mp, hrecv, hown', hroom', hknown, hplace, hsess', hcache, hout, hsent⟩ :=
      receive_hbeat_new host addr hown hd hf unknown
    have hq : d.sequence.toNat = dataCount seen := by
      rw [hseq, UInt32.toNat_ofNat']
      exact Nat.mod_eq_of_lt hlt
    refine ⟨cb', hrecv, ⟨hown', hroom' room hroom, hsent⟩, .following d.sequence ?_ ?_ mp hknown
      (hsess'.trans hsess) ?_ hcache [] (by rw [hout, out_eq, List.append_nil]) ?_⟩
    · rw [firstHbeat_append, first, hfirst]
      rfl
    · rw [hseen, hq]
    · rw [hplace, hseen, hseq]
      exact UInt32.sub_add_cancel _ _
    · rw [hseen, hq, List.drop_of_length_le (List.length_take_le _ _)]
      rfl
  | following q first le mp known session place cache rs out_eq payloads_eq =>
    obtain ⟨cb', hrecv, hown', hroom', hmembers, hplace, hsess', hcache, hout, hsent⟩ :=
      receive_hbeat_same host addr hown hd hf known (hsess.trans session.symm)
    refine ⟨cb', hrecv, ⟨hown', hroom' room hroom, ?_⟩, .following q ?_ (by rw [hseen]; exact le) mp
      (by rw [hmembers]; exact known) (hsess'.trans session) (by rw [hplace, hseen]; exact place)
      (hcache.trans cache) rs (hout.trans out_eq) (by rw [hseen]; exact payloads_eq)⟩
    · exact hsent fun hne => absurd (place.trans hseq.symm) hne
    · rw [firstHbeat_append, first]
      rfl

/-- The next datagram. -/
theorem Follows.next (host : Host) (addr : SockaddrIn) {room : Nat} {node sess : UInt32}
    {payloads : List (List UInt8)} {out : List IpcRecord} {seen : List Sendto}
    {cb : RmcCtrlBlock} {hand : List Nat} (h : Follows node sess payloads out seen cb)
    (hown : Owned cb hand) (hroom : Roomy room cb) {x : Sendto}
    (hx : Emitted node sess payloads (dataCount seen) x) (hfit : x.bytes.length ≤ room)
    (hudp : room < 65536) (hlt : dataCount seen < 4294967296) :
    ∃ cb', (mcastBranch host addr (.ok x.bytes) cb).map Prod.fst = some cb'
      ∧ Quietly room cb cb' ∧ Follows node sess payloads out (seen ++ [x]) cb' := by
  cases hx with
  | data d hb ht hl hs hi hp =>
    rw [hb] at hfit ⊢
    exact h.next_data host addr hown hroom hb ⟨ht, hl.le⟩
      (hroom.fits hown hfit (by omega)) hl hs hi hp
  | hbeat d f tail hb hh hl hs hi hss =>
    rw [hb] at hfit ⊢
    exact h.next_hbeat host addr hown hroom hb hh (hroom.fits hown hfit (by omega)) hs hi hss hlt

/-- A datagram that has arrived before. -/
theorem Follows.again (host : Host) (addr : SockaddrIn) {room : Nat} {node sess : UInt32}
    {payloads : List (List UInt8)} {out : List IpcRecord} {wire : List Sendto} {n i : Nat}
    {cb : RmcCtrlBlock} {hand : List Nat} (h : Follows node sess payloads out (wire.take n) cb)
    (hown : Owned cb hand) (hroom : Roomy room cb) {x : Sendto} (hi : wire[i]? = some x)
    (hin : i < n) (hx : Emitted node sess payloads (dataCount (wire.take i)) x)
    (hfit : x.bytes.length ≤ room) (hudp : room < 65536)
    (hlt : dataCount (wire.take n) < 4294967296) :
    ∃ cb', (mcastBranch host addr (.ok x.bytes) cb).map Prod.fst = some cb'
      ∧ Quietly room cb cb' ∧ Follows node sess payloads out (wire.take n) cb' := by
  have hmem : x ∈ wire.take n :=
    List.mem_of_getElem? ((List.getElem?_take_of_lt hin).trans hi)
  cases hx with
  | data d hb ht hl hs hid hp =>
    rw [hb] at hfit ⊢
    have hf := hroom.fits hown hfit (by omega)
    subst hid
    cases h with
    | unheard first unknown out_eq =>
      obtain ⟨cb', hrecv, hown', hroom', hmems, hmembers, hout, hsent⟩ :=
        receive_data_unknown host addr hown ⟨ht, hl.le⟩ hf unknown
      exact ⟨cb', hrecv, ⟨hown', hroom' room hroom, hsent⟩,
        (Follows.unheard first unknown out_eq).congr hmems hmembers hout⟩
    | following q first le mp known session place cache rs out_eq payloads_eq =>
      have hbehind := not_ahead place (dataCount_take_lt hi (count_data hb ht).1 hin) hlt
      rw [← hs] at hbehind
      obtain ⟨cb', hrecv, hown', hroom', hmembers, hsess, hplace, hout, hdrop⟩ :=
        receive_data_undue host addr hown ⟨ht, hl.le⟩ hf known hbehind.1
      obtain ⟨hcache, hsent⟩ := hdrop hbehind.2
      exact ⟨cb', hrecv, ⟨hown', hroom' room hroom, hsent⟩, .following q first le mp
        (by rw [hmembers]; exact known) (hsess.trans session) (by rw [hplace]; exact place)
        (hcache cache) rs (hout.trans out_eq) payloads_eq⟩
  | hbeat d f tail hb hh hl hs hid hss =>
    rw [hb] at hfit ⊢
    have hf := hroom.fits hown hfit (by omega)
    subst hid
    cases h with
    | unheard first unknown out_eq =>
      -- then a heartbeat has arrived
      have hbyte : x.bytes[1]? = some MsgType.hbeat.toByte := by
        rw [hb, ← hh.type]
        rfl
      have hnone := List.find?_eq_none.mp (Option.map_eq_none_iff.mp first) x hmem
      rw [hbyte] at hnone
      exact absurd BEq.rfl hnone
    | following q first le mp known session place cache rs out_eq payloads_eq =>
      obtain ⟨cb', hrecv, hown', hroom', hmembers, hplace, hsess', hcache, hout, hsent⟩ :=
        receive_hbeat_same host addr hown hh hf known (hss.trans session.symm)
      refine ⟨cb', hrecv, ⟨hown', hroom' room hroom, hsent fun hne => ?_⟩,
        .following q first le mp (by rw [hmembers]; exact known) (hsess'.trans session)
          (by rw [hplace]; exact place) (hcache.trans cache) rs (hout.trans out_eq) payloads_eq⟩
      have hle := dataCount_take_le wire (Nat.le_of_lt hin)
      rcases Nat.lt_or_eq_of_le hle with hk | hk
      · rw [hs]
        exact (not_ahead place hk hlt).2
      · rw [hs, hk] at hne
        exact absurd place hne

/-! ## Whole runs -/

/-- What holds all along a run over a network that keeps the order. -/
structure InStep (room : Nat) (node sess : UInt32) (R : RmcCtrlBlock) (s : System) : Prop where
  sent : SentInOrder room node sess s.payloads s.wire s.sender
  bound : s.payloads.length < 4294967295
  arrived : s.arrived ≤ s.wire.length
  owned : ∃ hand, Owned s.receiver hand
  roomy : Roomy room s.receiver
  silent : s.receiver.sent = R.sent
  follows : Follows node sess s.payloads R.ipcOut (s.wire.take s.arrived) s.receiver

theorem InStep.count_le {room : Nat} {node sess : UInt32} {R : RmcCtrlBlock} {s : System}
    (h : InStep room node sess R s) : dataCount (s.wire.take s.arrived) ≤ s.payloads.length := by
  rw [← h.sent.count]
  exact (List.take_sublist s.arrived s.wire).countP_le

/-- The sender puts something, or nothing, on the wire. -/
theorem InStep.sender {room : Nat} {node sess : UInt32} {R : RmcCtrlBlock} {s s' : System}
    (h : InStep room node sess R s) (more : List (List UInt8)) (xs : List Sendto)
    (hpay : s'.payloads = s.payloads ++ more) (hwire : s'.wire = s.wire ++ xs)
    (hrecv : s'.receiver = s.receiver) (harr : s'.arrived = s.arrived)
    (hsent : SentInOrder room node sess s'.payloads s'.wire s'.sender)
    (hbound : s'.payloads.length < 4294967295) : InStep room node sess R s' := by
  refine ⟨hsent, hbound, ?_, by rw [hrecv]; exact h.owned, by rw [hrecv]; exact h.roomy,
    by rw [hrecv]; exact h.silent, ?_⟩
  · rw [harr, hwire, List.length_append]
    exact Nat.le_add_right_of_le h.arrived
  · rw [hpay, hwire, hrecv, harr, List.take_append_of_le_length h.arrived]
    exact h.follows.mono h.count_le more

/-- A datagram arrives in order, or again. -/
theorem InStep.arrive (l : Link) {room : Nat} {node sess : UInt32} {R : RmcCtrlBlock}
    {s : System} (h : InStep room node sess R s) (hudp : room < 65536) {i : Nat}
    (hi : i ≤ s.arrived) (hlt : i < s.wire.length) :
    ∃ s', System.step l s (.arrive i) = some s' ∧ InStep room node sess R s' := by
  obtain ⟨hand, hown⟩ := h.owned
  have hbound := h.bound
  have hcount := h.count_le
  have hx : s.wire[i]? = some s.wire[i] := List.getElem?_eq_getElem hlt
  obtain ⟨hem, hfit⟩ := h.sent.emitted i _ hx
  have hstep : System.step l s (.arrive i)
      = (mcastBranch l.rHost l.addr (.ok (s.wire[i]).bytes) s.receiver).map fun r =>
          { s with receiver := r.1, arrived := max s.arrived (i + 1) } := by
    simp only [System.step, hx]
  -- either way the receiver goes on to some state
  have hgo : ∀ cb', (mcastBranch l.rHost l.addr (.ok (s.wire[i]).bytes) s.receiver).map Prod.fst
      = some cb' → System.step l s (.arrive i)
        = some { s with receiver := cb', arrived := max s.arrived (i + 1) } := by
    intro cb' hcb'
    obtain ⟨r, hr, rfl⟩ := Option.map_eq_some_iff.mp hcb'
    rw [hstep, hr]
    rfl
  rcases Nat.lt_or_eq_of_le hi with hlt' | rfl
  · obtain ⟨cb', hcb', hq, hfol⟩ := h.follows.again l.rHost l.addr hown h.roomy hx hlt' hem hfit
      hudp (by omega)
    have hmax : max s.arrived (i + 1) = s.arrived := Nat.max_eq_left hlt'
    refine ⟨_, hgo cb' hcb', h.sent, h.bound, ?_, hq.owned, hq.roomy, hq.sent.trans h.silent, ?_⟩
    · simp only [hmax]
      exact h.arrived
    · simp only [hmax]
      exact hfol
  · obtain ⟨cb', hcb', hq, hfol⟩ := h.follows.next l.rHost l.addr hown h.roomy hem hfit hudp
      (by omega)
    have hmax : max s.arrived (s.arrived + 1) = s.arrived + 1 := Nat.max_eq_right (by omega)
    refine ⟨_, hgo cb' hcb', h.sent, h.bound, ?_, hq.owned, hq.roomy, hq.sent.trans h.silent, ?_⟩
    · simp only [hmax]
      exact hlt
    · simp only [hmax]
      rw [List.take_add_one, hx]
      exact hfol

theorem inStep_step (l : Link) {room : Nat} (hudp : room < 65536) {node sess : UInt32}
    {R : RmcCtrlBlock} (s : System) (ev : Event) (s' : System) (h : InStep room node sess R s)
    (hok : Allowed 4294967295 room s ev ∧ Fifo s ev) (hstep : System.step l s ev = some s') :
    InStep room node sess R s' := by
  obtain ⟨hallowed, hfifo⟩ := hok
  cases ev with
  | send payload =>
    obtain rfl := Option.some.inj hstep
    refine h.sender [payload] _ rfl rfl rfl rfl
      (sentInOrder_send h.sent l.sHost hallowed.2 hudp) ?_
    simp only [List.length_append, List.length_singleton]
    exact hallowed.1
  | hbeat =>
    obtain ⟨cb, hcb, rfl⟩ := Option.map_eq_some_iff.mp hstep
    exact h.sender [] _ (List.append_nil _).symm rfl rfl rfl
      (sentInOrder_hbeat h.sent l.sHost hallowed hudp hcb) h.bound
  | hear addr r =>
    obtain ⟨⟨cb, b⟩, hcb, rfl⟩ := Option.map_eq_some_iff.mp hstep
    have hsame := sameSender_mcastBranch _ _ _ hcb
    exact h.sender [] [] (List.append_nil _).symm (List.append_nil _).symm rfl
      rfl (h.sent.congr hsame.sequence hsame.id hsame.session) h.bound
  | ack =>
    obtain ⟨cb, hcb, rfl⟩ := Option.map_eq_some_iff.mp hstep
    obtain ⟨hseq, hid, hsess⟩ := ackBranch_frame hcb
    exact h.sender [] [] (List.append_nil _).symm (List.append_nil _).symm rfl
      rfl (h.sent.congr hseq hid hsess) h.bound
  | arrive i =>
    cases hx : s.wire[i]? with
    | none =>
      simp only [System.step, hx] at hstep
      cases hstep
    | some x =>
      obtain ⟨t, ht, hinv⟩ := h.arrive l hudp hfifo (List.getElem?_eq_some_iff.mp hx).1
      rw [hstep] at ht
      obtain rfl := Option.some.inj ht
      exact hinv

/-- **Exact delivery.** Over a network that keeps the order, with any
repetitions, every arrival is processed, the receiver sends nothing, and
once a heartbeat with number `q` has come as the first one, exactly the
messages from `q` up to the last one that has arrived are handed over,
each once and in order, and nothing is cached. -/
theorem delivered_exactly (l : Link) (g : Garbage) (a : InitArgs) {R : RmcCtrlBlock}
    {hand : List Nat} (hown : Owned R hand) (hnew : htblGet R.members a.id = none) {room : Nat}
    (hroom : Roomy room R) (hudp : room < 65536) (evs : List Event)
    (hok : Guarded (System.step l) (fun s ev => Allowed 4294967295 room s ev ∧ Fifo s ev)
      (.start g a R) evs) :
    Throughout (System.step l)
      (fun s => (∀ i ≤ s.arrived, i < s.wire.length → (System.step l s (.arrive i)).isSome)
        ∧ s.receiver.sent = R.sent
        ∧ (firstHbeat (s.wire.take s.arrived) = none → s.receiver.ipcOut = R.ipcOut)
        ∧ ∀ q, firstHbeat (s.wire.take s.arrived) = some q →
            ∃ mp rs, htblGet s.receiver.members a.id = some mp
              ∧ (s.receiver.mems mp).unseqMsgs = ∅
              ∧ s.receiver.ipcOut = R.ipcOut ++ rs
              ∧ rs.map IpcRecord.payload
                  = (s.payloads.take (dataCount (s.wire.take s.arrived))).drop q.toNat)
      (.start g a R) evs := by
  refine throughout_of_guarded (I := InStep room a.id a.session R) (inStep_step l hudp) ?_ ?_ hok
  · intro s h
    refine ⟨fun i hi hlt => ?_, h.silent, fun hnone => ?_, fun q hq => ?_⟩
    · obtain ⟨s', hs', -⟩ := h.arrive l hudp hi hlt
      rw [hs']
      rfl
    · cases h.follows with
      | unheard _ _ out_eq => exact out_eq
      | following q first => simp [first] at hnone
    · cases h.follows with
      | unheard first => simp [first] at hq
      | following q' first _ mp known _ _ cache rs out_eq payloads_eq =>
        obtain rfl := Option.some.inj (first.symm.trans hq)
        exact ⟨mp, rs, known, cache, out_eq, payloads_eq⟩
  · exact ⟨sentInOrder_init _ g a, Nat.zero_lt_succ _, Nat.le_refl _, ⟨hand, hown⟩, hroom, rfl,
      .unheard rfl hnew rfl⟩

/-- Node 1 sends a message before its first heartbeat and two after it;
a DATA message and the heartbeat arrive once more in between. -/
def inOrderWithRepeats : List Event :=
  [.send [10], .hbeat, .arrive 0, .arrive 1, .send [11], .arrive 2, .arrive 0, .send [12, 13],
    .hbeat, .arrive 1, .arrive 3, .arrive 2, .arrive 4]

theorem delivered_exactly_repeats :
    (run (System.step littleLink) (.start zeroGarbage plainArgs nodeTwo) inOrderWithRepeats).map
        (fun s => (firstHbeat (s.wire.take s.arrived), s.receiver.ipcOut.map IpcRecord.payload))
        = some (some 1, [[11], [12, 13]])
      ∧ Throughout (System.step littleLink)
        (fun s => (∀ i ≤ s.arrived, i < s.wire.length →
            (System.step littleLink s (.arrive i)).isSome)
          ∧ s.receiver.sent = nodeTwo.sent
          ∧ (firstHbeat (s.wire.take s.arrived) = none → s.receiver.ipcOut = nodeTwo.ipcOut)
          ∧ ∀ q, firstHbeat (s.wire.take s.arrived) = some q →
              ∃ mp rs, htblGet s.receiver.members plainArgs.id = some mp
                ∧ (s.receiver.mems mp).unseqMsgs = ∅
                ∧ s.receiver.ipcOut = nodeTwo.ipcOut ++ rs
                ∧ rs.map IpcRecord.payload
                    = (s.payloads.take (dataCount (s.wire.take s.arrived))).drop q.toNat)
        (.start zeroGarbage plainArgs nodeTwo) inOrderWithRepeats := by
  have hroom : Roomy 140 nodeTwo := roomy_rmcastInit zeroGarbage { plainArgs with id := 2 }
  exact ⟨by decide +kernel, delivered_exactly littleLink zeroGarbage plainArgs owned_nodeTwo rfl
    hroom (by decide) inOrderWithRepeats (by decide +kernel)⟩

/-- Node 1 has room for messages of 256 bytes and node 2 for 128. Of a
message of 200 bytes `recvfrom` stores 140 with the header; the length
field says 200, so the datagram is dropped. -/
theorem delivered_exactly_fails :
    (run (System.step littleLink) (.start zeroGarbage { plainArgs with maxMsgSize := 256 } nodeTwo)
        [.hbeat, .arrive 0, .send (List.replicate 200 7), .arrive 1]).map
        (fun s => (firstHbeat (s.wire.take s.arrived), dataCount (s.wire.take s.arrived),
          s.payloads, s.receiver.ipcOut))
      = some (some 0, 1, [List.replicate 200 7], []) := by
  decide +kernel

end Rms.V01
