/-
Rms.V01.EndToEndTheorems — what one client writes is what the other reads.

`client_to_client` is about the whole path: the stream to the sending
daemon, the datagrams, the cache of the receiving daemon, its records and
the calls of the receiving client. `Carried` composes what is known about
the parts. The sending daemon has multicast a prefix of what was written and the rest
is whole on its stream; between the daemons `InStep` holds, so nothing is
ever cached and every record has a `struct ipc_metadata` before it
(`headed_arrive`); hence every call of the client takes one whole record.
-/
import Rms.V01.EndToEnd
import Rms.V01.FifoTheorems
import Rms.V01.NetworkTheorems

namespace Rms.V01

open Rms.ByteMem Rms.Util Rms.Runs

/-! ## The receiving side -/

/-- The record of a message in sequence that came from `sender`. -/
def Headed (e : Endian) (sender : SockaddrIn) (r : IpcRecord) : Prop :=
  r.head = ipcMetadata e (UInt32.ofNat r.payload.length) sender

theorem ipcStream_headed {e : Endian} {sender : SockaddrIn} {rs : List IpcRecord}
    (h : ∀ r ∈ rs, Headed e sender r) :
    ipcStream rs = (rs.map IpcRecord.payload).flatMap (framed e sender) := by
  induction rs with
  | nil => rfl
  | cons r rs ih =>
    have hr : r.head = ipcMetadata e (UInt32.ofNat r.payload.length) sender :=
      h r (List.mem_cons_self ..)
    have hrest := ih fun r' hr' => h r' (List.mem_cons_of_mem _ hr')
    simp only [ipcStream, List.flatMap_cons, List.map_cons, framed, hr] at hrest ⊢
    rw [hrest]

/-- With nothing cached, what a message hands over comes from itself. -/
theorem handed_direct {α : Type*} {num : α → UInt32} {v : Option (Peer α)} {ev : PeerEvent α}
    (hempty : ∀ w, v = some w → w.unseqMsgs = ∅) {x : Handed α} (hx : x ∈ Peer.handed num v ev) :
    ∃ a, x = .direct a := by
  cases v with
  | none => cases hx
  | some w =>
    cases ev with
    | data a =>
      have hcount : htblCount w.unseqMsgs = 0 := by
        rw [hempty w rfl]
        rfl
      simp only [Peer.handed, arrive, hcount, release, List.map_nil] at hx
      split at hx
      · split at hx <;> cases hx
      · exact ⟨a, List.mem_singleton.mp hx⟩
    | hbeat session sequence => cases hx
    | leave => cases hx
    | other => cases hx

/-- With nothing cached for the sender of a datagram, the records it leads
to are headed. -/
theorem headed_mcastBranch {h : Host} {sender : SockaddrIn} {r : RecvResult} {flag : Bool}
    {cb cb' : RmcCtrlBlock} {hand : List Nat} (hown : Owned cb hand)
    (hempty : ∀ m, accepted h r cb = some m → ∀ mp,
      htblGet cb.members (m.hdrId h.endian) = some mp → (cb.mems mp).unseqMsgs = ∅)
    (hb : mcastBranch h sender r cb = some (cb', flag)) :
    ∃ rs, cb'.ipcOut = cb.ipcOut ++ rs ∧ ∀ r ∈ rs, Headed h.endian sender r := by
  refine ⟨_, ipcOut_view_mcastBranch hown hb, ?_⟩
  intro x hx
  cases hacc : accepted h r cb with
  | none =>
    rw [hacc] at hx
    cases hx
  | some m =>
    rw [hacc] at hx
    obtain ⟨y, hy, rfl⟩ := List.mem_map.mp hx
    have hnone : ∀ w, peerView h.endian cb (m.hdrId h.endian) = some w → w.unseqMsgs = ∅ := by
      intro w hw
      obtain ⟨v, hv, rfl⟩ := Option.map_eq_some_iff.mp hw
      obtain ⟨mp, hmp, rfl⟩ := Option.map_eq_some_iff.mp hv
      have hcache := hempty m hacc mp hmp
      simp only [Peer.map, Reassembly.map, RmcMember.peer, hcache, htblMap_empty]
    obtain ⟨v, rfl⟩ := handed_direct hnone hy
    rfl

/-- A datagram on the wire is of the sender. -/
theorem Emitted.datagram {node sess : UInt32} {payloads : List (List UInt8)} {k : Nat} {x : Sendto}
    (h : Emitted node sess payloads k x) : ∃ d : Datagram, x.bytes = d.bytes ∧ d.id = node := by
  cases h with
  | data d hb _ _ _ hid _ => exact ⟨d, hb, hid⟩
  | hbeat d f tail hb _ _ _ hid _ => exact ⟨d, hb, hid⟩

/-- While the receiver follows, nothing of the sender is cached. -/
theorem Follows.cache_empty {node sess : UInt32} {payloads : List (List UInt8)}
    {out : List IpcRecord} {seen : List Sendto} {cb : RmcCtrlBlock}
    (h : Follows node sess payloads out seen cb) {mp : Nat}
    (hmp : htblGet cb.members node = some mp) : (cb.mems mp).unseqMsgs = ∅ := by
  cases h with
  | unheard _ unknown => exact nomatch unknown.symm.trans hmp
  | following _ _ _ mp' known _ _ cache =>
    obtain rfl := Option.some.inj (known.symm.trans hmp)
    exact cache

/-- What is handed over was sent. -/
theorem Follows.mem_payloads {node sess : UInt32} {payloads : List (List UInt8)}
    {seen : List Sendto} {cb : RmcCtrlBlock} (h : Follows node sess payloads [] seen cb)
    {r : IpcRecord} (hr : r ∈ cb.ipcOut) : r.payload ∈ payloads := by
  cases h with
  | unheard _ _ out_eq =>
    rw [out_eq] at hr
    cases hr
  | following q _ _ _ _ _ _ _ rs out_eq payloads_eq =>
    rw [out_eq, List.nil_append] at hr
    have hmem := List.mem_map_of_mem (f := IpcRecord.payload) hr
    rw [payloads_eq] at hmem
    exact List.mem_of_mem_take (List.mem_of_mem_drop hmem)

/-- What arrives in order, or again, leads to headed records. -/
theorem headed_arrive (l : Link) {room : Nat} {node sess : UInt32} {R : RmcCtrlBlock}
    {s s' : System} (h : InStep room node sess R s) (hhdr : sizeofHdr ≤ room) {i : Nat}
    (hstep : System.step l s (.arrive i) = some s') :
    ∃ rs, s'.receiver.ipcOut = s.receiver.ipcOut ++ rs
      ∧ ∀ r ∈ rs, Headed l.rHost.endian l.addr r := by
  obtain ⟨hand, hown⟩ := h.owned
  cases hx : s.wire[i]? with
  | none =>
    simp only [System.step, hx] at hstep
    cases hstep
  | some x =>
    simp only [System.step, hx] at hstep
    obtain ⟨⟨cb, flag⟩, hb, rfl⟩ := Option.map_eq_some_iff.mp hstep
    obtain ⟨hem, hfit⟩ := h.sent.emitted i x hx
    obtain ⟨d, hbytes, hid⟩ := hem.datagram
    refine headed_mcastBranch hown ?_ hb
    intro m hacc mp hmp
    obtain ⟨rfl, hret⟩ := accepted_eq_some hacc
    have hsize := (roomy_iff.mp h.roomy).allocMsg.size _ hown.allocMsg_lt
    have hheld := holds_received_cut l.rHost rfl (hhdr.trans hsize) d
    rw [hbytes, hheld.id] at hmp
    exact h.follows.cache_empty (hid ▸ hmp)

/-! ## One step -/

/-- What holds all along the path from one client to the other. -/
structure Carried (l : Link) (room : Nat) (node sess : UInt32) (R : RmcCtrlBlock) (s : EndToEnd) :
    Prop where
  inStep : InStep room node sess R s.net
  sent : s.net.payloads <+: s.written
  pipe : s.pipe = (s.written.drop s.net.payloads.length).flatMap
    fun msg => (rmcastSend l.sHost.endian true msg).2
  short : ∀ msg ∈ s.written, sizeofHdr + msg.length ≤ room
  bound : s.written.length < 4294967295
  headed : ∀ r ∈ s.net.receiver.ipcOut, Headed l.rHost.endian l.addr r
  calls : s.lens.length ≤ s.net.receiver.ipcOut.length
  got : s.got = List.zipWith (cutTo l.addr) s.lens
    ((s.net.receiver.ipcOut.map IpcRecord.payload).take s.lens.length)
  stream : s.sock.stream = ipcStream (s.net.receiver.ipcOut.drop s.lens.length)

variable {l : Link} {room : Nat} {node sess : UInt32} {R : RmcCtrlBlock} {s s' : EndToEnd}

theorem Carried.write (h : Carried l room node sess R s) {data : List UInt8}
    (hok : Orderly l.sHost room s (.write data)) (hstep : s.step l (.write data) = some s') :
    Carried l room node sess R s' := by
  obtain rfl := Option.some.inj hstep
  refine ⟨h.inStep, h.sent.trans (List.prefix_append ..), ?_, ?_, ?_, h.headed, h.calls, h.got,
    h.stream⟩
  · simp only
    rw [h.pipe, List.drop_append_of_le_length h.sent.length_le, List.flatMap_append,
      List.flatMap_singleton]
  · intro msg hmsg
    rcases List.mem_append.mp hmsg with hmsg | hmsg
    · exact h.short msg hmsg
    · rw [List.mem_singleton.mp hmsg]
      exact hok.2
  · rw [List.length_append]
    exact hok.1

/-- The daemon reads the next message that was written, whole. -/
theorem Carried.read (h : Carried l room node sess R s) (hudp : room < 65536) {n k : Nat}
    (hok : Orderly l.sHost room s (.read n k)) (hstep : s.step l (.read n k) = some s') :
    Carried l room node sess R s' := by
  obtain ⟨p, hread, rfl⟩ := Option.map_eq_some_iff.mp hstep
  cases hmsgs : s.written.drop s.net.payloads.length with
  | nil =>
    have hpipe := h.pipe
    rw [hmsgs, List.flatMap_nil] at hpipe
    simp only [Pipe.step, EndToEnd.sending, hpipe] at hread
    split at hread
    · rename_i hget
      exact absurd hget.1.2.2 (Nat.not_le.mpr hget.1.1)
    · cases hread
  | cons msg more =>
    have hpipe : s.sending.stream = _ := h.pipe
    rw [hmsgs, List.flatMap_cons] at hpipe
    have hmem : msg ∈ s.written :=
      List.mem_of_mem_drop (hmsgs ▸ List.mem_cons_self .. : msg ∈ s.written.drop _)
    have hshort := h.short msg hmem
    obtain ⟨hdaemon, hrest, -, v, hmulticast⟩ := recv_front l.sHost (by omega) hpipe hok hread
    have hsent : (p.multicast.map fun x => x.bytes.drop sizeofHdr) = [msg] := by
      rw [hmulticast]
      rfl
    have hlt : s.net.payloads.length < s.written.length := by
      by_contra hge
      rw [List.drop_of_length_le (Nat.not_lt.mp hge)] at hmsgs
      cases hmsgs
    have hbound := h.bound
    have hnet := inStep_step l hudp s.net (.send msg) _ h.inStep
      ⟨⟨by omega, hshort⟩, trivial⟩ rfl
    simp only [hsent, hdaemon, hrest]
    refine ⟨hnet, ?_, ?_, h.short, h.bound, h.headed, h.calls, h.got, h.stream⟩
    · obtain ⟨tail, htail⟩ := h.sent
      rw [← htail, List.drop_left] at hmsgs
      rw [← htail, hmsgs]
      exact ⟨more, List.append_assoc ..⟩
    · simp only [List.length_append, List.length_singleton]
      rw [← List.drop_drop, hmsgs]
      rfl

/-- Whatever happens between the daemons only adds headed records. -/
theorem Carried.records (h : Carried l room node sess R s) (hhdr : sizeofHdr ≤ room)
    {ev : Event} (hev : ∀ payload, ev ≠ .send payload) {net : System}
    (hstep : System.step l s.net ev = some net) :
    net.payloads = s.net.payloads ∧ ∃ rs, net.receiver.ipcOut = s.net.receiver.ipcOut ++ rs
      ∧ ∀ r ∈ rs, Headed l.rHost.endian l.addr r := by
  cases ev with
  | send payload => exact absurd rfl (hev payload)
  | hbeat =>
    obtain ⟨cb, -, rfl⟩ := Option.map_eq_some_iff.mp hstep
    exact ⟨rfl, [], (List.append_nil _).symm, by simp⟩
  | hear addr r =>
    obtain ⟨r, -, rfl⟩ := Option.map_eq_some_iff.mp hstep
    exact ⟨rfl, [], (List.append_nil _).symm, by simp⟩
  | ack =>
    obtain ⟨cb, -, rfl⟩ := Option.map_eq_some_iff.mp hstep
    exact ⟨rfl, [], (List.append_nil _).symm, by simp⟩
  | arrive i =>
    refine ⟨?_, headed_arrive l h.inStep hhdr hstep⟩
    simp only [System.step] at hstep
    split at hstep
    · cases hstep
    · obtain ⟨r, -, rfl⟩ := Option.map_eq_some_iff.mp hstep
      rfl

theorem Carried.between (h : Carried l room node sess R s) (hudp : room < 65536)
    (hhdr : sizeofHdr ≤ room) {ev : Event} (hok : Orderly l.sHost room s (.net ev))
    (hstep : s.step l (.net ev) = some s') : Carried l room node sess R s' := by
  have hev : ∀ payload, ev ≠ .send payload := by
    rintro payload rfl
    cases hstep
  obtain ⟨net, hnet, rfl⟩ : ∃ net, System.step l s.net ev = some net ∧ s.goOn net = s' := by
    cases ev with
    | send payload => exact absurd rfl (hev payload)
    | _ => exact Option.map_eq_some_iff.mp hstep
  obtain ⟨hpay, rs, hout, hrs⟩ := h.records hhdr hev hnet
  refine ⟨inStep_step l hudp s.net ev net h.inStep hok hnet, ?_, ?_, h.short, h.bound, ?_, ?_,
    ?_, ?_⟩
  · simp only [EndToEnd.goOn, hpay]
    exact h.sent
  · simp only [EndToEnd.goOn, hpay]
    exact h.pipe
  · simp only [EndToEnd.goOn, hout]
    intro r hr
    rcases List.mem_append.mp hr with hr | hr
    · exact h.headed r hr
    · exact hrs r hr
  · simp only [EndToEnd.goOn, hout, List.length_append]
    exact Nat.le_add_right_of_le h.calls
  · simp only [EndToEnd.goOn, hout, List.map_append]
    rw [List.take_append_of_le_length (by rw [List.length_map]; exact h.calls)]
    exact h.got
  · simp only [EndToEnd.goOn, hout, List.drop_left]
    rw [h.stream, List.drop_append_of_le_length h.calls]
    simp only [ipcStream, List.flatMap_append]

/-- A call on a stream that has data takes the next record. -/
theorem Carried.call (h : Carried l room node sess R s) (hout : R.ipcOut = []) (hudp : room < 65536)
    {len : Int} (hlen : 0 ≤ len) (hne : s.sock.stream ≠ []) :
    ∃ r rest d, s.net.receiver.ipcOut.drop s.lens.length = r :: rest
      ∧ rmcastTimedRecvfrom l.rHost.endian true 1 len s.sock
        = some (cutTo l.addr len r.payload, ⟨ipcStream rest, d⟩) := by
  cases hrest : s.net.receiver.ipcOut.drop s.lens.length with
  | nil =>
    rw [h.stream, hrest] at hne
    exact absurd rfl hne
  | cons r rest =>
    have hmem : r ∈ s.net.receiver.ipcOut :=
      List.mem_of_mem_drop (hrest ▸ List.mem_cons_self .. : r ∈ s.net.receiver.ipcOut.drop _)
    have hshort : sizeofHdr + r.payload.length ≤ room := by
      apply h.short
      apply h.sent.subset
      have hfollows := h.inStep.follows
      rw [hout] at hfollows
      exact hfollows.mem_payloads hmem
    have hhead : r.head = ipcMetadata l.rHost.endian (UInt32.ofNat r.payload.length) l.addr :=
      h.headed r hmem
    have hcall := recv_message l.rHost.endian ⟨r.payload, l.addr, by omega⟩ hlen (ipcStream rest)
      s.sock.discardSize
    have hstream : s.sock
        = ⟨IpcMessage.bytes l.rHost.endian ⟨r.payload, l.addr, by omega⟩ ++ ipcStream rest,
            s.sock.discardSize⟩ := by
      rw [IpcMessage.bytes, ← hhead,
        show r.head ++ r.payload ++ ipcStream rest = ipcStream (r :: rest) from rfl, ← hrest,
        ← h.stream]
    rw [← hstream] at hcall
    exact ⟨r, rest, _, rfl, hcall⟩

theorem Carried.recv (h : Carried l room node sess R s) (hout : R.ipcOut = []) (hudp : room < 65536)
    {len : Int} (hlen : 0 ≤ len) (hstep : s.step l (.recv len) = some s') :
    Carried l room node sess R s' := by
  simp only [EndToEnd.step] at hstep
  split at hstep
  · obtain rfl := Option.some.inj hstep
    exact h
  · rename_i hstream
    obtain ⟨r, rest, d, hrest, hcall⟩ := h.call hout hudp hlen (by rw [hstream]; simp)
    rw [hcall] at hstep
    obtain rfl := Option.some.inj hstep
    have hlt : s.lens.length < s.net.receiver.ipcOut.length := by
      by_contra hge
      rw [List.drop_of_length_le (Nat.not_lt.mp hge)] at hrest
      cases hrest
    have hget : s.net.receiver.ipcOut[s.lens.length]? = some r := by
      rw [← List.head?_drop, hrest]
      rfl
    refine ⟨h.inStep, h.sent, h.pipe, h.short, h.bound, h.headed, ?_, ?_, ?_⟩
    · simp only [List.length_append, List.length_singleton]
      exact hlt
    · simp only [List.length_append, List.length_singleton]
      rw [List.take_add_one, List.getElem?_map, hget, h.got,
        List.zipWith_append (by rw [List.length_take, List.length_map]; omega)]
      rfl
    · simp only [List.length_append, List.length_singleton]
      rw [← List.drop_drop, hrest]
      rfl

theorem Carried.step (h : Carried l room node sess R s) (hout : R.ipcOut = [])
    (hudp : room < 65536) (hhdr : sizeofHdr ≤ room) {ev : ClientEvent}
    (hok : Orderly l.sHost room s ev) (hstep : s.step l ev = some s') : Carried l room node sess R s' := by
  cases ev with
  | write data => exact h.write hok hstep
  | read n k => exact h.read hudp hok hstep
  | net ev => exact h.between hudp hhdr hok hstep
  | recv len => exact h.recv hout hudp hok hstep

/-! ## Whole runs -/

/-- A call that may ask for any non-negative size never waits for bytes
that nobody writes. -/
theorem Carried.recv_isSome (h : Carried l room node sess R s) (hout : R.ipcOut = [])
    (hudp : room < 65536) {len : Int} (hlen : 0 ≤ len) : (s.step l (.recv len)).isSome := by
  simp only [EndToEnd.step]
  split
  · rfl
  · rename_i hstream
    obtain ⟨r, rest, d, -, hcall⟩ := h.call hout hudp hlen (by rw [hstream]; simp)
    rw [hcall]
    rfl

/-- The records of the receiving daemon are the messages that are due. -/
theorem Carried.due (h : Carried l room node sess R s) (hout : R.ipcOut = []) :
    s.net.receiver.ipcOut.map IpcRecord.payload = s.due := by
  have hcount := h.inStep.count_le
  have hfollows := h.inStep.follows
  rw [hout] at hfollows
  unfold EndToEnd.due
  cases hfollows with
  | unheard first _ out_eq =>
    rw [first, out_eq]
    rfl
  | following q first _ _ _ _ _ _ rs out_eq payloads_eq =>
    obtain ⟨tail, htail⟩ := h.sent
    rw [first, out_eq, List.nil_append, payloads_eq, ← htail, List.take_append_of_le_length hcount]

/-- An empty stream to the sending daemon means that all was multicast. -/
theorem Carried.all_sent (h : Carried l room node sess R s) (hpipe : s.pipe = []) :
    s.net.payloads = s.written := by
  refine h.sent.eq_of_length_le ?_
  by_contra hlt
  have hempty := h.pipe
  rw [hpipe, List.drop_eq_getElem_cons (Nat.not_le.mp hlt), List.flatMap_cons] at hempty
  have hlen := congrArg List.length hempty
  rw [List.length_append, rmcastSend_bytes, List.length_append, enc32_length] at hlen
  exact absurd hlen (by simp only [List.length_nil]; omega)

/-- **From client to client.** Over a network that keeps the order, with
any repetitions, with whole reads and messages that fit into the buffers
of both nodes, and with any interleaving of what the clients and the
daemons do: the calls of the receiving client have returned the messages
that are due to it, each once, in order and cut to the buffer of its
call; the others that are due are whole on its stream, and a call never
blocks on a part of one. Once the sender's stream is empty and everything
has arrived, all messages from the first heartbeat on are due. -/
theorem client_to_client (l : Link) (g g' : Garbage) (a a' : InitArgs) (d : Int) {room : Nat}
    (hroom : room = min (max 128 a.maxMsgSize).toNat (max 128 a'.maxMsgSize).toNat + sizeofHdr)
    (hudp : room < 65536) (evs : List ClientEvent)
    (hok : Guarded (EndToEnd.step l) (Orderly l.sHost room) (.start g g' a a' d) evs) :
    Throughout (EndToEnd.step l)
      (fun s => s.got = List.zipWith (cutTo l.addr) s.lens s.due
        ∧ s.lens.length ≤ s.due.length
        ∧ s.sock.stream = (s.due.drop s.lens.length).flatMap (framed l.rHost.endian l.addr)
        ∧ (∀ len, 0 ≤ len → (s.step l (.recv len)).isSome)
        ∧ (s.pipe = [] → s.net.arrived = s.net.wire.length →
            ∀ q, firstHbeat s.net.wire = some q → s.due = s.written.drop q.toNat))
      (.start g g' a a' d) evs := by
  obtain ⟨-, hmembers, hout⟩ := rmcastInit_node g' a'
  have hhdr : sizeofHdr ≤ room := hroom ▸ Nat.le_add_left ..
  have hroomy : Roomy room (rmcastInit g' a') := by
    have hle : room ≤ (max 128 a'.maxMsgSize).toNat + sizeofHdr :=
      hroom ▸ Nat.add_le_add_right (Nat.min_le_right ..) _
    have hfull := roomy_rmcastInit g' a'
    exact ⟨hle.trans hfull.bufsize, fun p hp => hle.trans (hfull.size p hp)⟩
  refine throughout_of_guarded (I := Carried l room a.id a.session (rmcastInit g' a'))
    (fun s ev s' h => h.step hout hudp hhdr) ?_ ?_ hok
  · intro s h
    have hdue := h.due hout
    have hlens : s.lens.length ≤ s.due.length := by
      rw [← hdue, List.length_map]
      exact h.calls
    refine ⟨?_, hlens, ?_, fun len => h.recv_isSome hout hudp, ?_⟩
    · -- the calls so far pair up with as many of the messages
      have hlen : s.lens.length = (s.due.take s.lens.length).length :=
        (List.length_take_of_le hlens).symm
      have hpair : List.zipWith (cutTo l.addr) (s.lens ++ [])
          (s.due.take s.lens.length ++ s.due.drop s.lens.length)
            = List.zipWith (cutTo l.addr) s.lens (s.due.take s.lens.length) ++ [] :=
        List.zipWith_append hlen
      rw [List.append_nil, List.take_append_drop, List.append_nil] at hpair
      rw [h.got, hdue, hpair]
    · rw [h.stream, ipcStream_headed fun r hr => h.headed r (List.mem_of_mem_drop hr),
        List.map_drop, hdue]
    · intro hpipe harrived q hq
      have hsent := h.all_sent hpipe
      rw [EndToEnd.due, harrived, List.take_length, hq, h.inStep.sent.count, hsent,
        List.take_length]
  · refine ⟨⟨sentInOrder_init _ g a, Nat.zero_lt_succ _, Nat.le_refl _,
      ⟨[], owned_rmcastInit g' a'⟩, hroomy, rfl, .unheard rfl ?_ rfl⟩,
      List.prefix_rfl, rfl, by simp [EndToEnd.start], Nat.zero_lt_succ _, ?_, Nat.zero_le _, rfl,
      ?_⟩
    · rw [show (EndToEnd.start g g' a a' d).net.receiver = rmcastInit g' a' from rfl, hmembers]
      exact htblGet_empty _
    · intro r hr
      rw [show (EndToEnd.start g g' a a' d).net.receiver = rmcastInit g' a' from rfl, hout] at hr
      cases hr
    · rw [show (EndToEnd.start g g' a a' d).net.receiver = rmcastInit g' a' from rfl, hout]
      rfl

/-- Two messages, the second one longer than the buffer it is read into,
and the first one received twice. -/
def twoMessages : List ClientEvent :=
  [.net .hbeat, .net (.arrive 0), .write [10], .write [20, 21, 22], .read 4 1, .net (.arrive 1),
    .recv 4, .read 4 3, .net (.arrive 1), .net (.arrive 2), .recv 2, .recv 2]

theorem client_to_client_two :
    ((run (EndToEnd.step littleLink)
        (.start zeroGarbage zeroGarbage plainArgs { plainArgs with id := 2 } 0) twoMessages).map
      fun s => s.got) = some [cutTo littleLink.addr 4 [10], cutTo littleLink.addr 2 [20, 21, 22]]
    ∧ Throughout (EndToEnd.step littleLink)
      (fun s => s.got = List.zipWith (cutTo littleLink.addr) s.lens s.due
        ∧ s.lens.length ≤ s.due.length
        ∧ s.sock.stream = (s.due.drop s.lens.length).flatMap
            (framed littleLink.rHost.endian littleLink.addr)
        ∧ (∀ len, 0 ≤ len → (s.step littleLink (.recv len)).isSome)
        ∧ (s.pipe = [] → s.net.arrived = s.net.wire.length →
            ∀ q, firstHbeat s.net.wire = some q → s.due = s.written.drop q.toNat))
      (.start zeroGarbage zeroGarbage plainArgs { plainArgs with id := 2 } 0) twoMessages :=
  ⟨by decide +kernel, client_to_client littleLink zeroGarbage zeroGarbage plainArgs
    { plainArgs with id := 2 } 0 rfl (by decide) twoMessages (by decide +kernel)⟩

end Rms.V01
