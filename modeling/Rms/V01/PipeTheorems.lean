/-
Rms.V01.PipeTheorems — the stream from a client to its daemon.

The client writes messages with `rmcast_send`, at any time; the daemon's
IPC branch takes bytes off the stream with two calls of `recv`, each of
which returns some non-empty part of what it asked for and is there. In
between the rest of the daemon's loop runs.

If every call returns all it asks for, the messages that were multicast
are the first ones written and the stream holds the others
(`pipe_framing`). The daemon asks for a length and a body only once each,
so a call that returns less shifts the boundary (`pipe_framing_fails`).
-/
import Rms.V01.Client
import Rms.V01.SendTheorems
import Rms.V01.PoolTheorems
import Rms.Lib.Runs

namespace Rms.V01

open Rms.ByteMem Rms.Runs

/-! ## The system -/

/-- The daemon, the bytes on the stream, and two history variables: the
messages written, and what the IPC branch has multicast. -/
structure Pipe where
  daemon : RmcCtrlBlock
  stream : List UInt8
  msgs : List (List UInt8)
  multicast : List Sendto

/-- The client sends, the IPC branch runs with `recv`s of `n` and of `k`
bytes, or the rest of the loop runs. -/
inductive PipeEvent where
  | send (data : List UInt8)
  | recv (n k : Nat)
  | loop (i : Iteration)

def Pipe.start (cb : RmcCtrlBlock) : Pipe := ⟨cb, [], [], []⟩

/-- What the sockets do when the first `recv` returns `n` bytes of the
stream and the second one `k`, and the message is sent. -/
def Pipe.input (s : Pipe) (n k : Nat) : IpcInput :=
  { len := .ok (s.stream.take n), body := .ok ((s.stream.drop n).take k)
    sendto := (k : Int) + sizeofHdr }

/-- How many bytes the second `recv` asks for. -/
def Pipe.asks (h : Host) (s : Pipe) (n : Nat) : Nat := sizeT (ipcLen h (s.input n 0) s.daemon)

def Pipe.step (h : Host) (s : Pipe) : PipeEvent → Option Pipe
  | .send data =>
      some { s with stream := s.stream ++ (rmcastSend h.endian true data).2
                    msgs := s.msgs ++ [data] }
  | .recv n k =>
      if (0 < n ∧ n ≤ sizeofLong ∧ n ≤ s.stream.length)
          ∧ k ≤ s.asks h n ∧ k ≤ (s.stream.drop n).length ∧ (0 < s.asks h n → 0 < k) then
        let cb := ipcBranch h (s.input n k) s.daemon
        some { s with daemon := cb
                      stream := (s.stream.drop n).drop k
                      multicast := s.multicast ++ cb.sent.drop s.daemon.sent.length }
      else none
  | .loop i => (iteration h s.daemon { i with ipc := none }).map fun cb => { s with daemon := cb }

/-- Every message fits a datagram. -/
def FitsDatagram : PipeEvent → Prop
  | .send data => data.length + sizeofHdr ≤ 65507
  | _ => True

instance : ∀ ev, Decidable (FitsDatagram ev)
  | .send data => inferInstanceAs (Decidable (data.length + sizeofHdr ≤ 65507))
  | .recv _ _ => isTrue trivial
  | .loop _ => isTrue trivial

/-- Every `recv` returns all it asks for: the length word, and then as
many bytes as the word at the front of the stream says. -/
def WholeReads (h : Host) (s : Pipe) : PipeEvent → Prop
  | .recv n k =>
      n = sizeofLong ∧ (k : Int) = toInt32 (load32 h.endian (fun i => s.stream.getD i 0) 0)
  | _ => True

instance (h : Host) (s : Pipe) : ∀ ev, Decidable (WholeReads h s ev)
  | .recv n k => inferInstanceAs (Decidable (n = sizeofLong
      ∧ (k : Int) = toInt32 (load32 h.endian (fun i => s.stream.getD i 0) 0)))
  | .send _ => isTrue trivial
  | .loop _ => isTrue trivial

/-- A datagram is DATA and carries a message. -/
def Carries (x : Sendto) (msg : List UInt8) : Prop :=
  ∃ d : Datagram, x.bytes = d.bytes ∧ d.type = MsgType.data.toByte
    ∧ d.length.toNat = d.body.length ∧ d.body = msg

/-! ## Whole reads -/

/-- The bytes of a message on the stream. -/
theorem rmcastSend_bytes (e : Endian) (data : List UInt8) :
    (rmcastSend e true data).2 = enc32 e (UInt32.ofNat data.length) ++ data := rfl

/-- With a whole message at the front of the stream, whole reads are the
input that `ipcBranch_whole` is about. -/
theorem input_whole (h : Host) {s : Pipe} {msg rest : List UInt8}
    (hs : s.stream = (rmcastSend h.endian true msg).2 ++ rest) :
    s.input sizeofLong msg.length = .whole h.endian msg
      ∧ (s.stream.drop sizeofLong).drop msg.length = rest := by
  have hword : (enc32 h.endian (UInt32.ofNat msg.length)).length = sizeofLong := enc32_length _ _
  rw [rmcastSend_bytes, List.append_assoc] at hs
  have hdrop : s.stream.drop sizeofLong = msg ++ rest := by
    rw [hs]
    exact List.drop_left' hword
  constructor
  · unfold Pipe.input IpcInput.whole
    rw [hdrop, hs, List.take_left' hword, List.take_left]
  · rw [hdrop, List.drop_left]

/-- The length word of a message at the front of the stream. -/
theorem load32_front (h : Host) {msg : List UInt8} (hlen : msg.length < 65536)
    (rest : List UInt8) :
    toInt32 (load32 h.endian (fun i => ((rmcastSend h.endian true msg).2 ++ rest).getD i 0) 0)
      = msg.length := by
  have hnat : (UInt32.ofNat msg.length).toNat = msg.length := by
    rw [UInt32.toNat_ofNat']
    exact Nat.mod_eq_of_lt (by omega)
  rw [rmcastSend_bytes, List.append_assoc, load32_enc32_append, toInt32, hnat, if_pos (by omega)]

/-- **One whole read** takes the message at the front of the stream and
multicasts it. -/
theorem recv_front (h : Host) {s s' : Pipe} {msg rest : List UInt8} (hlen : msg.length < 65536)
    (hs : s.stream = (rmcastSend h.endian true msg).2 ++ rest) {n k : Nat}
    (hwhole : WholeReads h s (.recv n k)) (hstep : s.step h (.recv n k) = some s') :
    s'.daemon = ipcBranch h (.whole h.endian msg) s.daemon ∧ s'.stream = rest ∧ s'.msgs = s.msgs
      ∧ ∃ v, s'.multicast
          = s.multicast ++ [⟨.mcast, (dataDgram v s.daemon.self msg).bytes, false⟩] := by
  obtain ⟨rfl, hk⟩ := hwhole
  rw [hs, load32_front h hlen rest] at hk
  obtain rfl : k = msg.length := by exact_mod_cast hk
  obtain ⟨hinput, hrest⟩ := input_whole h hs
  obtain ⟨v, hsent, -⟩ := ipcBranch_whole h s.daemon hlen
  unfold Pipe.step at hstep
  simp only at hstep
  split at hstep
  · cases hstep
    rw [hinput, hsent, List.drop_left, hrest]
    exact ⟨rfl, rfl, rfl, v, rfl⟩
  · cases hstep

/-- What holds all along a run of whole reads. -/
structure Flows (e : Endian) (s : Pipe) : Prop where
  short : ∀ msg ∈ s.msgs, msg.length + sizeofHdr ≤ 65507
  count : s.multicast.length ≤ s.msgs.length
  carried : List.Forall₂ Carries s.multicast (s.msgs.take s.multicast.length)
  stream : s.stream = (s.msgs.drop s.multicast.length).flatMap fun msg => (rmcastSend e true msg).2

theorem flows_step (h : Host) (s : Pipe) (ev : PipeEvent) (s' : Pipe) (hf : Flows h.endian s)
    (hok : FitsDatagram ev ∧ WholeReads h s ev) (hstep : s.step h ev = some s') :
    Flows h.endian s' := by
  obtain ⟨hfits, hwhole⟩ := hok
  cases ev with
  | send data =>
    cases hstep
    refine ⟨?_, ?_, ?_, ?_⟩
    · intro msg hmsg
      rcases List.mem_append.mp hmsg with hmsg | hmsg
      · exact hf.short msg hmsg
      · rw [List.mem_singleton.mp hmsg]
        exact hfits
    · rw [List.length_append]
      exact Nat.le_add_right_of_le hf.count
    · simp only
      rw [List.take_append_of_le_length hf.count]
      exact hf.carried
    · simp only
      rw [hf.stream, List.drop_append_of_le_length hf.count, List.flatMap_append,
        List.flatMap_singleton]
  | loop i =>
    obtain ⟨cb, -, rfl⟩ := Option.map_eq_some_iff.mp hstep
    exact ⟨hf.short, hf.count, hf.carried, hf.stream⟩
  | recv n k =>
    cases hmsgs : s.msgs.drop s.multicast.length with
    | nil =>
      have hempty := hf.stream
      rw [hmsgs] at hempty
      simp only [Pipe.step, hempty] at hstep
      split at hstep
      · rename_i hget
        exact absurd hget.1.2.2 (Nat.not_le.mpr hget.1.1)
      · cases hstep
    | cons msg more =>
      have hstream := hf.stream
      rw [hmsgs, List.flatMap_cons] at hstream
      have hmem : msg ∈ s.msgs := by
        apply List.mem_of_mem_drop (i := s.multicast.length)
        rw [hmsgs]
        exact List.mem_cons_self ..
      have hshort := hf.short msg hmem
      have hlen : msg.length < 65536 := by
        simp only [sizeofHdr] at hshort
        omega
      obtain ⟨-, hrest, hsame, v, hmulticast⟩ := recv_front h hlen hstream hwhole hstep
      have hlt : s.multicast.length < s.msgs.length := by
        by_contra hge
        rw [List.drop_of_length_le (Nat.not_lt.mp hge)] at hmsgs
        cases hmsgs
      have hget : s.msgs[s.multicast.length]? = some msg := by
        rw [← List.head?_drop, hmsgs]
        rfl
      have hcount : s'.multicast.length = s.multicast.length + 1 := by
        rw [hmulticast, List.length_append, List.length_singleton]
      refine ⟨hsame ▸ hf.short, ?_, ?_, ?_⟩
      · rw [hcount, hsame]
        exact hlt
      · rw [hcount, hsame, hmulticast, List.take_add_one, hget]
        refine List.rel_append hf.carried (List.Forall₂.cons ?_ .nil)
        refine ⟨dataDgram v s.daemon.self msg, rfl, rfl, ?_, rfl⟩
        simp only [dataDgram, UInt16.toNat_ofNat']
        exact Nat.mod_eq_of_lt hlen
      · rw [hcount, hsame, hrest, ← List.drop_drop, hmsgs]
        rfl

/-- **Client to daemon.** As long as every `recv` of the IPC branch returns
all it asks for, the DATA datagrams multicast carry the messages written,
in order, and the messages not yet multicast are whole on the stream. -/
theorem pipe_framing (h : Host) (cb : RmcCtrlBlock) (evs : List PipeEvent)
    (hok : Guarded (Pipe.step h) (fun s ev => FitsDatagram ev ∧ WholeReads h s ev) (.start cb)
      evs) :
    Throughout (Pipe.step h)
      (fun s => List.Forall₂ Carries s.multicast (s.msgs.take s.multicast.length)
        ∧ s.stream = (s.msgs.drop s.multicast.length).flatMap
            fun msg => (rmcastSend h.endian true msg).2)
      (.start cb) evs := by
  refine throughout_of_guarded (I := Flows h.endian) (flows_step h) ?_ ?_ hok
  · intro s hf
    exact ⟨hf.carried, hf.stream⟩
  · exact ⟨by simp [Pipe.start], Nat.le_refl _, .nil, rfl⟩

/-- Three messages, of which two are on the stream together; a heartbeat
is due in between. -/
def threeWritten : List PipeEvent :=
  [.send [7], .send [8, 9], .recv 4 1, .loop { mcast := none, ipc := none, hbeat := true },
    .send [10], .recv 4 2, .recv 4 1]

theorem pipe_framing_threeWritten :
    (run (Pipe.step littleHost) (.start (rmcastInit zeroGarbage plainArgs)) threeWritten).map
        (fun s => s.multicast.map fun x => x.bytes.drop sizeofHdr) = some [[7], [8, 9], [10]]
      ∧ Throughout (Pipe.step littleHost)
        (fun s => List.Forall₂ Carries s.multicast (s.msgs.take s.multicast.length)
          ∧ s.stream = (s.msgs.drop s.multicast.length).flatMap
              fun msg => (rmcastSend .little true msg).2)
        (.start (rmcastInit zeroGarbage plainArgs)) threeWritten :=
  ⟨by decide +kernel, pipe_framing littleHost (rmcastInit zeroGarbage plainArgs) threeWritten
    (by decide +kernel)⟩

/-- The first `recv` returns two of the four bytes of the length. The
datagram then carries the third one. -/
theorem pipe_framing_fails :
    ∃ s, run (Pipe.step littleHost) (.start (rmcastInit zeroGarbage plainArgs))
        [.send [7], .recv 2 1] = some s
      ∧ s.multicast.map (fun x => x.bytes.drop sizeofHdr) = [[0]]
      ∧ ¬ List.Forall₂ Carries s.multicast (s.msgs.take s.multicast.length) := by
  have h : (run (Pipe.step littleHost) (.start (rmcastInit zeroGarbage plainArgs))
      [.send [7], .recv 2 1]).map
      (fun s => (s.multicast.map (fun x => x.bytes.drop sizeofHdr), s.msgs))
      = some ([[0]], [[7]]) := by
    decide +kernel
  obtain ⟨s, hrun, hs⟩ := Option.map_eq_some_iff.mp h
  simp only [Prod.mk.injEq] at hs
  refine ⟨s, hrun, hs.1, fun hc => ?_⟩
  cases hm : s.multicast with
  | nil =>
    rw [hm] at hs
    cases hs.1
  | cons x xs =>
    rw [hm] at hs hc
    rw [hs.2, List.length_cons, List.take_succ_cons] at hc
    cases hc with
    | cons hx _ =>
      obtain ⟨d, hb, -, -, hbody⟩ := hx
      have hdrop : x.bytes.drop sizeofHdr = d.body := by
        rw [hb]
        rfl
      rw [List.map_cons, hdrop, hbody] at hs
      exact absurd hs.1 (by simp)

end Rms.V01
