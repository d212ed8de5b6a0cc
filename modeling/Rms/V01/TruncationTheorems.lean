/-
Rms.V01.TruncationTheorems — receiving into a buffer that is too short.

A record on the client's stream is a `struct ipc_metadata` and the
message it announces. `rmcast_timed_recvfrom` reads a message that fits
with one `recv`; of a longer one it reads what fits, and the rest into
`discard`, which it lets grow first. Either way one call takes one whole
record from the stream (`recv_message`), so any mix of short and long
buffers leaves the calls in step with the records (`recvCalls_truncates`).
-/
import Rms.V01.Client
import Rms.V01.Wire

namespace Rms.V01

open Rms.ByteMem

/-! ## Records -/

/-- A message for the client. Its length is an `int`. -/
structure IpcMessage where
  payload : List UInt8
  sender : SockaddrIn
  length_lt : payload.length < 2147483648

/-- The record that carries it. -/
def IpcMessage.bytes (e : Endian) (m : IpcMessage) : List UInt8 :=
  ipcMetadata e (UInt32.ofNat m.payload.length) m.sender ++ m.payload

/-- What a call with a buffer of `len` bytes is to return. -/
def IpcMessage.cut (len : Int) (m : IpcMessage) : Received :=
  ⟨min len m.payload.length, m.payload.take (min len m.payload.length).toNat, m.sender.bytes⟩

/-- What such a call is to throw away. -/
def IpcMessage.rest (len : Int) (m : IpcMessage) : List UInt8 := m.payload.drop len.toNat

theorem ipcMetadata_length (e : Endian) (n : UInt32) (addr : SockaddrIn) :
    (ipcMetadata e n addr).length = sizeofIpcMetadata := by
  rw [ipcMetadata, List.length_append, enc32_length, addr.length_eq]
  rfl

theorem ipcMetadata_addr (e : Endian) (n : UInt32) (addr : SockaddrIn) :
    (ipcMetadata e n addr).drop sizeofLong = addr.bytes := by
  exact List.drop_left' (enc32_length e n)

/-- The length word of a metadata structure is read as it was written. -/
theorem ipcNbytes_metadata (e : Endian) {n : Nat} (hn : n < 2147483648) (addr : SockaddrIn) :
    ipcNbytes e (ipcMetadata e (UInt32.ofNat n) addr) = n := by
  have hnat : (UInt32.ofNat n).toNat = n := by
    rw [UInt32.toNat_ofNat']
    exact Nat.mod_eq_of_lt (by omega)
  rw [ipcNbytes, ipcMetadata, load32_enc32_append, toInt32, hnat, if_pos hn]

/-! ## One call -/

variable {m : IpcMessage} {len : Int}

theorem recvExact_metadata (e : Endian) (m : IpcMessage) (rest : List UInt8) :
    recvExact sizeofIpcMetadata (m.bytes e ++ rest)
      = some (ipcMetadata e (UInt32.ofNat m.payload.length) m.sender, m.payload ++ rest) := by
  rw [IpcMessage.bytes, List.append_assoc]
  exact recvExact_append (ipcMetadata_length e _ m.sender) (m.payload ++ rest)

/-- Behind the metadata of a record, the call is in `recvData`. -/
theorem rmcastTimedRecvfrom_metadata (e : Endian) (m : IpcMessage) (len : Int)
    (rest : List UInt8) (d : Int) :
    rmcastTimedRecvfrom e true 1 len ⟨m.bytes e ++ rest, d⟩
      = recvData len m.payload.length m.sender.bytes ⟨m.payload ++ rest, d⟩ := by
  simp only [rmcastTimedRecvfrom, recvExact_metadata, ipcNbytes_metadata e m.length_lt,
    ipcMetadata_addr]
  rfl

/-- A message that does not fit, in the two parts in which it is read. -/
theorem recvExact_parts (hlen : 0 ≤ len) (hlong : len < m.payload.length) (rest : List UInt8) :
    recvExact (sizeT len) (m.payload ++ rest)
        = some (m.payload.take len.toNat, m.rest len ++ rest)
      ∧ recvExact (sizeT (m.payload.length - len)) (m.rest len ++ rest)
        = some (m.rest len, rest) := by
  have hlt := m.length_lt
  have hfirst : sizeT len = len.toNat := by
    simp only [sizeT]
    omega
  have hsecond : sizeT (m.payload.length - len) = m.payload.length - len.toNat := by
    simp only [sizeT]
    omega
  constructor
  · have happ := recvExact_append (List.length_take_of_le (by omega : len.toNat ≤ m.payload.length))
      (m.rest len ++ rest)
    rw [← List.append_assoc, IpcMessage.rest, List.take_append_drop] at happ
    rw [hfirst]
    exact happ
  · rw [hsecond]
    exact recvExact_append (List.length_drop ..) rest

/-- **One call takes one record from the stream** and returns as much of its
message as fits. -/
theorem recv_message (e : Endian) (m : IpcMessage) (hlen : 0 ≤ len) (rest : List UInt8) (d : Int) :
    rmcastTimedRecvfrom e true 1 len ⟨m.bytes e ++ rest, d⟩
      = some (m.cut len, ⟨rest, if m.payload.length ≤ len then d
          else max d (m.payload.length - len)⟩) := by
  have hlt := m.length_lt
  rw [rmcastTimedRecvfrom_metadata]
  unfold recvData
  split
  · rename_i hfits
    have hdata : recvExact (sizeT (m.payload.length : Int)) (m.payload ++ rest)
        = some (m.payload, rest) := recvExact_append (sizeT_natCast (by omega)).symm rest
    simp only [hdata, IpcMessage.cut, Int.min_eq_right hfits, Int.toNat_natCast, List.take_length]
  · rename_i hlong
    obtain ⟨hfirst, hsecond⟩ := recvExact_parts (m := m) hlen (by omega) rest
    have hmin : min len m.payload.length = len := Int.min_eq_left (by omega)
    have hret : ((m.payload.take len.toNat).length : Int) = len := by
      rw [List.length_take]
      omega
    simp only [hfirst, hsecond, IpcMessage.cut, hmin, hret]

/-- What is thrown away has room in the discard buffer. -/
theorem recvDiscard_message (m : IpcMessage) (hlen : 0 ≤ len) (rest : List UInt8) (d : Int) :
    ∀ w ∈ recvDiscard len m.payload.length ⟨m.payload ++ rest, d⟩,
      w.1 = m.rest len ∧ (w.1.length : Int) ≤ w.2 := by
  intro w hw
  unfold recvDiscard at hw
  split at hw
  · cases hw
  · rename_i hlong
    obtain ⟨hfirst, hsecond⟩ := recvExact_parts (m := m) hlen (by omega) rest
    simp only [hfirst, hsecond, Option.map_some, Option.mem_def, Option.some.injEq] at hw
    subst hw
    refine ⟨rfl, ?_⟩
    rw [IpcMessage.rest, List.length_drop]
    split <;> omega

/-! ## Successive calls -/

/-- **Truncation keeps the calls in step with the records.** Whatever the
sizes of the buffers, every call returns what it is to return of its
record, the discard buffer is never too small, and the stream is used
up. -/
theorem recvCalls_truncates (e : Endian) (ms : List IpcMessage) :
    ∀ {lens : List Int} (d : Int), lens.length = ms.length → (∀ len ∈ lens, 0 ≤ len) →
      ∃ d', recvCalls e lens ⟨ms.flatMap (IpcMessage.bytes e), d⟩
          = some (List.zipWith IpcMessage.cut lens ms, ⟨[], d'⟩)
        ∧ ∀ w ∈ discardCalls e lens ⟨ms.flatMap (IpcMessage.bytes e), d⟩,
            (w.1.length : Int) ≤ w.2 := by
  induction ms with
  | nil =>
    intro lens d hlength _
    obtain rfl := List.eq_nil_of_length_eq_zero hlength
    exact ⟨d, rfl, by simp [discardCalls]⟩
  | cons m ms ih =>
    intro lens d hlength hlens
    cases lens with
    | nil => cases hlength
    | cons len lens =>
      have hlen := hlens len (List.mem_cons_self ..)
      have hcall := recv_message e m hlen (ms.flatMap (IpcMessage.bytes e)) d
      obtain ⟨d', hcalls, hdiscards⟩ := ih (if m.payload.length ≤ len then d
          else max d (m.payload.length - len)) (Nat.succ.inj hlength)
        (fun len' hlen' => hlens len' (List.mem_cons_of_mem _ hlen'))
      refine ⟨d', ?_, ?_⟩
      · simp only [recvCalls, List.flatMap_cons, hcall, hcalls, List.zipWith_cons_cons]
      · intro w hw
        simp only [discardCalls, List.flatMap_cons, hcall, recvExact_metadata,
          ipcNbytes_metadata e m.length_lt, List.mem_append, Option.mem_toList] at hw
        cases hw with
        | inl hw => exact (recvDiscard_message m hlen _ d w hw).2
        | inr hw => exact hdiscards w hw

/-- An address of one byte repeated. -/
def filledAddr (b : UInt8) : SockaddrIn := ⟨List.replicate 16 b, List.length_replicate⟩

/-- A message of three bytes and one of one byte. -/
def threeAndOne : List IpcMessage :=
  [⟨[7, 8, 9], filledAddr 0, by decide⟩, ⟨[5], filledAddr 1, by decide⟩]

theorem recvCalls_truncates_threeAndOne :
    [(1 : Int), 2].length = threeAndOne.length
      ∧ ∃ d', recvCalls .little [1, 2] ⟨threeAndOne.flatMap (IpcMessage.bytes .little), 0⟩
        = some ([⟨1, [7], List.replicate 16 0⟩, ⟨1, [5], List.replicate 16 1⟩], ⟨[], d'⟩) := by
  have hlength : [(1 : Int), 2].length = threeAndOne.length := rfl
  obtain ⟨d', hcalls, -⟩ := recvCalls_truncates .little threeAndOne 0 hlength (by decide)
  exact ⟨hlength, d', hcalls⟩

end Rms.V01
