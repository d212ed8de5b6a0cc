/-
Rms.V01.Peer — the receiver as a machine of one peer.

What the datagram switch keeps about a peer is a session, a place in the
sequence and the messages that came ahead of their turn. `Peer.next` is
what one message of that peer does to it, `Peer.handed` what the message
hands to the client, both over messages of any type: the daemon is shown
to refine this machine with buffers as messages, and, since the machine
commutes with every relabelling of the messages (`next_map`,
`handed_map`), with their contents as well (`PeerTheorems`).
-/
import Rms.V01.ReassemblyTheorems

namespace Rms.V01

open Rms.Util

/-- A registered peer. -/
structure Peer (α : Type*) extends Reassembly α where
  session : UInt32

/-- What a message means to the machine of its sender. -/
inductive PeerEvent (α : Type*) where
  | data (a : α)
  | hbeat (session sequence : UInt32)
  | leave
  | other

variable {α β : Type*}

/-- One message of the peer; `none` stands for a peer that is not
registered. A new session moves the place in the sequence and keeps the
cache. -/
def Peer.next (num : α → UInt32) : Option (Peer α) → PeerEvent α → Option (Peer α)
  | none, .hbeat session sequence =>
      some { sequence := sequence - 1, unseqMsgs := ∅, session := session }
  | none, _ => none
  | some v, .data a => some { v with toReassembly := (arrive num v.toReassembly a).1 }
  | some v, .hbeat session sequence =>
      if session ≠ v.session then some { v with session := session, sequence := sequence - 1 }
      else some v
  | some _, .leave => none
  | some v, .other => some v

@[simp] theorem Peer.next_leave {num : α → UInt32} (v : Option (Peer α)) :
    Peer.next num v .leave = none := by
  cases v <;> rfl

@[simp] theorem Peer.next_other {num : α → UInt32} (v : Option (Peer α)) :
    Peer.next num v .other = v := by
  cases v <;> rfl

/-- What one message of the peer hands to the client. -/
def Peer.handed (num : α → UInt32) : Option (Peer α) → PeerEvent α → List (Handed α)
  | some v, .data a => (arrive num v.toReassembly a).2
  | _, _ => []

/-- Only DATA is handed over. -/
theorem Peer.handed_eq_nil {num : α → UInt32} (v : Option (Peer α)) {ev : PeerEvent α}
    (h : ∀ a, ev ≠ .data a) : Peer.handed num v ev = [] := by
  cases v with
  | none => rfl
  | some v =>
    cases ev with
    | data a => exact absurd rfl (h a)
    | hbeat session sequence => rfl
    | leave => rfl
    | other => rfl

/-! ## Relabelling the messages -/

def Handed.map (f : α → β) : Handed α → Handed β
  | .direct a => .direct (f a)
  | .released a => .released (f a)

def Reassembly.map (f : α → β) (s : Reassembly α) : Reassembly β :=
  ⟨s.sequence, htblMap f s.unseqMsgs⟩

def Peer.map (f : α → β) (v : Peer α) : Peer β :=
  ⟨v.toReassembly.map f, v.session⟩

def PeerEvent.map (f : α → β) : PeerEvent α → PeerEvent β
  | .data a => .data (f a)
  | .hbeat session sequence => .hbeat session sequence
  | .leave => .leave
  | .other => .other

theorem release_map (f : α → β) (n : Nat) :
    ∀ s : Reassembly α, release n (s.map f) = ((release n s).1.map f, (release n s).2.map f) := by
  induction n with
  | zero => intro s; rfl
  | succ n ih =>
    intro s
    have hmap := htblRemove_map f s.unseqMsgs s.sequence
    cases hrem : htblRemove s.unseqMsgs s.sequence with
    | none =>
      rw [hrem] at hmap
      simp only [release, Reassembly.map, hmap, hrem, Option.map_none, List.map_nil]
    | some r =>
      obtain ⟨a, t⟩ := r
      rw [hrem] at hmap
      have hrest := ih ⟨s.sequence + 1, t⟩
      simp only [Reassembly.map] at hrest
      simp only [release, Reassembly.map, hmap, hrem, Option.map_some, hrest, List.map_cons]

theorem arrive_map {num : β → UInt32} (f : α → β) (s : Reassembly α) (a : α) :
    arrive num (s.map f) (f a)
      = ((arrive (num ∘ f) s a).1.map f, (arrive (num ∘ f) s a).2.map (Handed.map f)) := by
  have hcount : htblCount (s.map f).unseqMsgs = htblCount s.unseqMsgs := htblCount_map ..
  have hrelease := release_map f (htblCount s.unseqMsgs) { s with sequence := s.sequence + 1 }
  unfold arrive
  rw [hcount]
  by_cases hdue : s.sequence + 1 ≠ num (f a)
  · by_cases hlt : s.sequence < num (f a)
    · simp [Reassembly.map, hdue, hlt, htblMap_put]
    · simp [Reassembly.map, hdue, hlt]
  · simp only [Function.comp_apply, Reassembly.map, hdue, if_false] at hrelease ⊢
    rw [hrelease]
    simp [Handed.map, Function.comp_def]

theorem Peer.next_map {num : β → UInt32} (f : α → β) (v : Option (Peer α)) (ev : PeerEvent α) :
    Peer.next num (v.map (Peer.map f)) (ev.map f)
      = (Peer.next (num ∘ f) v ev).map (Peer.map f) := by
  cases v with
  | none => cases ev <;> simp [Peer.next, PeerEvent.map, Peer.map, Reassembly.map]
  | some v =>
    cases ev with
    | data a => simp [Peer.next, PeerEvent.map, Peer.map, arrive_map]
    | hbeat session sequence =>
      by_cases h : session = v.session
      · simp [Peer.next, PeerEvent.map, Peer.map, h]
      · simp [Peer.next, PeerEvent.map, Peer.map, Reassembly.map, h]
    | leave => rfl
    | other => rfl

theorem Peer.handed_map {num : β → UInt32} (f : α → β) (v : Option (Peer α)) (ev : PeerEvent α) :
    Peer.handed num (v.map (Peer.map f)) (ev.map f)
      = (Peer.handed (num ∘ f) v ev).map (Handed.map f) := by
  cases v with
  | none => cases ev <;> rfl
  | some v =>
    cases ev with
    | data a => simp [Peer.handed, PeerEvent.map, Peer.map, arrive_map]
    | hbeat session sequence => rfl
    | leave => rfl
    | other => rfl

/-- Only the messages in the cache matter to a relabelling. -/
theorem Peer.map_congr {f g : α → β} {v : Peer α} (h : ∀ a ∈ htblValues v.unseqMsgs, f a = g a) :
    v.map f = v.map g := by
  simp only [Peer.map, Reassembly.map, htblMap_congr h]

/-! ## What is in the cache -/

/-- The release loop moves messages out of the cache. -/
theorem htblValues_release (n : Nat) :
    ∀ s : Reassembly α, (htblValues s.unseqMsgs).Perm
      ((release n s).2 ++ htblValues (release n s).1.unseqMsgs) := by
  induction n with
  | zero => intro s; exact List.Perm.refl _
  | succ n ih =>
    intro s
    cases hrem : htblRemove s.unseqMsgs s.sequence with
    | none =>
      simp only [release, hrem]
      exact List.Perm.refl _
    | some r =>
      obtain ⟨b, t⟩ := r
      obtain ⟨hb, rfl⟩ := htblRemove_eq_some.mp hrem
      simp only [release, hrem]
      exact (htblValues_erase hb).trans ((ih ⟨s.sequence + 1, s.unseqMsgs.erase s.sequence⟩).cons b)

/-- After a message, the cache holds what it held before, and perhaps the
message. -/
theorem Peer.mem_next {num : α → UInt32} {v : Option (Peer α)} {ev : PeerEvent α} {w : Peer α}
    (hw : Peer.next num v ev = some w) {a : α} (ha : a ∈ htblValues w.unseqMsgs) :
    (∃ u, v = some u ∧ a ∈ htblValues u.unseqMsgs) ∨ ev = .data a := by
  cases v with
  | none =>
    cases ev with
    | hbeat session sequence =>
      obtain rfl := Option.some.inj hw
      simp at ha
    | data b => cases hw
    | leave => cases hw
    | other => cases hw
  | some v =>
    cases ev with
    | data b =>
      obtain rfl := Option.some.inj hw
      simp only [arrive] at ha
      split at ha
      · split at ha
        · obtain ⟨k, hk⟩ := mem_htblValues.mp ha
          cases hb : htblGet v.unseqMsgs (num b) with
          | some c =>
            rw [htblPut_of_some b hb] at hk
            exact .inl ⟨v, rfl, mem_htblValues.mpr ⟨k, hk⟩⟩
          | none =>
            rw [htblPut_of_none b hb, htblGet_insert] at hk
            split at hk
            · exact .inr (congrArg PeerEvent.data (Option.some.inj hk))
            · exact .inl ⟨v, rfl, mem_htblValues.mpr ⟨k, hk⟩⟩
        · exact .inl ⟨v, rfl, ha⟩
      · refine .inl ⟨v, rfl, ?_⟩
        rw [(htblValues_release (htblCount v.unseqMsgs)
          ⟨v.sequence + 1, v.unseqMsgs⟩).mem_iff, List.mem_append]
        exact .inr ha
    | hbeat session sequence =>
      simp only [Peer.next] at hw
      split at hw
      · obtain rfl := Option.some.inj hw
        exact .inl ⟨v, rfl, ha⟩
      · obtain rfl := Option.some.inj hw
        exact .inl ⟨v, rfl, ha⟩
    | leave => cases hw
    | other =>
      obtain rfl := Option.some.inj hw
      exact .inl ⟨v, rfl, ha⟩

end Rms.V01
