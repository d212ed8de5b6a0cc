/-
Rms.WriteLoop — the loop that hands a message to the client.

`rmcast_daemon` and `rms_manager` both write a message on `ipc_sock` with

    while(ret < nfound) ret += send(ipc_sock, msg->data + ret, nfound - ret, 0);

A `send` may take part of what it is offered, and it may fail. The loop
adds the −1 of a failed `send` to `ret` like a count, so the next `send`
is offered the byte before the ones that are due: a byte that was sent
already, or one in front of the message.

The results of the calls are an arbitrary sequence here, and memory is
addressed relative to `msg->data`, so that bytes in front of the message
have negative addresses. `delivers_iff` says that the loop does its work
exactly if no `send` fails before the whole message is taken.
`writeLoop_eq_sendLoop` ties the loop without failures to the one of the
daemon's model.
-/
import Rms.V01.DataTheorems

namespace Rms

open Rms.ByteMem Rms.V01

/-! ## The loop -/

/-- What a `send` returns: −1, or a count of at least one byte. A count
`grain + 1` above what is offered stands for everything that is offered. -/
inductive SendResult where
  | err
  | ok (grain : Nat)
  deriving DecidableEq, Repr

/-- The bytes at `msg->data + ret` … -/
def bytesFrom (data : Int → UInt8) (ret : Int) (n : Nat) : List UInt8 :=
  (List.range n).map fun i : Nat => data (ret + (i : Int))

/-- The local variable `ret`, what is on the stream, and the range of
addresses passed to each `send` so far, as the first address and the
number of bytes. -/
structure WriteLoop where
  ret : Int
  stream : List UInt8
  offers : List (Int × Nat)

/-- One round. Behind the end of the loop nothing happens any more. -/
def writeRound (data : Int → UInt8) (nfound : Nat) (result : SendResult) (s : WriteLoop) :
    WriteLoop :=
  if s.ret < nfound then
    let offered := (nfound - s.ret).toNat
    let s := { s with offers := s.offers ++ [(s.ret, offered)] }
    match result with
    | .err => { s with ret := s.ret + -1 }
    | .ok grain =>
        let sent := min (grain + 1) offered
        { s with ret := s.ret + sent, stream := s.stream ++ bytesFrom data s.ret sent }
  else s

/-- The state after `k` rounds, if the `i`-th `send` returns `results i`. -/
def writeLoop (data : Int → UInt8) (nfound : Nat) (results : Nat → SendResult) : Nat → WriteLoop
  | 0 => ⟨0, [], []⟩
  | k + 1 => writeRound data nfound (results k) (writeLoop data nfound results k)

/-- What the first `k` calls grant together. -/
def granted (results : Nat → SendResult) : Nat → Nat
  | 0 => 0
  | k + 1 =>
      match results k with
      | .err => granted results k
      | .ok grain => granted results k + (grain + 1)

variable {data : Int → UInt8} {nfound : Nat} {results : Nat → SendResult} {s : WriteLoop} {k : Nat}

@[simp] theorem bytesFrom_length (data : Int → UInt8) (ret : Int) (n : Nat) :
    (bytesFrom data ret n).length = n := by
  simp [bytesFrom]

theorem bytesFrom_add (data : Int → UInt8) (ret : Int) (m n : Nat) :
    bytesFrom data ret (m + n) = bytesFrom data ret m ++ bytesFrom data (ret + m) n := by
  simp [bytesFrom, List.range_add, List.map_map, Function.comp_def, Int.add_assoc]

/-! ## One round -/

/-- What the `send` of a round is offered. -/
def WriteLoop.offer (nfound : Nat) (s : WriteLoop) : Int × Nat := (s.ret, (nfound - s.ret).toNat)

theorem writeRound_ended (hend : nfound ≤ s.ret) (result : SendResult) :
    writeRound data nfound result s = s := by
  rw [writeRound, if_neg (by omega)]

theorem writeRound_err (hrun : s.ret < nfound) :
    writeRound data nfound .err s = ⟨s.ret + -1, s.stream, s.offers ++ [s.offer nfound]⟩ := by
  rw [writeRound, if_pos hrun]
  rfl

/-- The count that a `send` returns in a round. -/
def WriteLoop.sent (nfound grain : Nat) (s : WriteLoop) : Nat :=
  min (grain + 1) (nfound - s.ret).toNat

theorem writeRound_ok (hrun : s.ret < nfound) (grain : Nat) :
    writeRound data nfound (.ok grain) s
      = ⟨s.ret + s.sent nfound grain, s.stream ++ bytesFrom data s.ret (s.sent nfound grain),
          s.offers ++ [s.offer nfound]⟩ := by
  rw [writeRound, if_pos hrun]
  rfl

theorem sent_pos (hrun : s.ret < nfound) (grain : Nat) : 0 < s.sent nfound grain := by
  unfold WriteLoop.sent
  omega

theorem writeRound_offers (hrun : s.ret < nfound) (result : SendResult) :
    (writeRound data nfound result s).offers = s.offers ++ [s.offer nfound] := by
  cases result with
  | err => rw [writeRound_err hrun]
  | ok grain => rw [writeRound_ok hrun]

/-! ## Whole runs -/

/-- The bytes on the stream that `ret` does not account for. Every failure
adds one. -/
def WriteLoop.ahead (s : WriteLoop) : Int := s.stream.length - s.ret

theorem ahead_writeRound (data : Int → UInt8) (nfound : Nat) (result : SendResult)
    (s : WriteLoop) : s.ahead ≤ (writeRound data nfound result s).ahead := by
  unfold WriteLoop.ahead
  by_cases hrun : s.ret < nfound
  · cases result with
    | err =>
      simp only [writeRound_err hrun]
      omega
    | ok grain =>
      simp only [writeRound_ok hrun, List.length_append, bytesFrom_length]
      omega
  · rw [writeRound_ended (by omega)]

theorem ahead_mono (data : Int → UInt8) (nfound : Nat) (results : Nat → SendResult) {j k : Nat}
    (hj : j ≤ k) : (writeLoop data nfound results j).ahead ≤ (writeLoop data nfound results k).ahead :=
  monotone_nat_of_le_succ (f := fun k => (writeLoop data nfound results k).ahead)
    (fun k => ahead_writeRound data nfound (results k) _) hj

/-- A loop that has ended stays as it is. -/
theorem running_of_le {j : Nat} (hj : j ≤ k) (hrun : (writeLoop data nfound results k).ret < nfound) :
    (writeLoop data nfound results j).ret < nfound := by
  induction hj with
  | refl => exact hrun
  | step _ ih =>
    apply ih
    by_contra hend
    rw [writeLoop, writeRound_ended (by omega)] at hrun
    exact hend hrun

/-- Every round that is made fails or sends something, so a loop that goes on
either sends ever more or falls back ever further. -/
theorem rounds_le (hrun : ∀ j < k, (writeLoop data nfound results j).ret < nfound) :
    (k : Int) ≤ 2 * (writeLoop data nfound results k).stream.length
      - (writeLoop data nfound results k).ret := by
  induction k with
  | zero => simp [writeLoop]
  | succ k ih =>
    have hk := hrun k (Nat.lt_succ_self k)
    have hprev := ih fun j hj => hrun j (Nat.lt_succ_of_lt hj)
    rw [writeLoop]
    cases results k with
    | err =>
      simp only [writeRound_err hk]
      omega
    | ok grain =>
      have hpos := sent_pos hk grain
      simp only [writeRound_ok hk, List.length_append, bytesFrom_length]
      omega

/-- Without a failure `ret` is what was granted, the stream holds the first
`ret` bytes, and only bytes of the message have been offered. -/
theorem writeLoop_sound
    (hok : ∀ j < k, (writeLoop data nfound results j).ret < nfound → results j ≠ .err) :
    ∃ n : Nat, n = min nfound (granted results k) ∧ (writeLoop data nfound results k).ret = n
      ∧ (writeLoop data nfound results k).stream = bytesFrom data 0 n
      ∧ (∀ o ∈ (writeLoop data nfound results k).offers, 0 ≤ o.1 ∧ o.1 + o.2 ≤ nfound)
      ∧ (n < nfound → k ≤ n) := by
  induction k with
  | zero => exact ⟨0, (Nat.min_zero _).symm, rfl, rfl, by simp [writeLoop], fun _ => Nat.le_refl 0⟩
  | succ k ih =>
    obtain ⟨n, hn, hret, hstream, hoffers, hk⟩ := ih fun j hj => hok j (Nat.lt_succ_of_lt hj)
    have hnot := hok k (Nat.lt_succ_self k)
    rw [writeLoop]
    by_cases hrun : (writeLoop data nfound results k).ret < nfound
    · cases hresult : results k with
      | err => exact absurd hresult (hnot hrun)
      | ok grain =>
        have hsent : (writeLoop data nfound results k).sent nfound grain
            = min (grain + 1) (nfound - n) := by
          rw [WriteLoop.sent, hret]
          omega
        simp only [writeRound_ok hrun, hsent, hret, hstream]
        refine ⟨n + min (grain + 1) (nfound - n), ?_, by omega, ?_, ?_, by omega⟩
        · simp only [granted, hresult]
          omega
        · rw [bytesFrom_add, Int.zero_add]
        · intro o ho
          rcases List.mem_append.mp ho with ho | ho
          · exact hoffers o ho
          · obtain rfl := List.mem_singleton.mp ho
            simp only [WriteLoop.offer]
            omega
    · have hmore : granted results k ≤ granted results (k + 1) := by
        rw [granted]
        split <;> omega
      rw [writeRound_ended (by omega)]
      exact ⟨n, by omega, hret, hstream, hoffers, by omega⟩

/-! ## Delivery -/

/-- What is expected of the loop: at every moment the stream holds a prefix
of the message, when the loop has ended the whole message, and only bytes
of the message are offered to `send`. -/
structure Delivers (data : Int → UInt8) (nfound : Nat) (results : Nat → SendResult) : Prop where
  begins : ∀ k, (writeLoop data nfound results k).stream <+: bytesFrom data 0 nfound
  whole : ∀ k, nfound ≤ (writeLoop data nfound results k).ret →
    (writeLoop data nfound results k).stream = bytesFrom data 0 nfound
  inside : ∀ k, ∀ o ∈ (writeLoop data nfound results k).offers, 0 ≤ o.1 ∧ o.1 + o.2 ≤ nfound

/-- No `send` that the loop makes fails. -/
def NoFailure (data : Int → UInt8) (nfound : Nat) (results : Nat → SendResult) : Prop :=
  ∀ k, (writeLoop data nfound results k).ret < nfound → results k ≠ .err

/-- The same, from the results alone: what is granted before a failure is
enough for the whole message. -/
def FailsLate (nfound : Nat) (results : Nat → SendResult) : Prop :=
  ∀ k, results k = .err → nfound ≤ granted results k

theorem noFailure_iff : NoFailure data nfound results ↔ FailsLate nfound results := by
  constructor
  · intro h k herr
    obtain ⟨n, hn, hret, -⟩ := writeLoop_sound (k := k) fun j _ => h j
    by_contra hlt
    exact h k (by omega) herr
  · intro h k
    -- up to the first failure, `ret` is what was granted
    induction k using Nat.strong_induction_on with
    | _ k ih =>
      intro hrun herr
      obtain ⟨n, hn, hret, -⟩ := writeLoop_sound ih
      have hle := h k herr
      omega

theorem delivers_of_noFailure (h : NoFailure data nfound results) :
    Delivers data nfound results := by
  refine ⟨fun k => ?_, fun k hend => ?_, fun k => ?_⟩
  · obtain ⟨n, hn, -, hstream, -⟩ := writeLoop_sound (k := k) fun j _ => h j
    have hle : n ≤ nfound := by omega
    obtain ⟨m, rfl⟩ := Nat.exists_eq_add_of_le hle
    rw [hstream, bytesFrom_add]
    exact List.prefix_append _ _
  · obtain ⟨n, hn, hret, hstream, -⟩ := writeLoop_sound (k := k) fun j _ => h j
    obtain rfl : n = nfound := by omega
    exact hstream
  · obtain ⟨n, -, -, -, hoffers, -⟩ := writeLoop_sound (k := k) fun j _ => h j
    exact hoffers

/-- Without a failure the loop ends, at the latest with one `send` a byte. -/
theorem ends_of_noFailure (h : NoFailure data nfound results) :
    nfound ≤ (writeLoop data nfound results nfound).ret := by
  obtain ⟨n, hn, hret, -, -, hk⟩ := writeLoop_sound (k := nfound) fun j _ => h j
  omega

/-- While the loop runs it makes an offer, which has to lie inside. -/
theorem Delivers.ret_nonneg (h : Delivers data nfound results)
    (hrun : (writeLoop data nfound results k).ret < nfound) :
    0 ≤ (writeLoop data nfound results k).ret := by
  have hmem : (writeLoop data nfound results k).offer nfound
      ∈ (writeLoop data nfound results (k + 1)).offers := by
    rw [writeLoop, writeRound_offers hrun]
    exact List.mem_append_right _ (List.mem_singleton_self _)
  exact (h.inside (k + 1) _ hmem).1

/-- A failure spoils the delivery: if the loop ends there are too many bytes
on the stream, and it cannot go on for ever. -/
theorem Delivers.noFailure (h : Delivers data nfound results) : NoFailure data nfound results := by
  intro k hrun herr
  have hahead : ∀ j, k < j → 0 < (writeLoop data nfound results j).ahead := by
    intro j hj
    have hstart : (0 : Int) ≤ (writeLoop data nfound results k).ahead :=
      ahead_mono data nfound results (Nat.zero_le k)
    have hmono : (writeLoop data nfound results (k + 1)).ahead
        ≤ (writeLoop data nfound results j).ahead := ahead_mono data nfound results hj
    have hstep : (writeLoop data nfound results (k + 1)).ahead
        = (writeLoop data nfound results k).ahead + 1 := by
      rw [writeLoop, herr, writeRound_err hrun]
      simp only [WriteLoop.ahead]
      omega
    omega
  by_cases hends : ∃ j > k, (nfound : Int) ≤ (writeLoop data nfound results j).ret
  · obtain ⟨j, hj, hend⟩ := hends
    have hlen := congrArg List.length (h.whole j hend)
    have hpos := hahead j hj
    simp only [bytesFrom_length, WriteLoop.ahead] at hlen hpos
    omega
  · have hall : ∀ j, (writeLoop data nfound results j).ret < nfound := by
      intro j
      by_contra hend
      rcases Nat.lt_or_ge k j with hj | hj
      · exact hends ⟨j, hj, by omega⟩
      · exact hend (running_of_le hj hrun)
    -- after this many rounds the stream is too long or `ret` is negative
    have hrounds := rounds_le (k := 2 * nfound + 1) fun j _ => hall j
    have hlen := (h.begins (2 * nfound + 1)).length_le
    have hret := h.ret_nonneg (hall (2 * nfound + 1))
    rw [bytesFrom_length] at hlen
    omega

/-- **The message arrives, and nothing else is offered**, exactly if no
`send` fails before all of it is taken. The loop then ends. -/
theorem delivers_iff (data : Int → UInt8) (nfound : Nat) (results : Nat → SendResult) :
    (Delivers data nfound results ↔ FailsLate nfound results)
      ∧ (FailsLate nfound results → ∃ k, nfound ≤ (writeLoop data nfound results k).ret) := by
  have hiff : NoFailure data nfound results ↔ FailsLate nfound results := noFailure_iff
  rw [← hiff]
  exact ⟨⟨Delivers.noFailure, delivers_of_noFailure⟩, fun h => ⟨nfound, ends_of_noFailure h⟩⟩

/-- The bytes 7 and 8, behind a 9. -/
def sevenEight (a : Int) : UInt8 := if a = -1 then 9 else if a = 0 then 7 else 8

/-- If the first `send` fails, the second is offered the 9 and takes it. If
the second fails behind one byte, that byte is sent again. -/
theorem delivers_fails :
    (writeLoop sevenEight 2 (fun k => if k = 0 then .err else .ok 5) 2).offers
        = [(0, 2), (-1, 3)]
      ∧ (writeLoop sevenEight 2 (fun k => if k = 0 then .err else .ok 5) 2).stream = [9, 7, 8]
      ∧ (writeLoop sevenEight 2 (fun k => if k = 1 then .err else .ok 0) 4).ret = 2
      ∧ (writeLoop sevenEight 2 (fun k => if k = 1 then .err else .ok 0) 4).stream = [7, 7, 8] := by
  decide

/-! ## The daemon -/

/-- The loop of `rmcast_daemon`, which the model of the daemon runs without
failures: both put the same bytes on the stream. -/
theorem writeLoop_eq_sendLoop (h : Host) (buf : Mem)
    (hok : FailsLate nfound results)
    (hend : nfound ≤ (writeLoop (fun a => buf (sizeofHdr + a).toNat) nfound results k).ret) :
    (writeLoop (fun a => buf (sizeofHdr + a).toNat) nfound results k).stream
      = sendLoop h buf nfound nfound 0 := by
  rw [(delivers_of_noFailure (noFailure_iff.mpr hok)).whole k hend,
    sendLoop_eq h buf nfound nfound 0 (Nat.zero_le _) (Nat.le_refl _)]
  apply List.map_congr_left
  intro i _
  have haddr : (sizeofHdr + (0 + (i : Int))).toNat = sizeofHdr + 0 + i := by omega
  simp only [haddr]

end Rms
