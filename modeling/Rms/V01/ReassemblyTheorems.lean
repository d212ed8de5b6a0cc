/-
Rms.V01.ReassemblyTheorems — when reassembly is complete.

Up to the first repeat, machine and board agree (`Tracks`), and what is
handed over is a span of consecutive numbers, each straight from its
datagram. The first repeat makes the release loop run for the first
time: it starts with the number just handed over, hands that out again,
and stops `r` numbers later with the number `due + r` marked as handed
over although it was not. From then on that number is out of reach
(`Passed`), so everything before the first missing arrival `m` is handed
over exactly when the run of cached numbers reached `m`.
-/
import Rms.V01.Reassembly

namespace Rms.V01

open Rms.Util Rms.Serial

variable {α : Type*} {num : α → UInt32}

/-- The numbers handed over. -/
def numbers (num : α → UInt32) (out : List (Handed α)) : List UInt32 :=
  out.map fun x => num x.msg

@[simp] theorem numbers_nil : numbers num [] = [] := rfl

@[simp] theorem numbers_append (a b : List (Handed α)) :
    numbers num (a ++ b) = numbers num a ++ numbers num b := by
  simp [numbers]

theorem arriveAll_append (s : Reassembly α) (as bs : List α) :
    arriveAll num s (as ++ bs)
      = ((arriveAll num (arriveAll num s as).1 bs).1,
          (arriveAll num s as).2 ++ (arriveAll num (arriveAll num s as).1 bs).2) := by
  induction as generalizing s with
  | nil => rfl
  | cons a as ih => simp only [List.cons_append, arriveAll, ih, List.append_assoc]

/-! ## The release loop -/

/-- With no message cached under the number just handed over, the release
loop does nothing. -/
theorem release_none {s : Reassembly α} (n : Nat) (h : htblGet s.unseqMsgs s.sequence = none) :
    release n s = (s, []) := by
  cases n with
  | zero => rfl
  | succ n => simp only [release, htblRemove_eq_none.mpr h]

theorem release_some {t : Htbl α} {x : UInt32} {a : α} (n : Nat) (h : htblGet t x = some a) :
    release (n + 1) ⟨x, t⟩
      = ((release n ⟨x + 1, t.erase x⟩).1, a :: (release n ⟨x + 1, t.erase x⟩).2) := by
  simp only [release, htblRemove_eq_some.mpr ⟨h, rfl⟩]

/-- The messages cached under the `r` numbers from `x` on are handed over,
and the number behind them is left as `sequence`. -/
structure ReleasedRun (num : α → UInt32) (t : Htbl α) (x : UInt32) (w : Reassembly α × List α)
    (r : Nat) : Prop where
  handed : w.2.map num = span x r
  cached : ∀ k ∈ span x r, htblGet t k ≠ none
  stop : htblGet t (x + UInt32.ofNat r) = none
  sequence : w.1.sequence = x + UInt32.ofNat r
  rest : ∀ k a, htblGet w.1.unseqMsgs k = some a → htblGet t k = some a

theorem ReleasedRun.none {t : Htbl α} {x : UInt32} (hx : htblGet t x = Option.none) :
    ReleasedRun num t x (⟨x, t⟩, []) 0 where
  handed := rfl
  cached := by simp
  stop := by simpa using hx
  sequence := by simp
  rest := fun _ _ hk => hk

/-- One more message in front. -/
theorem ReleasedRun.succ {t : Htbl α} {x : UInt32} {a : α} {w : Reassembly α × List α} {r : Nat}
    (h : ReleasedRun num (t.erase x) (x + 1) w r) (hx : htblGet t x = some a) (hname : num a = x)
    (hr : r + 1 < 4294967296) : ReleasedRun num t x (w.1, a :: w.2) (r + 1) := by
  have hshift : x + 1 + UInt32.ofNat r = x + UInt32.ofNat (r + 1) := by
    rw [UInt32.add_assoc, Nat.add_comm r 1, ← ofNat_add_ofNat]
    rfl
  constructor
  case handed => rw [List.map_cons, h.handed, hname, span_succ]
  case cached =>
    intro k hk
    rw [span_succ, List.mem_cons] at hk
    rcases hk with rfl | hk
    · rw [hx]
      exact Option.some_ne_none a
    · intro hnone
      apply h.cached k hk
      rw [htblGet_erase, hnone, ite_self]
  case stop =>
    -- the loop cannot come back to the number it started from
    have hback : x + UInt32.ofNat (r + 1) ≠ x := by
      intro heq
      have hdist := dist_add_ofNat x hr
      rw [heq, dist_self] at hdist
      omega
    have hstop := h.stop
    rwa [hshift, htblGet_erase, if_neg hback] at hstop
  case sequence => rw [h.sequence, hshift]
  case rest =>
    intro k b hk
    have hget := h.rest k b hk
    rw [htblGet_erase] at hget
    split at hget
    · cases hget
    · exact hget

/-- The loop hands over the messages cached under the consecutive numbers
from `x` on, up to the first that is not cached, which is no further than
any number `y` that is not. -/
theorem release_spec (num : α → UInt32) (n : Nat) :
    ∀ (t : Htbl α) (x y : UInt32), htblCount t ≤ n → htblGet t y = none →
      (∀ k a, htblGet t k = some a → num a = k) →
      ∃ r ≤ dist x y, ReleasedRun num t x (release n ⟨x, t⟩) r := by
  induction n with
  | zero =>
    intro t x y hcount _ _
    have hempty : htblGet t x = none := by
      cases hx : htblGet t x with
      | none => rfl
      | some a =>
        have := htblCount_erase hx
        omega
    exact ⟨0, Nat.zero_le _, .none hempty⟩
  | succ n ih =>
    intro t x y hcount hy hnamed
    cases hx : htblGet t x with
    | none =>
      rw [release_none _ hx]
      exact ⟨0, Nat.zero_le _, .none hx⟩
    | some a =>
      have hne : x ≠ y := by
        rintro rfl
        rw [hx] at hy
        cases hy
      have hnamed' : ∀ k b, htblGet (t.erase x) k = some b → num b = k := by
        intro k b hk
        rw [htblGet_erase] at hk
        split at hk
        · cases hk
        · exact hnamed k b hk
      obtain ⟨r, hr, hreleased⟩ := ih (t.erase x) (x + 1) y
        (by have := htblCount_erase hx; omega)
        (by rw [htblGet_erase, if_neg (Ne.symm hne)]; exact hy) hnamed'
      have hdist := dist_succ_left hne
      have hlt := dist_lt x y
      rw [release_some n hx]
      exact ⟨r + 1, by omega, hreleased.succ hx (hnamed x a hx) (by omega)⟩

/-- The loop hands over exactly what is cached under an unbroken run of
numbers from `x` on. -/
theorem mem_release_iff (n : Nat) :
    ∀ {t : Htbl α} {x : UInt32} {a : α}, htblCount t ≤ n →
      (a ∈ (release n ⟨x, t⟩).2 ↔ ∃ k, (∀ j, dist x j ≤ dist x k → htblGet t j ≠ none)
        ∧ htblGet t k = some a) := by
  induction n with
  | zero =>
    intro t x a hcount
    refine ⟨fun h => (by cases h), fun ⟨k, _, hk⟩ => ?_⟩
    have := htblCount_erase hk
    omega
  | succ n ih =>
    intro t x a hcount
    cases hx : htblGet t x with
    | none =>
      rw [release_none _ hx]
      refine ⟨fun h => (by cases h), fun ⟨k, hrun, _⟩ => ?_⟩
      exact absurd hx (hrun x (by rw [dist_self]; exact Nat.zero_le _))
    | some b =>
      have hcount' : htblCount (t.erase x) ≤ n := by
        have := htblCount_erase hx
        omega
      -- nothing below the modulus comes back to `x`
      have hfar : ∀ k, k ≠ x → ∀ j, dist (x + 1) j ≤ dist (x + 1) k → j ≠ x := by
        rintro k hk j hj rfl
        have h₁ := dist_succ_left (Ne.symm hk)
        have h₂ := dist_lt j k
        rw [dist_pred] at hj
        omega
      rw [release_some n hx, List.mem_cons, ih hcount']
      constructor
      · rintro (rfl | ⟨k, hrun, hk⟩)
        · refine ⟨x, fun j hj => ?_, hx⟩
          rw [dist_self] at hj
          rw [dist_inj (e := x) (x := j) (y := x) (by rw [dist_self]; omega), hx]
          exact Option.some_ne_none _
        · rw [htblGet_erase] at hk
          split at hk
          · cases hk
          rename_i hne
          refine ⟨k, fun j hj => ?_, hk⟩
          by_cases hjx : j = x
          · rw [hjx, hx]
            exact Option.some_ne_none _
          · have h₁ := dist_succ_left (Ne.symm hne)
            have h₂ := dist_succ_left (Ne.symm hjx)
            have := hrun j (by omega)
            rwa [htblGet_erase, if_neg hjx] at this
      · rintro ⟨k, hrun, hk⟩
        by_cases hkx : k = x
        · left
          rw [hkx, hx] at hk
          exact (Option.some.inj hk).symm
        · refine .inr ⟨k, fun j hj => ?_, by rwa [htblGet_erase, if_neg hkx]⟩
          have hjx := hfar k hkx j hj
          have h₁ := dist_succ_left (Ne.symm hkx)
          have h₂ := dist_succ_left (Ne.symm hjx)
          rw [htblGet_erase, if_neg hjx]
          exact hrun j (by omega)

/-! ## Up to the first repeat -/

/-- Machine and board agree. -/
structure Tracks (num : α → UInt32) (s : Reassembly α) (b : Board) : Prop where
  due : s.sequence + 1 = b.due
  ahead : ∀ k, htblGet s.unseqMsgs k ≠ none ↔ k ∈ b.ahead
  named : ∀ k a, htblGet s.unseqMsgs k = some a → num a = k

theorem Tracks.sequence {s : Reassembly α} {b : Board} (h : Tracks num s b) :
    s.sequence = b.due - 1 := by
  rw [← h.due, UInt32.add_sub_cancel]

theorem arrive_of_not_repeats {s : Reassembly α} {b : Board} {a : α} (h : Tracks num s b)
    (hr : ¬ (num a = b.due ∧ num a ∈ b.ahead)) :
    Tracks num (arrive num s a).1 (b.note (num a))
      ∧ (arrive num s a).2 = if num a = b.due then [.direct a] else [] := by
  unfold arrive Board.note
  rw [h.due]
  by_cases hdue : num a = b.due
  · have hnot : num a ∉ b.ahead := fun hmem => hr ⟨hdue, hmem⟩
    have hnone : htblGet s.unseqMsgs b.due = none := by
      rw [← hdue]
      by_contra hsome
      exact hnot ((h.ahead _).mp hsome)
    rw [if_neg (by rw [hdue]; simp), if_pos hdue, if_pos hdue,
      release_none (s := ⟨b.due, s.unseqMsgs⟩) _ hnone]
    exact ⟨⟨rfl, h.ahead, h.named⟩, rfl⟩
  · rw [if_pos (Ne.symm hdue), if_neg hdue, if_neg hdue, ← h.sequence]
    split
    · refine ⟨⟨h.due, ?_, ?_⟩, rfl⟩
      · intro k
        cases hk : htblGet s.unseqMsgs (num a) with
        | some c =>
          rw [htblPut_of_some a hk, List.mem_cons, h.ahead k]
          constructor
          · exact Or.inr
          · rintro (rfl | hmem)
            · exact (h.ahead _).mp (by rw [hk]; simp)
            · exact hmem
        | none =>
          rw [htblPut_of_none a hk, List.mem_cons, htblGet_insert, ← h.ahead k]
          by_cases heq : k = num a
          · simp [heq]
          · simp [heq]
      · intro k c hc
        cases hk : htblGet s.unseqMsgs (num a) with
        | some d =>
          rw [htblPut_of_some a hk] at hc
          exact h.named k c hc
        | none =>
          rw [htblPut_of_none a hk, htblGet_insert] at hc
          split at hc
          · rename_i heq
            rw [← Option.some.inj hc, heq]
          · exact h.named k c hc
    · exact ⟨⟨h.due, h.ahead, h.named⟩, rfl⟩

/-- Until the first repeat, the numbers handed over are those that became
due, each once, and each straight from its datagram. -/
theorem arriveAll_of_no_repeat (as : List α) :
    ∀ {s : Reassembly α} {b : Board}, Tracks num s b → b.firstRepeat (as.map num) = none →
      Tracks num (arriveAll num s as).1 ((as.map num).foldl Board.note b)
      ∧ ∃ d, numbers num (arriveAll num s as).2 = span b.due d
        ∧ ((as.map num).foldl Board.note b).due = b.due + UInt32.ofNat d
        ∧ ∀ k ∈ span b.due d, k ∈ as.map num := by
  induction as with
  | nil =>
    intro s b h _
    refine ⟨h, 0, rfl, ?_, ?_⟩
    · simp
    · intro k hk
      simp at hk
  | cons a as ih =>
    intro s b h hr
    simp only [List.map_cons, Board.firstRepeat] at hr
    split at hr
    · simp at hr
    · rename_i hnot
      obtain ⟨htrack, hout⟩ := arrive_of_not_repeats h hnot
      obtain ⟨hfin, d, hnums, hdue, hmem⟩ := ih htrack hr
      simp only [List.map_cons, List.foldl_cons, arriveAll, numbers_append]
      by_cases heq : num a = b.due
      · rw [if_pos heq] at hout
        have hnote : (b.note (num a)).due = b.due + 1 := by
          simp [Board.note, heq]
        refine ⟨hfin, d + 1, ?_, ?_, ?_⟩
        · rw [hout, hnums, hnote, span_succ, ← heq]
          rfl
        · rw [hdue, hnote, UInt32.add_assoc, Nat.add_comm d 1, ← ofNat_add_ofNat]
          rfl
        · intro k hk
          rw [span_succ, List.mem_cons] at hk
          rcases hk with rfl | hk
          · exact heq ▸ List.mem_cons_self ..
          · exact List.mem_cons_of_mem _ (hmem k (by rw [hnote]; exact hk))
      · rw [if_neg heq] at hout
        have hnote : (b.note (num a)).due = b.due := by
          unfold Board.note
          rw [if_neg heq]
          split <;> rfl
        rw [hnote] at hnums hdue hmem
        refine ⟨hfin, d, ?_, hdue, ?_⟩
        · rw [hout, hnums]
          rfl
        · intro k hk
          exact List.mem_cons_of_mem _ (hmem k hk)

/-- The arrivals around the first repeat. -/
theorem firstRepeat_split (as : List α) :
    ∀ {b b' : Board}, b.firstRepeat (as.map num) = some b' →
      ∃ as₁ a as₂, as = as₁ ++ a :: as₂ ∧ b.firstRepeat (as₁.map num) = none
        ∧ b' = (as₁.map num).foldl Board.note b ∧ num a = b'.due ∧ num a ∈ b'.ahead := by
  induction as with
  | nil =>
    intro b b' h
    simp [Board.firstRepeat] at h
  | cons a as ih =>
    intro b b' h
    simp only [List.map_cons, Board.firstRepeat] at h
    split at h
    · rename_i hrep
      obtain rfl := Option.some.inj h
      exact ⟨[], a, as, rfl, rfl, rfl, hrep⟩
    · rename_i hnot
      obtain ⟨as₁, a', as₂, rfl, hnone, hb, hdue, hahead⟩ := ih h
      refine ⟨a :: as₁, a', as₂, rfl, ?_, hb, hdue, hahead⟩
      simp only [List.map_cons, Board.firstRepeat, if_neg hnot, hnone]

/-! ## After the first repeat -/

/-- The machine has gone past `y`, and every number it can still meet is
within `N` of `e`. -/
structure Passed (num : α → UInt32) (e : UInt32) (N : Nat) (y : UInt32) (s : Reassembly α) :
    Prop where
  past : dist e y ≤ dist e s.sequence
  near : dist e s.sequence ≤ N + 1
  cached : ∀ k a, htblGet s.unseqMsgs k = some a → num a = k ∧ dist e k ≤ N

/-- Numbers in a span that starts within reach and stays within reach lie
at the distances one expects. -/
theorem dist_of_mem_span {e x : UInt32} {N r : Nat} (hN : N + 2 < 4294967296)
    (hx : dist e x ≤ N) (hmem : ∀ k ∈ span x r, dist e k ≤ N) : dist e x + r ≤ N + 1 := by
  by_contra hbig
  have hin : x + UInt32.ofNat (N + 1 - dist e x) ∈ span x r := by
    simp only [span, List.mem_map, List.mem_range]
    exact ⟨N + 1 - dist e x, by omega, rfl⟩
  have hle := hmem _ hin
  rw [dist_add e x (by omega)] at hle
  omega

/-- A message in its turn, with every cached number within reach: it is
handed over, and after it whatever is cached from its own number on
without a gap. -/
theorem arrive_due {e : UInt32} {N : Nat} (hN : N + 2 < 4294967296) {s : Reassembly α} {a : α}
    (hc : ∀ k c, htblGet s.unseqMsgs k = some c → num c = k ∧ dist e k ≤ N)
    (hdue : s.sequence + 1 = num a) (ha : dist e (num a) ≤ N) :
    ∃ r, numbers num (arrive num s a).2 = num a :: span (num a) r
      ∧ (∀ k ∈ span (num a) r, htblGet s.unseqMsgs k ≠ none)
      ∧ htblGet s.unseqMsgs (num a + UInt32.ofNat r) = none
      ∧ dist e (num a) + r ≤ N + 1
      ∧ (arrive num s a).1.sequence = num a + UInt32.ofNat r
      ∧ ∀ k c, htblGet (arrive num s a).1.unseqMsgs k = some c →
          htblGet s.unseqMsgs k = some c := by
  -- a number beyond reach is not cached, so the release loop stops
  have hfree : htblGet s.unseqMsgs (e + UInt32.ofNat (N + 1)) = none := by
    cases hget : htblGet s.unseqMsgs (e + UInt32.ofNat (N + 1)) with
    | none => rfl
    | some c =>
      have := (hc _ _ hget).2
      rw [dist_add_ofNat e (by omega)] at this
      omega
  obtain ⟨r, -, hreleased⟩ := release_spec num
    (htblCount s.unseqMsgs) s.unseqMsgs (num a) _ (Nat.le_refl _) hfree
    (fun k c hk => (hc k c hk).1)
  have harr : arrive num s a = ((release (htblCount s.unseqMsgs) ⟨num a, s.unseqMsgs⟩).1,
      .direct a :: (release (htblCount s.unseqMsgs) ⟨num a, s.unseqMsgs⟩).2.map .released) := by
    unfold arrive
    rw [if_neg (by simpa using hdue), hdue]
  rw [harr]
  refine ⟨r, ?_, hreleased.cached, hreleased.stop, ?_, hreleased.sequence, hreleased.rest⟩
  · rw [← hreleased.handed]
    simp only [numbers, List.map_cons, List.map_map, Handed.msg]
    rfl
  · refine dist_of_mem_span hN ha ?_
    intro k hk
    cases hget : htblGet s.unseqMsgs k with
    | none => exact absurd hget (hreleased.cached k hk)
    | some c => exact (hc k c hget).2

theorem passed_arrive {e y : UInt32} {N : Nat} (hN : N + 2 < 4294967296) {s : Reassembly α}
    {a : α} (h : Passed num e N y s) (ha : dist e (num a) ≤ N) :
    Passed num e N y (arrive num s a).1 ∧ y ∉ numbers num (arrive num s a).2 := by
  have hnear := h.near
  have hpast := h.past
  by_cases hdue : s.sequence + 1 = num a
  · have hd : dist e (num a) = dist e s.sequence + 1 := by
      rw [← hdue]
      exact dist_succ e s.sequence (by omega)
    obtain ⟨r, hnums, -, -, hreach, hseq, hsub⟩ := arrive_due hN h.cached hdue ha
    have hfinal : dist e (num a + UInt32.ofNat r) = dist e (num a) + r :=
      dist_add e _ (by omega)
    refine ⟨⟨?_, ?_, ?_⟩, ?_⟩
    · rw [hseq, hfinal]
      omega
    · rw [hseq, hfinal]
      exact hreach
    · intro k c hk
      exact h.cached k c (hsub k c hk)
    · intro hy
      rw [hnums, List.mem_cons] at hy
      rcases hy with rfl | hy
      · omega
      · simp only [span, List.mem_map, List.mem_range] at hy
        obtain ⟨i, hi, rfl⟩ := hy
        rw [dist_add e (num a) (by omega)] at hpast
        omega
  · unfold arrive
    rw [if_pos (by simpa using hdue)]
    split
    · refine ⟨⟨h.past, h.near, ?_⟩, by simp⟩
      intro k c hc
      cases hk : htblGet s.unseqMsgs (num a) with
      | some d =>
        simp only [htblPut_of_some a hk] at hc
        exact h.cached k c hc
      | none =>
        simp only [htblPut_of_none a hk, htblGet_insert] at hc
        split at hc
        · rename_i heq
          rw [← Option.some.inj hc, heq]
          exact ⟨rfl, ha⟩
        · exact h.cached k c hc
    · exact ⟨h, by simp⟩

theorem passed_arriveAll {e y : UInt32} {N : Nat} (hN : N + 2 < 4294967296) (as : List α) :
    ∀ {s : Reassembly α}, Passed num e N y s → (∀ k ∈ as.map num, dist e k ≤ N) →
      y ∉ numbers num (arriveAll num s as).2 := by
  induction as with
  | nil =>
    intro s _ _
    simp [arriveAll]
  | cons a as ih =>
    intro s h hall
    obtain ⟨hpass, hnot⟩ := passed_arrive hN h (hall (num a) (by simp))
    simp only [arriveAll, numbers_append, List.mem_append, not_or]
    exact ⟨hnot, ih hpass (fun k hk => hall k (by simp [hk]))⟩

/-! ## Completeness -/

/-- When every number before `m` is handed over: there is no repeat and
the arrivals in their turn reach `m`, or at the first repeat everything
from the number that is due up to `m` came ahead already. -/
def Board.Reaches (e m : UInt32) (ks : List UInt32) : Prop :=
  match (Board.mk e []).firstRepeat ks with
  | none => (ks.foldl Board.note (Board.mk e [])).due = m
  | some b => ∀ x, dist e b.due ≤ dist e x → dist e x < dist e m → x ∈ b.ahead

theorem tracks_empty (e : UInt32) : Tracks num (⟨e - 1, ∅⟩ : Reassembly α) ⟨e, []⟩ := by
  refine ⟨UInt32.sub_add_cancel e 1, ?_, ?_⟩
  · intro k
    simp
  · intro k a h
    simp at h

theorem ahead_subset (ks : List UInt32) :
    ∀ (b : Board), ∀ k ∈ (ks.foldl Board.note b).ahead, k ∈ b.ahead ∨ k ∈ ks := by
  induction ks with
  | nil => exact fun b k hk => .inl hk
  | cons j ks ih =>
    intro b k hk
    have hnote : ∀ k ∈ (b.note j).ahead, k ∈ b.ahead ∨ k = j := by
      intro k hk
      unfold Board.note at hk
      split at hk
      · exact .inl hk
      · split at hk
        · rcases List.mem_cons.mp hk with h | h
          · exact .inr h
          · exact .inl h
        · exact .inl hk
    rcases ih (b.note j) k hk with h | h
    · rcases hnote k h with h | h
      · exact .inl h
      · exact .inr (List.mem_cons.mpr (.inl h))
    · exact .inr (List.mem_cons_of_mem _ h)

/-- The first repeat is handed over with what came ahead behind it, as far as
there is no gap. What comes later does not fill the gap any more. -/
theorem complete_iff_of_repeat {e m : UInt32} {N d : Nat} (hN : N + 2 < 4294967296)
    {as₁ as₂ : List α} {a : α} {b : Board}
    (hrange : ∀ k ∈ (as₁ ++ a :: as₂).map num, dist e k ≤ N)
    (hahead : ∀ k ∈ b.ahead, k ∈ as₁.map num) (hm : dist e m ≤ N + 1) (hd : d ≤ dist e m)
    (htrack : Tracks num (arriveAll num ⟨e - 1, ∅⟩ as₁).1 b)
    (hnums : numbers num (arriveAll num ⟨e - 1, ∅⟩ as₁).2 = span e d)
    (hdue : b.due = e + UInt32.ofNat d) (hadue : num a = b.due) (haahead : num a ∈ b.ahead) :
    (∀ x, dist e x < dist e m
        → x ∈ numbers num (arriveAll num ⟨e - 1, ∅⟩ (as₁ ++ a :: as₂)).2)
      ↔ ∀ x, dist e b.due ≤ dist e x → dist e x < dist e m → x ∈ b.ahead := by
  have hcached : ∀ k c, htblGet (arriveAll num ⟨e - 1, ∅⟩ as₁).1.unseqMsgs k = some c →
      num c = k ∧ dist e k ≤ N := by
    intro k c hk
    refine ⟨htrack.named k c hk, hrange k ?_⟩
    rw [List.map_append, List.mem_append]
    exact .inl (hahead k ((htrack.ahead k).mp (by rw [hk]; simp)))
  obtain ⟨r, hout, hin, hstop, hreach, hseq, hsub⟩ :=
    arrive_due hN hcached (htrack.due.trans hadue.symm) (hrange (num a) (by simp))
  have hdist : dist e (num a) = d := by
    rw [hadue, hdue]
    exact dist_add_ofNat e (by omega)
  have hlast : dist e (num a + UInt32.ofNat r) = d + r := by
    rw [dist_add e _ (by omega), hdist]
  rw [hdist] at hreach
  have htotal : numbers num (arriveAll num ⟨e - 1, ∅⟩ (as₁ ++ a :: as₂)).2
      = span e d ++ ((num a :: span (num a) r) ++ numbers num (arriveAll num
          (arrive num (arriveAll num ⟨e - 1, ∅⟩ as₁).1 a).1 as₂).2) := by
    rw [arriveAll_append]
    simp only [arriveAll, numbers_append, hout]
    rw [hnums]
  have hheld : ∀ k, k ∈ b.ahead ↔ htblGet (arriveAll num ⟨e - 1, ∅⟩ as₁).1.unseqMsgs k ≠ none :=
    fun k => (htrack.ahead k).symm
  have hinspan : ∀ x, d ≤ dist e x → dist e x < d + r → x ∈ span (num a) r := by
    intro x hlo hhi
    exact mem_span_of_dist (e := e) (by omega) (by omega)
  simp only [htotal, ← hadue, hdist]
  constructor
  · intro h
    by_contra hnot
    push Not at hnot
    obtain ⟨x, hlo, hhi, hx⟩ := hnot
    -- the run of cached numbers stopped before `m`
    have hstopped : d + r ≤ dist e x := by
      by_contra hlt
      exact hx ((hheld x).mpr (hin x (hinspan x hlo (by omega))))
    have hy := h (num a + UInt32.ofNat r) (by omega)
    have hpassed : Passed num e N (num a + UInt32.ofNat r)
        (arrive num (arriveAll num ⟨e - 1, ∅⟩ as₁).1 a).1 := by
      refine ⟨?_, ?_, ?_⟩
      · rw [hseq]
      · rw [hseq, hlast]
        exact hreach
      · intro k c hk
        exact hcached k c (hsub k c hk)
    have hnever := passed_arriveAll hN as₂ hpassed fun k hk => hrange k (by
      rw [List.map_append, List.mem_append, List.map_cons]
      exact .inr (List.mem_cons_of_mem _ hk))
    rw [List.mem_append, List.mem_append, List.mem_cons] at hy
    rcases hy with hy | (hy | hy) | hy
    · rw [mem_span (by omega), hlast] at hy
      omega
    · rw [hy] at hstop
      exact (hheld (num a)).mp haahead hstop
    · exact hin _ hy hstop
    · exact hnever hy
  · intro h x hx
    rw [List.mem_append, List.mem_append, List.mem_cons]
    rcases Nat.lt_or_ge (dist e x) d with hlt | hge
    · exact .inl ((mem_span (by omega)).mpr hlt)
    · refine .inr (.inl (.inr (hinspan x hge ?_)))
      by_contra hbig
      have hgap := h (num a + UInt32.ofNat r) (by omega) (by omega)
      exact (hheld _).mp hgap hstop

/-- From an empty cache, everything before the first number `m` that never
arrives is handed over exactly when the board reaches `m`. -/
theorem complete_iff_reaches {e m : UInt32} {N : Nat} (hN : N + 2 < 4294967296) (as : List α)
    (hrange : ∀ k ∈ as.map num, dist e k ≤ N) (hmiss : m ∉ as.map num)
    (hall : ∀ x, dist e x < dist e m → x ∈ as.map num) :
    (∀ x, dist e x < dist e m → x ∈ numbers num (arriveAll num ⟨e - 1, ∅⟩ as).2)
      ↔ Board.Reaches e m (as.map num) := by
  have hm : dist e m ≤ N + 1 := by
    by_contra hbig
    have hmem := hall (e + UInt32.ofNat (N + 1)) (by rw [dist_add_ofNat e (by omega)]; omega)
    have hle := hrange _ hmem
    rw [dist_add_ofNat e (by omega)] at hle
    omega
  -- a span of arrivals from `e` on ends before `m`
  have hshort : ∀ d, (∀ k ∈ span e d, k ∈ as.map num) → d ≤ dist e m := by
    intro d hmem
    by_contra hbig
    apply hmiss
    apply hmem
    simp only [span, List.mem_map, List.mem_range]
    exact ⟨dist e m, by omega, (eq_add_ofNat_dist e m).symm⟩
  unfold Board.Reaches
  cases hrep : (Board.mk e []).firstRepeat (as.map num) with
  | none =>
    obtain ⟨-, d, hnums, hdue, hmem⟩ := arriveAll_of_no_repeat as (tracks_empty e) hrep
    simp only [hdue, hnums]
    exact span_covers_iff (hshort d hmem)
  | some b =>
    obtain ⟨as₁, a, as₂, rfl, hnone, hb, hadue, haahead⟩ := firstRepeat_split as hrep
    obtain ⟨htrack, d, hnums, hdue, hmem⟩ := arriveAll_of_no_repeat as₁ (tracks_empty e) hnone
    rw [← hb] at htrack hdue
    have hd : d ≤ dist e m := by
      refine hshort d fun k hk => ?_
      rw [List.map_append, List.mem_append]
      exact .inl (hmem k hk)
    have hahead : ∀ k ∈ b.ahead, k ∈ as₁.map num := by
      intro k hk
      rw [hb] at hk
      exact (ahead_subset _ _ k hk).resolve_left (by simp)
    exact complete_iff_of_repeat hN hrange hahead hm hd htrack hnums hdue hadue haahead

end Rms.V01
