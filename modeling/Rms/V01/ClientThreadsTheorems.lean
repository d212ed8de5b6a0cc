/-
Rms.V01.ClientThreadsTheorems — when several threads may call `rmcast_send`.

`Unbroken` says that, whatever the messages say, the stream is a part of
what one thread would write, and a daemon whose `recv`s are whole reads and
multicasts the messages that were written, in the order of their length
words. It holds all along exactly if no thread begins a message while
another one is between its two calls of `send` with bytes still to write
(`unbroken_iff`). A message without bytes may be interrupted.

The other direction needs the contents to be open: with unlucky bytes the
daemon may read the right messages from a broken stream.
-/
import Rms.V01.ClientThreads

namespace Rms.V01

open Rms.ByteMem Rms.Runs

variable {τ : Type*} {s s' : Writers τ} {e : Endian}

/-! ## Reading -/

section Reading

variable {h : Host} {msg : List UInt8} {more : List UInt8}

/-- A whole read from a part of the stream that one thread would write finds
a whole message there. -/
theorem front_of_part {p p' : Pipe} {n k : Nat} (hlen : msg.length < 65536)
    (hpart : p.stream <+: (rmcastSend h.endian true msg).2 ++ more)
    (hwhole : WholeReads h p (.recv n k)) (hstep : p.step h (.recv n k) = some p') :
    ∃ rest, p.stream = (rmcastSend h.endian true msg).2 ++ rest ∧ rest <+: more := by
  obtain ⟨hn, hk⟩ := hwhole
  have hget : sizeofLong ≤ p.stream.length ∧ k ≤ (p.stream.drop sizeofLong).length := by
    unfold Pipe.step at hstep
    simp only at hstep
    split at hstep
    · rename_i hget
      rw [hn] at hget
      exact ⟨hget.1.2.2, hget.2.2.1⟩
    · cases hstep
  obtain ⟨hword, hbody⟩ := hget
  rw [List.length_drop] at hbody
  obtain ⟨zs, hzs⟩ := hpart
  -- the length word does not depend on what is missing
  have hload : load32 h.endian (fun i => p.stream.getD i 0) 0
      = load32 h.endian (fun i => ((rmcastSend h.endian true msg).2 ++ more).getD i 0) 0 := by
    refine load32_congr _ fun i _ hi => ?_
    have hin : i < p.stream.length := by
      simp only [sizeofLong] at hword
      omega
    rw [← hzs, List.getD_eq_getElem?_getD, List.getD_eq_getElem?_getD,
      List.getElem?_append_left hin]
  rw [hload, load32_front h hlen more] at hk
  have hfront : (rmcastSend h.endian true msg).2.length ≤ p.stream.length := by
    rw [rmcastSend_bytes, List.length_append, enc32_length]
    simp only [sizeofLong] at hbody hword
    omega
  obtain ⟨rest, hrest⟩ := List.prefix_of_prefix_length_le ⟨more, rfl⟩ ⟨zs, hzs⟩ hfront
  refine ⟨rest, hrest.symm, zs, ?_⟩
  rw [← hrest, List.append_assoc] at hzs
  exact List.append_cancel_left hzs

/-- **Reading a part** of the stream that one thread would write, from any
state of the daemon. -/
theorem bodies_of_part (reads : List (Nat × Nat)) :
    ∀ {msgs : List (List UInt8)} {p p' : Pipe}, (∀ msg ∈ msgs, msg.length < 65536) →
      p.stream <+: msgs.flatMap (fun msg => (rmcastSend h.endian true msg).2) →
      Guarded (Pipe.step h) (WholeReads h) p (reads.map fun x => .recv x.1 x.2) →
      run (Pipe.step h) p (reads.map fun x => .recv x.1 x.2) = some p' →
      p'.bodies = p.bodies ++ msgs.take reads.length := by
  induction reads with
  | nil =>
    intro msgs p p' _ _ _ hrun
    obtain rfl := Option.some.inj hrun
    simp
  | cons x reads ih =>
    intro msgs p p' hsmall hpart hwhole hrun
    obtain ⟨p₁, hstep, hrun⟩ := run_cons_some hrun
    obtain ⟨hread, hwhole⟩ := hwhole p₁ hstep
    cases msgs with
    | nil =>
      rw [List.flatMap_nil, List.prefix_nil] at hpart
      simp only [Pipe.step, hpart] at hstep
      split at hstep
      · rename_i hget
        exact absurd hget.1.2.2 (Nat.not_le.mpr hget.1.1)
      · cases hstep
    | cons msg msgs =>
      have hlen := hsmall msg (List.mem_cons_self ..)
      rw [List.flatMap_cons] at hpart
      obtain ⟨rest, hrest, hpart'⟩ := front_of_part hlen hpart hread hstep
      obtain ⟨-, hstream, -, v, hmulticast⟩ := recv_front h hlen hrest hread hstep
      have hbodies : p₁.bodies = p.bodies ++ [msg] := by
        rw [Pipe.bodies, hmulticast, List.map_append]
        rfl
      rw [ih (fun m hm => hsmall m (List.mem_cons_of_mem msg hm)) (hstream ▸ hpart') hwhole hrun,
        hbodies, List.append_assoc, List.length_cons, List.take_succ_cons, List.singleton_append]

/-- The reads that take these messages, one after the other. -/
def wholeReads (msgs : List (List UInt8)) : List (Nat × Nat) :=
  msgs.map fun msg => (sizeofLong, msg.length)

/-- A whole message can be read. -/
theorem step_front (h : Host) {p : Pipe} (hlen : msg.length < 65536)
    (hs : p.stream = (rmcastSend h.endian true msg).2 ++ more) :
    WholeReads h p (.recv sizeofLong msg.length)
      ∧ ∃ p', p.step h (.recv sizeofLong msg.length) = some p' := by
  have hwhole : WholeReads h p (.recv sizeofLong msg.length) := by
    refine ⟨rfl, ?_⟩
    rw [hs, load32_front h hlen more]
  obtain ⟨hinput, -⟩ := input_whole h hs
  have hasks : p.asks h sizeofLong = msg.length := by
    have hmem : ipcLen h (p.input sizeofLong 0) p.daemon
        = ipcLen h (p.input sizeofLong msg.length) p.daemon := rfl
    rw [Pipe.asks, hmem, hinput, ipcLen_whole h p.daemon (by omega), sizeT_natCast (by omega)]
  have hword : p.stream.drop sizeofLong = msg ++ more := by
    rw [hs, rmcastSend_bytes, List.append_assoc]
    exact List.drop_left' (enc32_length _ _)
  refine ⟨hwhole, _, if_pos ⟨⟨by decide, Nat.le_refl _, ?_⟩, ?_, ?_, ?_⟩⟩
  · rw [hs, rmcastSend_bytes, List.length_append, List.length_append, enc32_length]
    simp only [sizeofLong]
    omega
  · rw [hasks]
  · rw [hword, List.length_append]
    omega
  · rw [hasks]
    exact id

/-- **Reading all** of a stream of whole messages. -/
theorem readAll_serial (msgs : List (List UInt8)) :
    ∀ {p : Pipe}, (∀ msg ∈ msgs, msg.length < 65536) →
      p.stream = msgs.flatMap (fun msg => (rmcastSend h.endian true msg).2) →
      Guarded (Pipe.step h) (WholeReads h) p ((wholeReads msgs).map fun x => .recv x.1 x.2)
        ∧ ∃ p', run (Pipe.step h) p ((wholeReads msgs).map fun x => .recv x.1 x.2) = some p'
          ∧ p'.stream = [] := by
  induction msgs with
  | nil => exact fun _ hs => ⟨trivial, _, rfl, hs⟩
  | cons msg msgs ih =>
    intro p hsmall hs
    have hlen := hsmall msg (List.mem_cons_self ..)
    rw [List.flatMap_cons] at hs
    obtain ⟨hwhole, p₁, hstep⟩ := step_front h hlen hs
    obtain ⟨-, hstream, -⟩ := recv_front h hlen hs hwhole hstep
    obtain ⟨hguard, p', hrun, hdone⟩ :=
      ih (fun m hm => hsmall m (List.mem_cons_of_mem msg hm)) hstream
    refine ⟨fun p₂ hstep₂ => ?_, p', ?_, hdone⟩
    · obtain rfl := Option.some.inj (hstep.symm.trans hstep₂)
      exact ⟨hwhole, hguard⟩
    · rw [wholeReads, List.map_cons, List.map_cons, run, hstep]
      exact hrun

end Reading

/-! ## Writing -/

/-- No other thread has bytes to write when a message begins. -/
def NotWithin (s : Writers τ) : WriteOp τ → Prop
  | .length _ _ => ∀ u msg len, s.pending u = some (msg, len) → len = 0
  | .data _ => True

/-- Whatever the messages say: the stream is a part of what one thread would
write; what whole reads have multicast are the first messages; and once no
call is under way, there are whole reads that take all of them. -/
structure Unbroken (h : Host) (cb : RmcCtrlBlock) (s : Writers τ) : Prop where
  stream : ∀ c, s.stream h.endian c <+: s.serial h.endian c
  read : ∀ c reads p, AllWhole h cb (s.stream h.endian c) reads →
    readAll h cb (s.stream h.endian c) reads = some p →
    p.bodies = (s.messages c).take reads.length
  done : (∀ t, s.pending t = none) → ∀ c, ∃ reads p, AllWhole h cb (s.stream h.endian c) reads
    ∧ readAll h cb (s.stream h.endian c) reads = some p ∧ p.bodies = s.messages c ∧ p.stream = []

/-- The invariant: at most one thread has bytes to write, and with them the
stream is what one thread would write. -/
structure Tidy (e : Endian) (s : Writers τ) : Prop where
  single : ∀ t u i j m n, s.pending t = some (i, m) → s.pending u = some (j, n) →
    0 < m → 0 < n → t = u
  within : ∀ c t msg len, s.pending t = some (msg, len) → 0 < len →
    s.stream e c ++ c.bytes msg len = s.serial e c
  between : (∀ t msg len, s.pending t = some (msg, len) → len = 0) →
    ∀ c, s.stream e c = s.serial e c
  small : ∀ len ∈ s.lengths, len < 65536

@[simp] theorem Contents.bytes_zero (c : Contents) (msg : Nat) : c.bytes msg 0 = [] := rfl

theorem messages_small (hs : Tidy e s) (c : Contents) :
    ∀ msg ∈ s.messages c, msg.length < 65536 := by
  intro msg hmem
  obtain ⟨i, hi, rfl⟩ := List.mem_mapIdx.mp hmem
  rw [Contents.bytes, List.length_map, List.length_range]
  exact hs.small _ (List.getElem_mem hi)

theorem Tidy.part (hs : Tidy e s) (c : Contents) : s.stream e c <+: s.serial e c := by
  by_cases hfree : ∀ t msg len, s.pending t = some (msg, len) → len = 0
  · exact ⟨[], by rw [List.append_nil, hs.between hfree c]⟩
  · simp only [not_forall] at hfree
    obtain ⟨t, msg, len, hpending, hlen⟩ := hfree
    exact ⟨_, hs.within c t msg len hpending (Nat.pos_of_ne_zero hlen)⟩

theorem Tidy.unbroken {h : Host} (hs : Tidy h.endian s) (cb : RmcCtrlBlock) : Unbroken h cb s where
  stream := hs.part
  read := fun c reads _ hwhole hread =>
    bodies_of_part reads (messages_small hs c) (hs.part c) hwhole hread
  done := by
    intro hdone c
    have hserial : s.stream h.endian c = s.serial h.endian c := by
      refine hs.between ?_ c
      intro t msg len hpending
      rw [hdone t] at hpending
      cases hpending
    obtain ⟨hwhole, p, hread, hempty⟩ :=
      readAll_serial (p := reading cb (s.stream h.endian c)) (s.messages c) (messages_small hs c)
        hserial
    refine ⟨wholeReads (s.messages c), p, hwhole, hread, ?_, hempty⟩
    have hbodies := bodies_of_part _ (messages_small hs c) (hs.part c) hwhole hread
    rw [hbodies, wholeReads, List.length_map, List.take_length]
    rfl

theorem tidy_start (e : Endian) : Tidy e (Writers.start τ) where
  single := fun _ _ _ _ _ _ ht => nomatch ht
  within := fun _ _ _ _ ht => nomatch ht
  between := fun _ _ => rfl
  small := fun _ hmem => nomatch hmem

variable [DecidableEq τ]

/-- What a new message adds to the stream that one thread would write. -/
theorem serial_length {t : τ} {len : Nat} (hstep : writeStep s (.length t len) = some s')
    (c : Contents) :
    s'.stream e c = s.stream e c ++ enc32 e (UInt32.ofNat len)
      ∧ s'.serial e c = s.serial e c
        ++ (enc32 e (UInt32.ofNat len) ++ c.bytes s.lengths.length len) := by
  simp only [writeStep] at hstep
  split at hstep
  · cases hstep
    have hlen : (c.bytes s.lengths.length len).length = len := by
      rw [Contents.bytes, List.length_map, List.length_range]
    constructor
    · simp [Writers.stream, Piece.bytes]
    · simp [Writers.serial, Writers.messages, List.mapIdx_concat, rmcastSend_bytes, hlen]
  · cases hstep

theorem tidy_length {t : τ} {len : Nat} (hs : Tidy e s) (hok : NotWithin s (.length t len))
    (hstep : writeStep s (.length t len) = some s') : Tidy e s' := by
  have hbytes := fun c => serial_length (e := e) hstep c
  simp only [writeStep] at hstep
  split at hstep
  · rename_i hcond
    cases hstep
    -- nobody else has bytes left to write
    have hother : ∀ u, u ≠ t → ∀ msg n, Function.update s.pending t
        (some (s.lengths.length, len)) u = some (msg, n) → n = 0 := by
      intro u hu msg n hpending
      rw [Function.update_of_ne hu] at hpending
      exact hok u msg n hpending
    constructor
    · intro u v i j m n hu hv hm hn
      by_cases hut : u = t
      · by_cases hvt : v = t
        · rw [hut, hvt]
        · exact absurd (hother v hvt j n hv) (Nat.ne_of_gt hn)
      · exact absurd (hother u hut i m hu) (Nat.ne_of_gt hm)
    · intro c u msg n hu hn
      by_cases hut : u = t
      · subst hut
        dsimp only at hu
        rw [Function.update_self] at hu
        cases hu
        rw [(hbytes c).1, (hbytes c).2, hs.between hok c, List.append_assoc]
      · exact absurd (hother u hut msg n hu) (Nat.ne_of_gt hn)
    · intro hall c
      obtain rfl : len = 0 := hall t s.lengths.length len (Function.update_self ..)
      rw [(hbytes c).1, (hbytes c).2, hs.between hok c, Contents.bytes_zero, List.append_nil]
    · intro n hn
      rcases List.mem_append.mp hn with hn | hn
      · exact hs.small n hn
      · rw [List.mem_singleton.mp hn]
        exact hcond.2
  · cases hstep

theorem tidy_data {t : τ} (hs : Tidy e s) (hstep : writeStep s (.data t) = some s') :
    Tidy e s' := by
  simp only [writeStep] at hstep
  split at hstep
  · cases hstep
  · rename_i msg len hpending
    cases hstep
    have hstream : ∀ c, Writers.stream e c { s with
        pieces := s.pieces ++ [.data msg len], pending := Function.update s.pending t none }
        = s.stream e c ++ c.bytes msg len := by
      intro c
      simp [Writers.stream, Piece.bytes]
    have hother : ∀ {u i n}, Function.update s.pending t none u = some (i, n) →
        u ≠ t ∧ s.pending u = some (i, n) := by
      intro u i n hu
      by_cases hut : u = t
      · rw [hut, Function.update_self] at hu
        cases hu
      · rw [Function.update_of_ne hut] at hu
        exact ⟨hut, hu⟩
    constructor
    · intro u v i j m n hu hv
      exact hs.single u v i j m n (hother hu).2 (hother hv).2
    · intro c u i n hu hn
      obtain ⟨hut, hu⟩ := hother hu
      -- the other thread has bytes to write, so this one had none
      have hzero : len = 0 := by
        by_contra hlen
        exact hut (hs.single u t i msg n len hu hpending hn (Nat.pos_of_ne_zero hlen))
      rw [hstream c, hzero, Contents.bytes_zero, List.append_nil]
      exact hs.within c u i n hu hn
    · intro hall c
      rw [hstream c]
      by_cases hlen : len = 0
      · rw [hlen, Contents.bytes_zero, List.append_nil]
        refine hs.between ?_ c
        intro u i n hu
        by_cases hut : u = t
        · rw [hut, hpending] at hu
          cases hu
          exact hlen
        · exact hall u i n ((Function.update_of_ne hut ..).trans hu)
      · exact hs.within c t msg len hpending (Nat.pos_of_ne_zero hlen)
    · exact hs.small

/-- **One step.** -/
theorem tidy_step {op : WriteOp τ} (hs : Tidy e s) (hok : NotWithin s op)
    (hstep : writeStep s op = some s') : Tidy e s' := by
  cases op with
  | length t len => exact tidy_length hs hok hstep
  | data t => exact tidy_data hs hstep

/-- A length word within another message is no part of it, for some
contents. -/
theorem not_unbroken_step {h : Host} {cb : RmcCtrlBlock} {op : WriteOp τ} (hs : Tidy h.endian s)
    (hbad : ¬ NotWithin s op) (hstep : writeStep s op = some s') : ¬ Unbroken h cb s' := by
  cases op with
  | data t => exact absurd trivial hbad
  | length t len =>
    simp only [NotWithin, not_forall] at hbad
    obtain ⟨u, msg, n, hpending, hn⟩ := hbad
    intro hunbroken
    have hword : (enc32 h.endian (UInt32.ofNat len)).length = 4 := enc32_length _ _
    cases hbytes : enc32 h.endian (UInt32.ofNat len) with
    | nil =>
      rw [hbytes] at hword
      cases hword
    | cons b bs =>
      -- a message of other bytes than the first one of the length word
      obtain ⟨c, hc⟩ : ∃ c : Contents, ∀ i j, c i j = b + 1 := ⟨fun _ _ => b + 1, fun _ _ => rfl⟩
      have hpre := hunbroken.stream c
      obtain ⟨hstream, hserial⟩ := serial_length (e := h.endian) hstep c
      rw [hstream, hserial, ← hs.within c u msg n hpending (Nat.pos_of_ne_zero hn),
        List.append_assoc, List.prefix_append_right_inj, hbytes] at hpre
      obtain ⟨n, rfl⟩ := Nat.exists_eq_succ_of_ne_zero hn
      simp only [Contents.bytes, List.range_succ_eq_map, List.map_cons, List.cons_append,
        List.cons_prefix_cons, hc] at hpre
      exact absurd hpre.1 (by simp)

/-- **Threads of a client.** Whatever the threads write and whenever: the
stream is unbroken all along exactly if no message begins while another
thread has bytes to write. -/
theorem unbroken_iff (h : Host) (cb : RmcCtrlBlock) (ops : List (WriteOp τ)) :
    Throughout writeStep (Unbroken h cb) (Writers.start τ) ops
      ↔ Guarded writeStep NotWithin (Writers.start τ) ops :=
  throughout_iff_of_invariant (fun _ hs => Tidy.unbroken hs cb)
    (fun _ _ _ => tidy_step) (fun _ _ _ => not_unbroken_step) (tidy_start h.endian)

end Rms.V01
