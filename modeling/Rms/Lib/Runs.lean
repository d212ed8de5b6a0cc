/-
Rms.Lib.Runs — finite runs of a step function that may fail.

`run step s is` feeds the inputs `is` to `step` from `s`; `none` means
that some step had no result. `Guarded step ok s is` says that every
step the run takes is taken from a state and with an input that meet
`ok`, so a safety theorem under a condition on the steps is a statement
about guarded runs.

Two rules carry the developments above. `run_invariant`: an invariant
that holds at the start and survives every guarded step holds at the end
of every guarded run, and so all along it (`throughout_of_guarded`, and
`throughout_of_invariant` without a guard).
`throughout_iff_guarded`: when, from a good state,
one step leads to a good state exactly under `ok`, all the states along
a run are good exactly when the run is guarded. Where the invariant only
survives good steps, `throughout_iff_of_invariant` asks that a step
outside `ok` ends in a bad state (`throughout_iff_of_invariant_under`
for the runs that meet a further condition), and `guarded_congr` replaces
one condition on the steps by another.
-/
import Mathlib.Data.List.Basic

namespace Rms.Runs

variable {σ ι : Type*}

/-- The state after feeding a list of inputs. -/
def run (step : σ → ι → Option σ) : σ → List ι → Option σ
  | s, [] => some s
  | s, i :: is => (step s i).bind fun s' => run step s' is

/-- Every completed step of the run is taken under `ok`. -/
def Guarded (step : σ → ι → Option σ) (ok : σ → ι → Prop) : σ → List ι → Prop
  | _, [] => True
  | s, i :: is => ∀ s', step s i = some s' → ok s i ∧ Guarded step ok s' is

instance decidableGuarded (step : σ → ι → Option σ) (ok : σ → ι → Prop)
    [hok : ∀ s i, Decidable (ok s i)] : ∀ s is, Decidable (Guarded step ok s is)
  | _, [] => isTrue trivial
  | s, i :: is =>
      match h : step s i with
      | none => isTrue fun _ h' => nomatch h.symm.trans h'
      | some s' =>
          have : Decidable (Guarded step ok s' is) := decidableGuarded step ok s' is
          decidable_of_iff (ok s i ∧ Guarded step ok s' is)
            ⟨fun hg _ h' => Option.some.inj (h.symm.trans h') ▸ hg, fun hg => hg s' h⟩

/-- Every state the run passes through satisfies `P`, its two ends included. -/
def Throughout (step : σ → ι → Option σ) (P : σ → Prop) : σ → List ι → Prop
  | s, [] => P s
  | s, i :: is => P s ∧ ∀ s', step s i = some s' → Throughout step P s' is

variable {step : σ → ι → Option σ} {ok : σ → ι → Prop} {P I : σ → Prop}

@[simp] theorem run_nil (s : σ) : run step s [] = some s := rfl

theorem run_cons_some {s s'' : σ} {i : ι} {is : List ι} (h : run step s (i :: is) = some s'') :
    ∃ s', step s i = some s' ∧ run step s' is = some s'' :=
  Option.bind_eq_some_iff.mp h

theorem run_append (s : σ) (is js : List ι) :
    run step s (is ++ js) = (run step s is).bind fun s' => run step s' js := by
  induction is generalizing s with
  | nil => rfl
  | cons i is ih =>
    simp only [List.cons_append, run]
    cases h : step s i with
    | none => rfl
    | some s' => exact ih s'

/-- A run split at its last step. -/
theorem run_concat_some {s s'' : σ} {i : ι} {is : List ι}
    (h : run step s (is ++ [i]) = some s'') :
    ∃ s', run step s is = some s' ∧ step s' i = some s'' := by
  rw [run_append] at h
  obtain ⟨s', h₁, h₂⟩ := Option.bind_eq_some_iff.mp h
  obtain ⟨t, h₃, h₄⟩ := run_cons_some h₂
  simp only [run_nil, Option.some.injEq] at h₄
  exact ⟨s', h₁, h₄ ▸ h₃⟩

/-- **Invariant rule.** -/
theorem run_invariant (hstep : ∀ s i s', I s → ok s i → step s i = some s' → I s') :
    ∀ {is : List ι} {s s' : σ}, I s → Guarded step ok s is → run step s is = some s' → I s'
  | [], s, s', hs, _, hr => by
      simp only [run_nil, Option.some.injEq] at hr
      exact hr ▸ hs
  | i :: is, s, s', hs, hg, hr => by
      obtain ⟨t, ht, hr⟩ := run_cons_some hr
      exact run_invariant hstep (hstep s i t hs (hg t ht).1 ht) (hg t ht).2 hr

/-- The invariant rule for runs without a guard. -/
theorem run_invariant_free (hstep : ∀ s i s', I s → step s i = some s' → I s') :
    ∀ {is : List ι} {s s' : σ}, I s → run step s is = some s' → I s'
  | [], s, s', hs, hr => by
      simp only [run_nil, Option.some.injEq] at hr
      exact hr ▸ hs
  | i :: is, s, s', hs, hr => by
      obtain ⟨t, ht, hr⟩ := run_cons_some hr
      exact run_invariant_free hstep (hstep s i t hs ht) hr

/-- What the invariant implies holds all along a guarded run. -/
theorem throughout_of_guarded (hstep : ∀ s i s', I s → ok s i → step s i = some s' → I s')
    (hP : ∀ s, I s → P s) :
    ∀ {is : List ι} {s : σ}, I s → Guarded step ok s is → Throughout step P s is
  | [], s, hs, _ => hP s hs
  | i :: _, s, hs, hg =>
      ⟨hP s hs, fun s' h => throughout_of_guarded hstep hP
        (hstep s i s' hs (hg s' h).1 h) (hg s' h).2⟩

/-- What an invariant of all steps implies holds all along every run. -/
theorem throughout_of_invariant (hstep : ∀ s i s', I s → step s i = some s' → I s')
    (hP : ∀ s, I s → P s) : ∀ {is : List ι} {s : σ}, I s → Throughout step P s is
  | [], s, hs => hP s hs
  | i :: _, s, hs => ⟨hP s hs, fun s' h => throughout_of_invariant hstep hP (hstep s i s' hs h)⟩

theorem Throughout.final : ∀ {is : List ι} {s s' : σ}, Throughout step P s is →
    run step s is = some s' → P s'
  | [], _, _, ht, hr => Option.some.inj hr ▸ ht
  | _ :: _, _, _, ht, hr => by
      obtain ⟨t, hstep, hr⟩ := run_cons_some hr
      exact (ht.2 t hstep).final hr

/-- **Exactness rule.** Under an invariant of all steps, if one step from
a good state ends in a good state exactly under `ok`, then a run stays
good exactly when it is guarded. -/
theorem throughout_iff_guarded
    (hinv : ∀ s i s', I s → step s i = some s' → I s')
    (hiff : ∀ s i s', I s → P s → step s i = some s' → (P s' ↔ ok s i)) :
    ∀ {is : List ι} {s : σ}, I s → P s →
      (Throughout step P s is ↔ Guarded step ok s is)
  | [], s, _, hP => by simp [Throughout, Guarded, hP]
  | i :: is, s, hI, hP => by
      simp only [Throughout, Guarded, hP, true_and]
      refine forall_congr' fun t => forall_congr' fun ht => ?_
      have hrec : P t → (Throughout step P t is ↔ Guarded step ok t is) :=
        throughout_iff_guarded hinv hiff (hinv s i t hI ht)
      constructor
      · intro h
        have hPt : P t := by
          cases is with
          | nil => exact h
          | cons j js => exact h.1
        exact ⟨(hiff s i t hI hP ht).mp hPt, (hrec hPt).mp h⟩
      · rintro ⟨hok, hg⟩
        exact (hrec ((hiff s i t hI hP ht).mpr hok)).mpr hg

/-- **Exactness rule, with an invariant of the good steps only.** If `ok`
keeps the invariant and a step outside `ok` ends in a bad state, then a
run stays good exactly when it is guarded. `ok₀` is a further condition
that the run is known to meet. -/
theorem throughout_iff_of_invariant_under {ok₀ : σ → ι → Prop} (hP : ∀ s, I s → P s)
    (hstep : ∀ s i s', I s → ok₀ s i → ok s i → step s i = some s' → I s')
    (hbad : ∀ s i s', I s → ok₀ s i → ¬ ok s i → step s i = some s' → ¬ P s') :
    ∀ {is : List ι} {s : σ}, I s → Guarded step ok₀ s is →
      (Throughout step P s is ↔ Guarded step ok s is)
  | [], s, hs, _ => by simp [Throughout, Guarded, hP s hs]
  | i :: is, s, hs, hg => by
      simp only [Throughout, Guarded, hP s hs, true_and]
      refine forall_congr' fun t => forall_congr' fun ht => ?_
      obtain ⟨h₀, hg⟩ := hg t ht
      by_cases hok : ok s i
      · rw [throughout_iff_of_invariant_under hP hstep hbad (hstep s i t hs h₀ hok ht) hg]
        simp [hok]
      · have hPt : ¬ P t := hbad s i t hs h₀ hok ht
        constructor
        · intro h
          cases is with
          | nil => exact absurd h hPt
          | cons j js => exact absurd h.1 hPt
        · intro h
          exact absurd h.1 hok

/-- A run is guarded by what holds of each of its inputs in every state. -/
theorem guarded_of_forall_mem : ∀ {is : List ι}, (∀ i ∈ is, ∀ s, ok s i) →
    ∀ s : σ, Guarded step ok s is
  | [], _, _ => trivial
  | _ :: _, hok, s => fun s' _ => ⟨hok _ List.mem_cons_self s,
      guarded_of_forall_mem (fun i hi => hok i (List.mem_cons_of_mem _ hi)) s'⟩

/-- A run is guarded by what always holds. -/
theorem guarded_of_forall (hok : ∀ s i, ok s i) (is : List ι) (s : σ) : Guarded step ok s is :=
  guarded_of_forall_mem (fun i _ s => hok s i) s

/-- The rule for all runs. -/
theorem throughout_iff_of_invariant (hP : ∀ s, I s → P s)
    (hstep : ∀ s i s', I s → ok s i → step s i = some s' → I s')
    (hbad : ∀ s i s', I s → ¬ ok s i → step s i = some s' → ¬ P s')
    {is : List ι} {s : σ} (hs : I s) : Throughout step P s is ↔ Guarded step ok s is := by
  have hall : Guarded step (fun _ _ => True) s is := guarded_of_forall (fun _ _ => trivial) is s
  refine throughout_iff_of_invariant_under hP ?_ ?_ hs hall
  · exact fun s i s' hs _ => hstep s i s' hs
  · exact fun s i s' hs _ => hbad s i s' hs

/-- **Survival rule.** Under an invariant of all steps, if one step has a
result exactly under `ok`, then a run has a result exactly when it takes
all its steps under `ok`. -/
theorem run_isSome_iff (hinv : ∀ s i s', I s → step s i = some s' → I s')
    (hiff : ∀ s i, I s → ((step s i).isSome ↔ ok s i)) :
    ∀ {is : List ι} {s : σ}, I s → ((run step s is).isSome ↔
      ∀ js i ks t, is = js ++ i :: ks → run step s js = some t → ok t i)
  | [], s, _ => by simp
  | i :: is, s, hs => by
      constructor
      · intro h js j ks t his hrun
        obtain ⟨s'', hr⟩ := Option.isSome_iff_exists.mp h
        obtain ⟨s', hstep, hrest⟩ := run_cons_some hr
        cases js with
        | nil =>
          obtain ⟨rfl, -⟩ := List.cons.inj his
          obtain rfl := Option.some.inj hrun
          exact (hiff s i hs).mp (Option.isSome_iff_exists.mpr ⟨s', hstep⟩)
        | cons k js =>
          obtain ⟨rfl, htail⟩ := List.cons.inj his
          obtain ⟨s₁, hstep₁, hrun⟩ := run_cons_some hrun
          obtain rfl := Option.some.inj (hstep.symm.trans hstep₁)
          exact (run_isSome_iff hinv hiff (hinv s i s' hs hstep)).mp
            (Option.isSome_iff_exists.mpr ⟨s'', hrest⟩) js j ks t htail hrun
      · intro h
        obtain ⟨s', hstep⟩ :=
          Option.isSome_iff_exists.mp ((hiff s i hs).mpr (h [] i is s rfl rfl))
        rw [run, hstep]
        refine (run_isSome_iff hinv hiff (hinv s i s' hs hstep)).mpr ?_
        intro js j ks t his hrun
        exact h (i :: js) j ks t (his ▸ rfl) (by rw [run, hstep]; exact hrun)

/-- A weaker condition guards a run too. -/
theorem Guarded.imp {ok' : σ → ι → Prop} (himp : ∀ s i, ok s i → ok' s i) :
    ∀ {is : List ι} {s : σ}, Guarded step ok s is → Guarded step ok' s is
  | [], _, _ => trivial
  | i :: _, s, hg => fun s' h => ⟨himp s i (hg s' h).1, (hg s' h).2.imp himp⟩

/-- Conditions that agree wherever a run can get under them guard the same
runs. `ok₀` is a further condition that the run is known to meet. -/
theorem guarded_congr {ok₀ ok' : σ → ι → Prop}
    (hiff : ∀ s i s', I s → ok₀ s i → step s i = some s' → (ok s i ↔ ok' s i))
    (hstep : ∀ s i s', I s → ok₀ s i → ok s i → step s i = some s' → I s') :
    ∀ {is : List ι} {s : σ}, I s → Guarded step ok₀ s is →
      (Guarded step ok s is ↔ Guarded step ok' s is)
  | [], _, _, _ => Iff.rfl
  | i :: is, s, hs, hg => by
      refine forall_congr' fun t => forall_congr' fun ht => ?_
      obtain ⟨h₀, hg⟩ := hg t ht
      rw [← hiff s i t hs h₀ ht]
      refine and_congr_right fun hok => ?_
      exact guarded_congr hiff hstep (hstep s i t hs h₀ hok ht) hg

end Rms.Runs
