/-
Rms.Lib.Refinement — machines with outputs and forward simulation.

A machine answers every input: `step s i` is its next state and its
answer, and `none` when it has none. `answers step s is` are the answers
to a list of inputs. The specification is a machine that always answers.

`answers_eq_of_simulation` is the rule for "each call returns what the
specification returns": a relation between the two states that every
guarded step keeps, with equal answers. `run_isSome_iff_checked` says
when a run gets to its end.
-/
import Rms.Lib.Runs

namespace Rms.Runs

variable {σ τ ι ο : Type*}

/-- The state after one input. -/
def stepState (step : σ → ι → Option (σ × ο)) (s : σ) (i : ι) : Option σ :=
  (step s i).map Prod.fst

/-- The answers to a list of inputs. -/
def answers (step : σ → ι → Option (σ × ο)) : σ → List ι → Option (List ο)
  | _, [] => some []
  | s, i :: is => (step s i).bind fun r => (answers step r.1 is).map (r.2 :: ·)

/-- The answers of a machine that always answers. -/
def replies (spec : τ → ι → τ × ο) : τ → List ι → List ο
  | _, [] => []
  | t, i :: is => (spec t i).2 :: replies spec (spec t i).1 is

/-- The last state of a machine that always answers. -/
def final (spec : τ → ι → τ × ο) (t : τ) (is : List ι) : τ :=
  is.foldl (fun t i => (spec t i).1) t

/-- The condition `ok` is met before every step of the run, whether or not
the step then has a result. -/
def Checked (step : σ → ι → Option σ) (ok : σ → ι → Prop) : σ → List ι → Prop
  | _, [] => True
  | s, i :: is => ok s i ∧ ∀ s' ∈ step s i, Checked step ok s' is

instance decidableChecked (step : σ → ι → Option σ) (ok : σ → ι → Prop)
    [hok : ∀ s i, Decidable (ok s i)] : ∀ s is, Decidable (Checked step ok s is)
  | _, [] => isTrue trivial
  | s, i :: is =>
      have : Decidable (∀ s' ∈ step s i, Checked step ok s' is) :=
        match step s i with
        | none => isTrue fun _ h => nomatch h
        | some s' =>
            match decidableChecked step ok s' is with
            | isTrue h => isTrue fun _ h' => Option.some.inj h' ▸ h
            | isFalse h => isFalse fun h' => h (h' s' rfl)
      inferInstanceAs (Decidable (ok s i ∧ ∀ s' ∈ step s i, Checked step ok s' is))

variable {step : σ → ι → Option (σ × ο)} {spec : τ → ι → τ × ο} {ok : σ → ι → Prop}
  {R : σ → τ → Prop}

theorem stepState_eq_some {s s' : σ} {i : ι} {o : ο} (h : step s i = some (s', o)) :
    stepState step s i = some s' := by
  rw [stepState, h]
  rfl

/-- One more input. -/
theorem answers_concat {is : List ι} {i : ι} {os : List ο} {o : ο} {s s' s'' : σ}
    (hrun : run (stepState step) s is = some s') (hans : answers step s is = some os)
    (hstep : step s' i = some (s'', o)) : answers step s (is ++ [i]) = some (os ++ [o]) := by
  induction is generalizing s os with
  | nil =>
    obtain rfl := Option.some.inj hrun
    obtain rfl := Option.some.inj hans
    rw [List.nil_append, answers, hstep]
    rfl
  | cons j is ih =>
    obtain ⟨s₁, h₁, hrun⟩ := run_cons_some hrun
    obtain ⟨r, hj, rfl⟩ := Option.map_eq_some_iff.mp h₁
    rw [answers, hj, Option.bind_some] at hans
    obtain ⟨os', hos', rfl⟩ := Option.map_eq_some_iff.mp hans
    rw [List.cons_append, answers, hj, Option.bind_some, ih hrun hos']
    rfl

/-- **Simulation rule.** -/
theorem answers_eq_of_simulation
    (hstep : ∀ s t i, R s t → ok s i →
      ∃ s', step s i = some (s', (spec t i).2) ∧ R s' (spec t i).1)
    {is : List ι} {s : σ} {t : τ} (h : R s t) (hok : Checked (stepState step) ok s is) :
    answers step s is = some (replies spec t is)
      ∧ ∃ s', run (stepState step) s is = some s' ∧ R s' (final spec t is) := by
  induction is generalizing s t with
  | nil => exact ⟨rfl, s, rfl, h⟩
  | cons i is ih =>
    obtain ⟨s₁, h₁, hR⟩ := hstep s t i h hok.1
    have hs₁ := stepState_eq_some h₁
    obtain ⟨hans, s', hrun, hs'⟩ := ih hR (hok.2 s₁ hs₁)
    refine ⟨?_, s', ?_, hs'⟩
    · rw [answers, h₁, Option.bind_some, hans]
      rfl
    · rw [run, hs₁]
      exact hrun

/-- A condition on the inputs alone. -/
theorem checked_of_forall_mem {step : σ → ι → Option σ} {Q : ι → Prop} :
    ∀ {is : List ι} {s : σ}, (∀ i ∈ is, Q i) → Checked step (fun _ i => Q i) s is
  | [], _, _ => trivial
  | i :: _, _, h => ⟨h i (List.mem_cons_self ..),
      fun _ _ => checked_of_forall_mem fun j hj => h j (List.mem_cons_of_mem i hj)⟩

theorem checked_true {step : σ → ι → Option σ} {is : List ι} {s : σ} :
    Checked step (fun _ _ => True) s is :=
  checked_of_forall_mem fun _ _ => trivial

/-- **Progress.** If, under an invariant, a step has a result exactly under
`ok`, a run has one exactly if `ok` is met before every step. `Q` is what
the inputs are known to be. -/
theorem run_isSome_iff_checked {step : σ → ι → Option σ} {I : σ → Prop} {Q : ι → Prop}
    (hinv : ∀ s i s', I s → Q i → step s i = some s' → I s')
    (hstep : ∀ s i, I s → Q i → ((step s i).isSome ↔ ok s i)) :
    ∀ {is : List ι} {s : σ}, I s → (∀ i ∈ is, Q i) →
      ((run step s is).isSome ↔ Checked step ok s is)
  | [], s, _, _ => by simp [Checked]
  | i :: is, s, hs, hQ => by
      have hi := hQ i (List.mem_cons_self ..)
      have hok := hstep s i hs hi
      cases h : step s i with
      | none =>
        rw [h] at hok
        simp [run, Checked, h, ← hok]
      | some s' =>
        have hrest := run_isSome_iff_checked hinv hstep (hinv s i s' hs hi h)
          fun j hj => hQ j (List.mem_cons_of_mem i hj)
        rw [h] at hok
        simp [run, Checked, h, ← hok, hrest]

/-- Conditions that agree under an invariant of the steps that meet them
check the same runs. -/
theorem checked_congr {step : σ → ι → Option σ} {ok' : σ → ι → Prop} {I : σ → Prop}
    (hiff : ∀ s i, I s → (ok s i ↔ ok' s i))
    (hstep : ∀ s i s', I s → ok s i → step s i = some s' → I s') :
    ∀ {is : List ι} {s : σ}, I s → (Checked step ok s is ↔ Checked step ok' s is)
  | [], _, _ => Iff.rfl
  | i :: is, s, hs => by
      simp only [Checked, ← hiff s i hs]
      apply and_congr_right
      intro hok
      refine forall_congr' fun s' => forall_congr' fun hs' => ?_
      exact checked_congr hiff hstep (hstep s i s' hs hok hs')

end Rms.Runs
