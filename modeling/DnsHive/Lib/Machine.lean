import Mathlib.Data.List.Infix

/-!
# Running fallible machines

A machine is a step function `σ → ι → Option (σ × ο)`: it takes an input, changes its state and
emits an output, or it faults.  `Machine.run` feeds it a list of inputs, and `Machine.exec` does
the same for a step function that cannot fault, which is what an abstract model usually is.

Two rules carry a fact about one step to every run.

* `run_history` — a predicate on the inputs read so far, the outputs emitted so far and the state,
  established for the empty run and kept by every step, holds after every run; and no run faults.
* `run_simulation` — the same for a relation between the machine and an abstract one: both emit
  the same outputs, as long as the abstract machine finds every input `Allowed`.

An abstract machine need not be a function.  `Runs` are the runs of one given by a step relation,
and `run_runs` is the rule for it.
-/

set_option autoImplicit false

namespace Machine

variable {σ τ ι ο : Type}

/-- Feed the inputs to the machine one after the other.  A fault ends the run. -/
def run (step : σ → ι → Option (σ × ο)) : σ → List ι → Option (σ × List ο)
  | s, [] => some (s, [])
  | s, i :: is => do
    let (s, o) ← step s i
    let (s, os) ← run step s is
    return (s, o :: os)

/-- Feed the inputs to a machine that cannot fault. -/
def exec (step : τ → ι → τ × ο) : τ → List ι → τ × List ο
  | t, [] => (t, [])
  | t, i :: is => ((exec step (step t i).1 is).1, (step t i).2 :: (exec step (step t i).1 is).2)

variable {step : σ → ι → Option (σ × ο)}

@[simp] theorem run_nil {s : σ} : run step s [] = some (s, []) := rfl

theorem run_cons {s s' s'' : σ} {i : ι} {is : List ι} {o : ο} {os : List ο}
    (h : step s i = some (s', o)) (hr : run step s' is = some (s'', os)) :
    run step s (i :: is) = some (s'', o :: os) := by
  simp [run, h, hr]

theorem run_cons_iff {s s'' : σ} {i : ι} {is : List ι} {os : List ο} :
    run step s (i :: is) = some (s'', os) ↔ ∃ s' o os', step s i = some (s', o) ∧
      run step s' is = some (s'', os') ∧ os = o :: os' := by
  refine ⟨fun h ↦ ?_, fun ⟨s', o, os', hs, hr, hos⟩ ↦ hos ▸ run_cons hs hr⟩
  simp only [run, Option.bind_eq_bind, Option.bind_eq_some_iff, Option.pure_def, Option.some_inj,
    Prod.mk.injEq, Prod.exists] at h
  obtain ⟨s', o, hs, s₁, os', hr, rfl, rfl⟩ := h
  exact ⟨s', o, os', hs, hr, rfl⟩

theorem run_append {s s' s'' : σ} {is js : List ι} {os qs : List ο}
    (h : run step s is = some (s', os)) (hr : run step s' js = some (s'', qs)) :
    run step s (is ++ js) = some (s'', os ++ qs) := by
  induction is generalizing s os with
  | nil =>
    obtain ⟨rfl, rfl⟩ := Prod.mk.inj (Option.some.inj h)
    exact hr
  | cons i is ih =>
    obtain ⟨s₁, o, os₁, hs, hr₁, rfl⟩ := run_cons_iff.mp h
    exact run_cons hs (ih hr₁)

theorem run_length {s s' : σ} {is : List ι} {os : List ο} (h : run step s is = some (s', os)) :
    os.length = is.length := by
  induction is generalizing s os with
  | nil =>
    obtain ⟨-, rfl⟩ := Prod.mk.inj (Option.some.inj h)
    rfl
  | cons i is ih =>
    obtain ⟨s₁, o, os₁, -, hr, rfl⟩ := run_cons_iff.mp h
    rw [List.length_cons, List.length_cons, ih hr]

theorem run_append_iff {s s'' : σ} {is js : List ι} {os : List ο} :
    run step s (is ++ js) = some (s'', os) ↔ ∃ s' os₁ os₂, run step s is = some (s', os₁) ∧
      run step s' js = some (s'', os₂) ∧ os = os₁ ++ os₂ := by
  refine ⟨fun h ↦ ?_, fun ⟨s', os₁, os₂, h₁, h₂, hos⟩ ↦ hos ▸ run_append h₁ h₂⟩
  induction is generalizing s os with
  | nil => exact ⟨s, [], os, rfl, h, rfl⟩
  | cons i is ih =>
    obtain ⟨s₁, o, os', hs, hr, rfl⟩ := run_cons_iff.mp h
    obtain ⟨s', os₁, os₂, h₁, h₂, rfl⟩ := ih hr
    exact ⟨s', o :: os₁, os₂, run_cons hs h₁, h₂, rfl⟩

theorem run_singleton_iff {s s' : σ} {i : ι} {os : List ο} :
    run step s [i] = some (s', os) ↔ ∃ o, step s i = some (s', o) ∧ os = [o] := by
  refine ⟨fun h ↦ ?_, fun ⟨o, hs, hos⟩ ↦ hos ▸ run_cons hs run_nil⟩
  obtain ⟨s₁, o, os', hs, hr, rfl⟩ := run_cons_iff.mp h
  obtain ⟨rfl, rfl⟩ := Prod.mk.inj (Option.some.inj hr)
  exact ⟨o, hs, rfl⟩

theorem run_concat {s s' s'' : σ} {i : ι} {is : List ι} {o : ο} {os : List ο}
    (h : run step s is = some (s', os)) (hs : step s' i = some (s'', o)) :
    run step s (is ++ [i]) = some (s'', os ++ [o]) :=
  run_append h (run_cons hs run_nil)

/-- **The history rule.**  `P` may speak about everything that has happened so far, and a step has
to keep it only for inputs that continue a prefix of the inputs `all` given to the run. -/
theorem run_history {P : List ι → List ο → σ → Prop} {s : σ} {all : List ι} (h0 : P [] [] s)
    (hstep : ∀ is i os s', is ++ [i] <+: all → P is os s' →
      ∃ s'' o, step s' i = some (s'', o) ∧ P (is ++ [i]) (os ++ [o]) s'') :
    ∀ is, is <+: all → ∃ s' os, run step s is = some (s', os) ∧ P is os s' := by
  intro is
  induction is using List.reverseRecOn with
  | nil => exact fun _ ↦ ⟨s, [], rfl, h0⟩
  | append_singleton is i ih =>
    intro hpre
    obtain ⟨s', os, hrun, hP⟩ := ih ((List.prefix_append is [i]).trans hpre)
    obtain ⟨s'', o, hs, hP'⟩ := hstep is i os s' hpre hP
    exact ⟨s'', os ++ [o], run_concat hrun hs, hP'⟩

theorem exec_concat (step : τ → ι → τ × ο) (t : τ) (is : List ι) (i : ι) :
    exec step t (is ++ [i]) =
      ((step (exec step t is).1 i).1, (exec step t is).2 ++ [(step (exec step t is).1 i).2]) := by
  induction is generalizing t with
  | nil => rfl
  | cons j is ih => simp [exec, ih]

/-- Every input is allowed in the state the machine has reached when it arrives. -/
def Allowed (step : τ → ι → τ × ο) (ok : τ → ι → Prop) : τ → List ι → Prop
  | _, [] => True
  | t, i :: is => ok t i ∧ Allowed step ok (step t i).1 is

instance decidableAllowed {astep : τ → ι → τ × ο} {ok : τ → ι → Prop}
    [∀ t i, Decidable (ok t i)] : ∀ (t : τ) (is : List ι), Decidable (Allowed astep ok t is)
  | _, [] => .isTrue trivial
  | t, i :: is =>
    have : Decidable (Allowed astep ok (astep t i).1 is) := decidableAllowed (astep t i).1 is
    inferInstanceAs (Decidable (ok t i ∧ Allowed astep ok (astep t i).1 is))

/-- **The simulation rule.**  If one allowed step of the abstract machine is matched by one step of
the concrete machine with the same output, so is every run of allowed steps. -/
theorem run_simulation {astep : τ → ι → τ × ο} {ok : τ → ι → Prop} {R : σ → τ → Prop}
    (hstep : ∀ s t i, R s t → ok t i →
      ∃ s', step s i = some (s', (astep t i).2) ∧ R s' (astep t i).1) :
    ∀ (is : List ι) (s : σ) (t : τ), R s t → Allowed astep ok t is →
      ∃ s', run step s is = some (s', (exec astep t is).2) ∧ R s' (exec astep t is).1
  | [], s, _, hR, _ => ⟨s, rfl, hR⟩
  | i :: is, s, t, hR, hok => by
    obtain ⟨s', hs, hR'⟩ := hstep s t i hR hok.1
    obtain ⟨s'', hr, hR''⟩ := run_simulation hstep is s' (astep t i).1 hR' hok.2
    exact ⟨s'', run_cons hs hr, hR''⟩

/-! ## Guarded runs -/

/-- Every input satisfies `ok` in the state the machine has reached when it arrives. -/
def Guarded (step : σ → ι → Option (σ × ο)) (ok : σ → ι → Prop) : σ → List ι → Prop
  | _, [] => True
  | s, i :: is => ok s i ∧ ∀ r ∈ step s i, Guarded step ok r.1 is

instance decidableGuarded {ok : σ → ι → Prop} [∀ s i, Decidable (ok s i)] :
    ∀ (s : σ) (is : List ι), Decidable (Guarded step ok s is)
  | _, [] => .isTrue trivial
  | s, i :: is =>
    have : DecidablePred fun r : σ × ο ↦ Guarded step ok r.1 is :=
      fun r ↦ decidableGuarded r.1 is
    inferInstanceAs (Decidable (ok s i ∧ ∀ r ∈ step s i, Guarded step ok r.1 is))

/-- **The invariant rule.**  A guarded run does not fault and keeps what every guarded step keeps.
The invariant may speak about the inputs still to come. -/
theorem run_guarded {ok : σ → ι → Prop} {P : List ι → σ → Prop}
    (hstep : ∀ s i is, P (i :: is) s → ok s i → ∃ s' o, step s i = some (s', o) ∧ P is s') :
    ∀ (is : List ι) (s : σ), P is s → Guarded step ok s is →
      ∃ s' os, run step s is = some (s', os) ∧ P [] s'
  | [], s, hP, _ => ⟨s, [], rfl, hP⟩
  | i :: is, s, hP, hok => by
    obtain ⟨s', o, hs, hP'⟩ := hstep s i is hP hok.1
    obtain ⟨s'', os, hr, hP''⟩ := run_guarded hstep is s' hP' (hok.2 _ hs)
    exact ⟨s'', o :: os, run_cons hs hr, hP''⟩

/-! ## Machines given by a relation -/

/-- `Runs step t is os t'`: reading `is` and emitting `os`, the machine can get from `t` to `t'`. -/
inductive Runs (step : τ → ι → ο → τ → Prop) (t : τ) : List ι → List ο → τ → Prop
  | nil : Runs step t [] [] t
  | snoc {is : List ι} {os : List ο} {t' t'' : τ} {i : ι} {o : ο} :
    Runs step t is os t' → step t' i o t'' → Runs step t (is ++ [i]) (os ++ [o]) t''

/-- **The relational rule.**  If every step from a state in the invariant succeeds, stays in it and
is a step of the relation, so is every run. -/
theorem run_runs {I : σ → Prop} {ok : ι → Prop} {R : σ → ι → ο → σ → Prop}
    (hstep : ∀ s i, I s → ok i → ∃ s' o, step s i = some (s', o) ∧ R s i o s' ∧ I s') {s : σ}
    (hs : I s) {is : List ι} (hok : ∀ i ∈ is, ok i) :
    ∃ s' os, run step s is = some (s', os) ∧ Runs R s is os s' ∧ I s' := by
  refine run_history (P := fun is os s' ↦ Runs R s is os s' ∧ I s') ⟨.nil, hs⟩ ?_ is List.prefix_rfl
  rintro js i os s' hpre ⟨hruns, hI⟩
  obtain ⟨s'', o, hi, hR, hI'⟩ := hstep s' i hI (hok i (hpre.subset (by simp)))
  exact ⟨s'', o, hi, hruns.snoc hR, hI'⟩

/-- If every step there is is a step of the relation, so is every run. -/
theorem runs_of_run {R : σ → ι → ο → σ → Prop}
    (hstep : ∀ s i s' o, step s i = some (s', o) → R s i o s') {s s' : σ} {is : List ι}
    {os : List ο} (h : run step s is = some (s', os)) : Runs R s is os s' := by
  induction is using List.reverseRecOn generalizing s' os with
  | nil =>
    obtain ⟨rfl, rfl⟩ := Prod.mk.inj (Option.some.inj h)
    exact .nil
  | append_singleton is i ih =>
    obtain ⟨s₁, os₁, os₂, hrun, hlast, rfl⟩ := run_append_iff.mp h
    obtain ⟨o, hs, rfl⟩ := run_singleton_iff.mp hlast
    exact (ih hrun).snoc (hstep s₁ i s' o hs)

/-- The last step of a run. -/
theorem Runs.last {step : τ → ι → ο → τ → Prop} {t t'' : τ} {is : List ι} {i : ι} {os : List ο}
    (h : Runs step t (is ++ [i]) os t'') :
    ∃ os' o t', os = os' ++ [o] ∧ Runs step t is os' t' ∧ step t' i o t'' := by
  generalize hjs : is ++ [i] = js at h
  cases h with
  | nil => simp at hjs
  | @snoc is' os' t' _ j o hruns hstep =>
    obtain ⟨rfl, hij⟩ := List.append_inj' hjs rfl
    obtain rfl := List.singleton_injective hij
    exact ⟨os', o, t', rfl, hruns, hstep⟩

end Machine
