import Mathlib.Algebra.GroupWithZero.Nat
import DnsHive.Lib.Machine

/-!
# What a run costs

Every input grants a credit, and what a step does is paid for, at a price for each unit of work.  A
step may cost more than its credit if as much has been saved before; then no run costs more than its
credits and what has been saved when it begins (`run_amortized`).
-/

set_option autoImplicit false

namespace Machine

variable {σ ι ο : Type} {step : σ → ι → Option (σ × ο)} {credit : σ → ι → Nat} {work : ο → Nat}
  {price : Nat}

/-- The credits of all inputs, each one in the state that the machine has reached when it
arrives. -/
def credits (step : σ → ι → Option (σ × ο)) (credit : σ → ι → Nat) : σ → List ι → Nat
  | _, [] => 0
  | s, i :: is => credit s i + (step s i).elim 0 fun r ↦ credits step credit r.1 is

theorem credits_cons {s s' : σ} {i : ι} {o : ο} (h : step s i = some (s', o)) (is : List ι) :
    credits step credit s (i :: is) = credit s i + credits step credit s' is := by
  rw [credits, h]
  rfl

/-- **The rule of savings.**  `P is s n` says that `n` may have been saved in the state `s` with the
inputs `is` still to come. -/
theorem run_amortized {P : List ι → σ → Nat → Prop}
    (hstep : ∀ s i is n, P (i :: is) s n → ∃ s' o n', step s i = some (s', o) ∧ P is s' n' ∧
      price * work o + n' ≤ credit s i + n) :
    ∀ (is : List ι) (s : σ) (n : Nat), P is s n → ∃ s' os, run step s is = some (s', os) ∧
      price * (os.map work).sum ≤ credits step credit s is + n := by
  intro is
  induction is with
  | nil => exact fun s n _ ↦ ⟨s, [], rfl, Nat.zero_le _⟩
  | cons i is ih =>
    intro s n hP
    obtain ⟨s', o, n', hs, hP', hcost⟩ := hstep s i is n hP
    obtain ⟨s'', os, hrun, hsum⟩ := ih s' n' hP'
    refine ⟨s'', o :: os, run_cons hs hrun, ?_⟩
    rw [List.map_cons, List.sum_cons, Nat.mul_add, credits_cons hs]
    omega

end Machine
