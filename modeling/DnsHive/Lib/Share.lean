import Mathlib.Logic.Function.Basic
import DnsHive.Lib.Machine

/-!
# Machines that share a resource

A family of machines, one for each `p : π`, take turns in any order.  Each has a state of its own,
and all work on one resource: `share`.

* `run_share` — what a machine's state says of the inputs it has read itself, and the resource of
  all that have been read, holds after every interleaving; and no interleaving faults.
-/

set_option autoImplicit false

namespace Machine

variable {π σ ρ ι ο : Type} [DecidableEq π]

/-- The machine that the input is for takes a step, on its own state and on the resource. -/
def share (step : σ × ρ → ι → Option ((σ × ρ) × ο)) (w : (π → σ) × ρ) (e : π × ι) :
    Option (((π → σ) × ρ) × ο) := do
  let ((s, r), o) ← step (w.1 e.1, w.2) e.2
  return ((Function.update w.1 e.1 s, r), o)

/-- The inputs of one machine. -/
def own (p : π) (es : List (π × ι)) : List ι := (es.filter (·.1 = p)).map Prod.snd

@[simp] theorem own_nil (p : π) : own p ([] : List (π × ι)) = [] := rfl

theorem own_append (p : π) (es es' : List (π × ι)) : own p (es ++ es') = own p es ++ own p es' := by
  simp [own]

theorem own_concat_self (es : List (π × ι)) (e : π × ι) :
    own e.1 (es ++ [e]) = own e.1 es ++ [e.2] := by
  simp [own]

theorem own_concat_ne {p : π} (es : List (π × ι)) {e : π × ι} (h : p ≠ e.1) :
    own p (es ++ [e]) = own p es := by
  simp [own, Ne.symm h]

variable {step : σ × ρ → ι → Option ((σ × ρ) × ο)} {L : π → List ι → σ → Prop}
  {G : List ι → ρ → Prop}

/-- After the inputs `es`: `L` speaks about each machine and its own inputs, and `G` about the
resource and those of all. -/
structure Interleaved (L : π → List ι → σ → Prop) (G : List ι → ρ → Prop) (es : List (π × ι))
    (w : (π → σ) × ρ) : Prop where
  each (p : π) : L p (own p es) (w.1 p)
  all : G (es.map Prod.snd) w.2

/-- A step of one machine leaves the others alone. -/
theorem Interleaved.snoc {w : (π → σ) × ρ} {es : List (π × ι)} (h : Interleaved L G es w)
    {e : π × ι} {s' : σ} {r' : ρ} (hL : L e.1 (own e.1 es ++ [e.2]) s')
    (hG : G (es.map Prod.snd ++ [e.2]) r') :
    Interleaved L G (es ++ [e]) (Function.update w.1 e.1 s', r') where
  each p := by
    show L p (own p (es ++ [e])) (Function.update w.1 e.1 s' p)
    by_cases hp : p = e.1
    · subst hp
      rw [Function.update_self, own_concat_self]
      exact hL
    · rw [Function.update_of_ne hp, own_concat_ne es hp]
      exact h.each p
  all := by
    rw [List.map_append]
    exact hG

/-- **The rule for interleavings.**  If a step keeps what `L` says, of the machine that takes it,
and what `G` says, so does every interleaving. -/
theorem run_share
    (hstep : ∀ p is js s r i, L p is s → G js r →
      ∃ s' r' o, step (s, r) i = some ((s', r'), o) ∧ L p (is ++ [i]) s' ∧ G (js ++ [i]) r')
    {w : (π → σ) × ρ} (hbegin : Interleaved L G [] w) (es : List (π × ι)) :
    ∃ w' os, run (share step) w es = some (w', os) ∧ Interleaved L G es w' := by
  refine run_history (P := fun fs _ w ↦ Interleaved L G fs w) hbegin ?_ es List.prefix_rfl
  intro fs e os w' _ h
  obtain ⟨s', r', o, hs, hL, hG⟩ :=
    hstep e.1 (own e.1 fs) (fs.map Prod.snd) (w'.1 e.1) w'.2 e.2 (h.each e.1) h.all
  exact ⟨(Function.update w'.1 e.1 s', r'), o, by simp [share, hs], h.snoc hL hG⟩

end Machine
