import Mathlib.Data.List.Forall2
import DnsHive.Lib.Machine

/-!
# Two machines in lockstep

Two fallible machines that read corresponding inputs run in lockstep if at every step both fault, or
neither does and their outputs correspond.  Neither of them is the more abstract one, and nothing is
assumed of the inputs: what makes one machine fault makes the other fault as well.
-/

set_option autoImplicit false

namespace Machine

variable {σ τ ι κ ο π : Type} {step : σ → ι → Option (σ × ο)} {step' : τ → κ → Option (τ × π)}

/-- Both fault, or neither does; the states and the outputs are then related. -/
def Agreeing (R : σ → τ → Prop) (S : ο → π → Prop) : Option (σ × ο) → Option (τ × π) → Prop :=
  Option.Rel fun a b ↦ R a.1 b.1 ∧ S a.2 b.2

section Agreeing

variable {R : σ → τ → Prop} {S : ο → π → Prop} {x : Option (σ × ο)} {y : Option (τ × π)}

theorem agreeing_iff :
    Agreeing R S x y ↔ (x = none ∧ y = none) ∨
      ∃ s o t q, x = some (s, o) ∧ y = some (t, q) ∧ R s t ∧ S o q := by
  constructor
  · intro h
    cases h with
    | none => exact .inl ⟨rfl, rfl⟩
    | @some a b hab => exact .inr ⟨a.1, a.2, b.1, b.2, rfl, rfl, hab⟩
  · rintro (⟨rfl, rfl⟩ | ⟨s, o, t, q, rfl, rfl, hR, hS⟩)
    · exact .none
    · exact .some ⟨hR, hS⟩

/-- What follows agrees if it does so from related states. -/
theorem Agreeing.bind {σ' τ' ο' π' : Type} {R' : σ' → τ' → Prop} {S' : ο' → π' → Prop}
    {f : σ × ο → Option (σ' × ο')} {g : τ × π → Option (τ' × π')} (h : Agreeing R S x y)
    (hfg : ∀ s o t q, R s t → S o q → Agreeing R' S' (f (s, o)) (g (t, q))) :
    Agreeing R' S' (x.bind f) (y.bind g) := by
  rcases agreeing_iff.mp h with ⟨rfl, rfl⟩ | ⟨s, o, t, q, rfl, rfl, hR, hS⟩
  · exact .none
  · exact hfg s o t q hR hS

theorem Agreeing.eq_none (h : Agreeing R S x none) : x = none :=
  ((agreeing_iff.mp h).resolve_right fun ⟨_, _, _, _, _, h, _⟩ ↦ nomatch h).1

theorem Agreeing.eq_some {t : τ} {q : π} (h : Agreeing R S x (some (t, q))) :
    ∃ s o, x = some (s, o) ∧ R s t ∧ S o q := by
  obtain ⟨s, o, t', q', hx, hy, hR, hS⟩ := (agreeing_iff.mp h).resolve_left fun h ↦ nomatch h.2
  obtain ⟨rfl, rfl⟩ := Prod.mk.inj (Option.some.inj hy)
  exact ⟨s, o, hx, hR, hS⟩

theorem Agreeing.some {s : σ} {o : ο} {t : τ} {q : π} (hR : R s t) (hS : S o q) :
    Agreeing R S (some (s, o)) (some (t, q)) := Option.Rel.some ⟨hR, hS⟩

end Agreeing

/-- What `run_append_iff` says, as an equation. -/
theorem run_append_eq (s : σ) (is js : List ι) :
    run step s (is ++ js) =
      (run step s is).bind fun r ↦ (run step r.1 js).map fun q ↦ (q.1, r.2 ++ q.2) := by
  refine Option.ext fun r ↦ ?_
  simp only [Option.bind_eq_some_iff, Option.map_eq_some_iff]
  constructor
  · intro h
    obtain ⟨s', os₁, os₂, h₁, h₂, hos⟩ := run_append_iff.mp h
    exact ⟨(s', os₁), h₁, (r.1, os₂), h₂, by rw [← hos]⟩
  · rintro ⟨r₁, h₁, r₂, h₂, rfl⟩
    exact run_append h₁ h₂

theorem run_concat_eq (s : σ) (is : List ι) (i : ι) :
    run step s (is ++ [i]) =
      (run step s is).bind fun r ↦ (step r.1 i).map fun q ↦ (q.1, r.2 ++ [q.2]) := by
  rw [run_append_eq]
  refine Option.bind_congr fun r _ ↦ ?_
  rw [run]
  cases step r.1 i <;> rfl

/-- **The lockstep rule.**  If two machines that are related agree on every input and are then
related again, so they are after every run.  The relation may speak about the inputs read so far,
and a step has to keep it only for inputs that continue a prefix of those given to the run. -/
theorem run_lockstep {R : List ι → σ → τ → Prop} {S : ο → π → Prop} (f : ι → κ) {all : List ι}
    {s : σ} {t : τ} (h0 : R [] s t)
    (hstep : ∀ is i s t, is ++ [i] <+: all → R is s t →
      Agreeing (R (is ++ [i])) S (step s i) (step' t (f i))) :
    ∀ is, is <+: all →
      Agreeing (R is) (List.Forall₂ S) (run step s is) (run step' t (is.map f)) := by
  intro is
  induction is using List.reverseRecOn with
  | nil => exact fun _ ↦ .some h0 .nil
  | append_singleton is i ih =>
    intro hpre
    rw [List.map_append, List.map_singleton, run_concat_eq, run_concat_eq]
    refine (ih ((List.prefix_append is [i]).trans hpre)).bind fun s os t qs hR hS ↦ ?_
    rcases agreeing_iff.mp (hstep is i s t hpre hR) with ⟨hs, ht⟩ | ⟨s', o, t', q, hs, ht, hR', hS'⟩
    · rw [hs, ht]
      exact .none
    · rw [hs, ht]
      exact .some hR' (List.rel_append hS (.cons hS' .nil))

end Machine
