import Mathlib.Data.Fintype.Pigeonhole
import Mathlib.Data.Finset.Card

/-!
# Following links

A partial map `f : α → Option α` links an element to at most one other.  `iter f k a` is the element
`k` links after `a`, if the chain goes that far, and `follow f n a` the one at which a bounded walk
ends, which takes `n` links at most.

* `walk_follow` — the walk ends after `n` links, or where there is no link, whatever comes first.
* `follow_of_iter`, `iter_mono` — a walk can be taken in parts, and later links only extend it.
* `follow_end` — a walk as long as there are links goes to the end, unless it runs into a cycle.
* `follow_eq_self_iff` — a walk comes back if there is no link, or a cycle that fits into it.
-/

set_option autoImplicit false

namespace Chase

variable {α : Type} {f g : α → Option α}

/-- The element `k` links after `a`. -/
def iter (f : α → Option α) : Nat → α → Option α
  | 0, a => some a
  | k + 1, a => (f a).bind (iter f k)

/-- Where a walk of at most `n` links ends. -/
def follow (f : α → Option α) : Nat → α → α
  | 0, a => a
  | n + 1, a =>
    match f a with
    | some b => follow f n b
    | none => a

/-- The chain from `a` comes back to where it has been. -/
def Cyclic (f : α → Option α) (a : α) : Prop :=
  ∃ i j, i < j ∧ (iter f i a).isSome ∧ iter f i a = iter f j a

/-- Of at most `n` links from `a` to `b`, the walk takes `k`: all there are, or `n`. -/
structure Walk (f : α → Option α) (n : Nat) (a : α) (k : Nat) (b : α) : Prop where
  le : k ≤ n
  iter_eq : iter f k a = some b
  /-- Every element passed has a link. -/
  going : ∀ j < k, ∃ x, iter f j a = some x ∧ (f x).isSome
  stop : k = n ∨ f b = none

/-! ## Counting links -/

theorem iter_zero (a : α) : iter f 0 a = some a := rfl

theorem iter_one (a : α) : iter f 1 a = f a := by
  rw [iter]
  cases f a <;> rfl

theorem iter_add (i j : Nat) (a : α) : iter f (i + j) a = (iter f i a).bind (iter f j) := by
  induction i generalizing a with
  | zero => rw [Nat.zero_add, iter_zero, Option.bind_some]
  | succ i ih =>
    rw [Nat.succ_add, iter, iter]
    cases f a with
    | none => rfl
    | some b => exact ih b

/-- One more link at the end. -/
theorem iter_succ (k : Nat) (a : α) : iter f (k + 1) a = (iter f k a).bind f := by
  rw [iter_add]
  exact congrArg _ (funext iter_one)

/-- A chain of `j` links has links up to there. -/
theorem iter_isSome_of_le {i j : Nat} (hij : i ≤ j) {a : α} (h : (iter f j a).isSome) :
    (iter f i a).isSome := by
  obtain ⟨k, rfl⟩ := Nat.exists_eq_add_of_le hij
  rw [iter_add] at h
  cases hi : iter f i a with
  | none => rw [hi] at h; exact h
  | some x => rfl

/-- Every element before the last one has a link. -/
theorem link_of_iter {i j : Nat} (hij : i < j) {a : α} (h : (iter f j a).isSome) :
    ∃ x, iter f i a = some x ∧ (f x).isSome := by
  have hnext : (iter f (i + 1) a).isSome := iter_isSome_of_le hij h
  obtain ⟨x, hx⟩ := Option.isSome_iff_exists.mp (iter_isSome_of_le (Nat.le_succ i) hnext)
  rw [iter_succ, hx, Option.bind_some] at hnext
  exact ⟨x, hx, hnext⟩

/-- More links only extend a chain. -/
theorem iter_mono (hfg : ∀ a b, f a = some b → g a = some b) {k : Nat} {a b : α}
    (h : iter f k a = some b) : iter g k a = some b := by
  induction k generalizing a with
  | zero => exact h
  | succ k ih =>
    rw [iter, Option.bind_eq_some_iff] at h
    obtain ⟨x, hx, hk⟩ := h
    rw [iter, hfg a x hx, Option.bind_some]
    exact ih hk

/-! ## The bounded walk -/

theorem follow_of_none {a : α} (h : f a = none) (n : Nat) : follow f n a = a := by
  cases n with
  | zero => rfl
  | succ n => rw [follow, h]

theorem follow_of_some {a b : α} (h : f a = some b) (n : Nat) :
    follow f (n + 1) a = follow f n b := by
  rw [follow, h]

/-- The rest of a walk. -/
theorem follow_of_iter {n k : Nat} (hk : k ≤ n) {a b : α} (h : iter f k a = some b) :
    follow f n a = follow f (n - k) b := by
  induction k generalizing n a with
  | zero =>
    rw [iter_zero, Option.some_inj] at h
    rw [h, Nat.sub_zero]
  | succ k ih =>
    obtain ⟨n, rfl⟩ := Nat.exists_eq_add_of_le' (Nat.one_le_of_lt hk)
    rw [iter, Option.bind_eq_some_iff] at h
    obtain ⟨x, hx, hrest⟩ := h
    rw [follow_of_some hx, ih (Nat.le_of_succ_le_succ hk) hrest, Nat.add_sub_add_right]

/-- **How far a walk goes.** -/
theorem walk_follow (f : α → Option α) (n : Nat) (a : α) : ∃ k, Walk f n a k (follow f n a) := by
  induction n generalizing a with
  | zero => exact ⟨0, Nat.le_refl 0, rfl, fun j hj ↦ absurd hj j.not_lt_zero, .inl rfl⟩
  | succ n ih =>
    cases hfa : f a with
    | none =>
      rw [follow_of_none hfa]
      exact ⟨0, Nat.zero_le _, rfl, fun j hj ↦ absurd hj j.not_lt_zero, .inr hfa⟩
    | some b =>
      obtain ⟨k, hle, hiter, -, hstop⟩ := ih b
      have hiter' : iter f (k + 1) a = some (follow f n b) := by
        rw [iter, hfa, Option.bind_some, hiter]
      rw [follow_of_some hfa]
      refine ⟨k + 1, Nat.succ_le_succ hle, hiter', fun j hj ↦ ?_,
        hstop.imp (congrArg (· + 1)) id⟩
      exact link_of_iter hj (Option.isSome_of_eq_some hiter')

/-- Where a walk of `n` links ends there is one more link exactly if the chain has more. -/
theorem follow_link_iff (n : Nat) (a : α) :
    (f (follow f n a)).isSome ↔ (iter f (n + 1) a).isSome := by
  obtain ⟨k, hle, hiter, -, hstop⟩ := walk_follow f n a
  have hnext : iter f (k + 1) a = f (follow f n a) := by rw [iter_succ, hiter, Option.bind_some]
  constructor
  · intro h
    rcases hstop with rfl | hnone
    · rw [hnext]
      exact h
    · rw [hnone] at h
      cases h
  · intro h
    rw [← hnext]
    exact iter_isSome_of_le (Nat.succ_le_succ hle) h

/-! ## Cycles -/

/-- A walk through no more than `n` elements with a link, with one element too many, comes back. -/
theorem cyclic_of_iter {s : Finset α} (hs : ∀ a, (f a).isSome → a ∈ s) {n : Nat}
    (hcard : s.card ≤ n) {a : α} (h : (iter f (n + 1) a).isSome) : Cyclic f a := by
  choose x hx hlink using fun i : Fin (n + 1) ↦ link_of_iter i.isLt h
  have hmaps : ∀ i ∈ (Finset.univ : Finset (Fin (n + 1))), x i ∈ s := fun i _ ↦ hs _ (hlink i)
  have hlt : s.card < (Finset.univ : Finset (Fin (n + 1))).card := by
    rw [Finset.card_univ, Fintype.card_fin]
    exact Nat.lt_succ_of_le hcard
  obtain ⟨i, -, j, -, hij, heq⟩ := Finset.exists_ne_map_eq_of_card_lt_of_maps_to hlt hmaps
  have hsame : iter f i a = iter f j a := by rw [hx i, hx j, heq]
  have hsome (i : Fin (n + 1)) : (iter f i a).isSome := Option.isSome_of_eq_some (hx i)
  rcases Nat.lt_or_gt_of_ne (Fin.val_ne_of_ne hij) with hlt | hlt
  · exact ⟨i, j, hlt, hsome i, hsame⟩
  · exact ⟨j, i, hlt, hsome j, hsame.symm⟩

/-- **A small chain is never cut short**, unless it runs into a cycle. -/
theorem follow_end {s : Finset α} (hs : ∀ a, (f a).isSome → a ∈ s) {n : Nat}
    (hcard : s.card ≤ n) {a : α} (h : ¬ Cyclic f a) : f (follow f n a) = none := by
  rw [← Option.not_isSome_iff_eq_none, follow_link_iff]
  exact fun hlong ↦ h (cyclic_of_iter hs hcard hlong)

/-- A cycle may be taken several times. -/
theorem iter_mul {p : Nat} {a : α} (h : iter f p a = some a) (q : Nat) :
    iter f (p * q) a = some a := by
  induction q with
  | zero => rfl
  | succ q ih => rw [Nat.mul_succ, iter_add, ih, Option.bind_some, h]

/-- What is true of the beginning and of all links is true of the end. -/
theorem follow_of_links {P : α → Prop} (hf : ∀ a b, f a = some b → P b) (n : Nat) {a : α}
    (ha : P a) : P (follow f n a) := by
  induction n generalizing a with
  | zero => exact ha
  | succ n ih =>
    rw [follow]
    cases hlink : f a with
    | none => exact ha
    | some b => exact ih (hf a b hlink)

/-- **When a walk comes back to where it began.** -/
theorem follow_eq_self_iff {n : Nat} (hn : n ≠ 0) (a : α) :
    follow f n a = a ↔ f a = none ∨ ∃ p, p ∣ n ∧ iter f p a = some a := by
  constructor
  · intro h
    obtain ⟨k, -, hiter, -, hstop⟩ := walk_follow f n a
    rw [h] at hiter hstop
    rcases hstop with rfl | hnone
    · exact .inr ⟨k, Nat.dvd_refl k, hiter⟩
    · exact .inl hnone
  · rintro (hnone | ⟨p, ⟨q, rfl⟩, hp⟩)
    · exact follow_of_none hnone n
    · rw [follow_of_iter (Nat.le_refl _) (iter_mul hp q), Nat.sub_self, follow]

end Chase
