import Mathlib.Data.List.Sort
import Mathlib.Order.Basic

/-!
# Peeling the smallest keys off a stable sort

`descending f` sorts a list by decreasing key and leaves elements with equal keys in the order
they came in.  A queue that is filled key by key, smallest key first, and always at its front ends
up sorted this way; `descending_peel` is the step of that argument.
-/

set_option autoImplicit false

namespace StableSort

variable {α β : Type} [LinearOrder β]

/-- Sort by decreasing key, stably. -/
def descending (f : α → β) (l : List α) : List α := l.insertionSort fun a b ↦ f b ≤ f a

@[simp] theorem descending_nil (f : α → β) : descending f [] = [] := rfl

theorem descending_cons (f : α → β) (a : α) (l : List α) :
    descending f (a :: l) = (descending f l).orderedInsert (fun a b ↦ f b ≤ f a) a := rfl

theorem mem_descending {f : α → β} {l : List α} {a : α} : a ∈ descending f l ↔ a ∈ l :=
  (List.perm_insertionSort _ l).mem_iff

/-- An element with the smallest key goes behind everything with a larger one. -/
theorem orderedInsert_min {f : α → β} {a : α} {hs ls : List α} (hh : ∀ b ∈ hs, f a < f b)
    (hl : ∀ b ∈ ls, f b = f a) :
    (hs ++ ls).orderedInsert (fun a b ↦ f b ≤ f a) a = hs ++ a :: ls := by
  induction hs with
  | nil =>
    cases ls with
    | nil => rfl
    | cons b ls => rw [List.nil_append, List.orderedInsert, if_pos (hl b (by simp)).le]; rfl
  | cons b hs ih =>
    have hb : ¬ f b ≤ f a := not_le.mpr (hh b (by simp))
    rw [List.cons_append, List.orderedInsert, if_neg hb,
      ih fun c hc ↦ hh c (List.mem_cons_of_mem _ hc)]
    rfl

/-- An element with a larger key goes in front of everything with the smallest one. -/
theorem orderedInsert_of_lt {f : α → β} {a : α} {hs ls : List α} (hl : ∀ b ∈ ls, f b < f a) :
    (hs ++ ls).orderedInsert (fun a b ↦ f b ≤ f a) a =
      hs.orderedInsert (fun a b ↦ f b ≤ f a) a ++ ls := by
  induction hs with
  | nil =>
    cases ls with
    | nil => rfl
    | cons b ls => exact if_pos (hl b (by simp)).le
  | cons b hs ih =>
    rw [List.cons_append, List.orderedInsert, List.orderedInsert]
    split
    · rfl
    · rw [ih]; rfl

/-- **The smallest keys come last, in the order they came in.** -/
theorem descending_peel {f : α → β} {l : List α} {c : β} (hc : ∀ a ∈ l, c ≤ f a) :
    descending f l = descending f (l.filter (c < f ·)) ++ l.filter (f · = c) := by
  induction l with
  | nil => rfl
  | cons a l ih =>
    have hrest := ih fun b hb ↦ hc b (List.mem_cons_of_mem _ hb)
    have hlow : ∀ b ∈ l.filter (f · = c), f b = c := fun b hb ↦ by
      simpa using (List.mem_filter.mp hb).2
    rw [descending_cons, hrest]
    rcases (hc a (by simp)).eq_or_lt with ha | ha
    · have hhigh : ∀ b ∈ descending f (l.filter (c < f ·)), f a < f b := fun b hb ↦ by
        simpa [ha] using (List.mem_filter.mp (mem_descending.mp hb)).2
      rw [orderedInsert_min hhigh fun b hb ↦ (hlow b hb).trans ha]
      simp [← ha]
    · rw [orderedInsert_of_lt fun b hb ↦ (hlow b hb).trans_lt ha]
      simp [ha, ha.ne', descending_cons]

end StableSort
