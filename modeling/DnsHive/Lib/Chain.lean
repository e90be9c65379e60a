import Mathlib.Data.List.Nodup
import Mathlib.Logic.Function.Basic
import Mathlib.Logic.Relation

/-!
# Intrusive linked lists

An intrusive list keeps its pointers inside the elements.  So a list is not a value: it is a root
address together with the fields of every address in memory, and one address can lie on several
lists at once, one per field.  This file treats the fields as functions `A → Option A`, `none`
being the null pointer, and says what it means for the field values to spell out a `List A`.

* `Singly link r xs` — following `link` from the root `r` visits exactly `xs` and then stops.
* `Doubly next prev r xs` — the same for `next`, and every element's `prev` points at the element
  before it, which for the first one is the root.

Both are finite and duplicate-free by construction (`Singly.nodup`), so acyclicity never has to be
assumed.  `Reaches` is what a field leads to where no end is known.  `push`, `pop`, `insertPrev` and
`unlink` are the field updates a program makes, and each comes with the list it produces and with a
frame lemma for the lists it must not touch.
-/

set_option autoImplicit false

namespace Intrusive

variable {A : Type} {link next prev : A → Option A}

/-! ## Singly linked lists -/

/-- Following `link` from `r` visits `xs`, in this order, and then meets the null pointer. -/
def Singly (link : A → Option A) : A → List A → Prop
  | r, [] => link r = none
  | r, x :: xs => link r = some x ∧ Singly link x xs

@[simp] theorem singly_nil {r : A} : Singly link r [] ↔ link r = none := Iff.rfl

@[simp] theorem singly_cons {r x : A} {xs : List A} :
    Singly link r (x :: xs) ↔ link r = some x ∧ Singly link x xs := Iff.rfl

theorem Singly.head {r : A} {xs : List A} (h : Singly link r xs) : link r = xs.head? := by
  cases xs with
  | nil => exact h
  | cons x xs => exact h.1

/-- A root spells out at most one list. -/
theorem Singly.unique {r : A} {xs ys : List A} (hx : Singly link r xs) (hy : Singly link r ys) :
    xs = ys := by
  induction xs generalizing r ys with
  | nil =>
    cases ys with
    | nil => rfl
    | cons y ys => rw [singly_nil, hy.1] at hx; exact absurd hx (by simp)
  | cons x xs ih =>
    cases ys with
    | nil => rw [singly_nil, hx.1] at hy; exact absurd hy (by simp)
    | cons y ys =>
      obtain rfl : x = y := Option.some.inj (hx.1.symm.trans hy.1)
      rw [ih hx.2 hy.2]

/-- What is left of a list beyond one of its elements is the list rooted there. -/
theorem Singly.suffix {r x : A} {ys zs : List A} (h : Singly link r (ys ++ x :: zs)) :
    Singly link x zs := by
  induction ys generalizing r with
  | nil => exact h.2
  | cons y ys ih => exact ih h.2

/-- **Finite lists are acyclic**: the root and the elements are pairwise different, because two
occurrences of one address would be followed by the same rest. -/
theorem Singly.nodup {r : A} {xs : List A} (h : Singly link r xs) : (r :: xs).Nodup := by
  induction xs generalizing r with
  | nil => simp
  | cons x xs ih =>
    refine List.nodup_cons.mpr ⟨fun hr ↦ ?_, ih h.2⟩
    obtain ⟨ys, zs, hsplit⟩ := List.append_of_mem hr
    have hz : Singly link r zs := Singly.suffix (hsplit ▸ h)
    have hlen := congrArg List.length (hz.unique h)
    have hlen' := congrArg List.length hsplit
    simp only [List.length_append, List.length_cons] at hlen hlen'
    omega

/-- The elements are the addresses that can be reached from the root. -/
theorem Singly.transGen_iff {r p : A} {xs : List A} (h : Singly link r xs) :
    Relation.TransGen (fun a b ↦ link a = some b) r p ↔ p ∈ xs := by
  constructor
  · intro hp
    induction hp with
    | single hp =>
      rw [h.head] at hp
      exact List.mem_of_mem_head? hp
    | tail _ hbc ih =>
      obtain ⟨ys, zs, rfl⟩ := List.append_of_mem ih
      rw [h.suffix.head] at hbc
      exact List.mem_append_right _ (List.mem_cons_of_mem _ (List.mem_of_mem_head? hbc))
  · intro hp
    induction xs generalizing r with
    | nil => simp at hp
    | cons x xs ih =>
      rcases List.mem_cons.mp hp with rfl | hp
      · exact .single h.1
      · exact .head h.1 (ih h.2 hp)

/-- The pointers of a list stay inside the list. -/
theorem Singly.link_mem {r p y : A} {xs : List A} (h : Singly link r xs) (hp : p ∈ r :: xs)
    (hy : link p = some y) : y ∈ xs := by
  rw [← h.transGen_iff]
  rcases List.mem_cons.mp hp with rfl | hp
  · exact .single hy
  · exact .tail (h.transGen_iff.mpr hp) hy

theorem Singly.head_ne {r x : A} {xs : List A} (h : Singly link r xs) (hx : x ∉ xs) :
    link r ≠ some x := fun hq ↦ hx (h.link_mem (List.mem_cons_self ..) hq)

/-- **Frame**: only the root's and the elements' fields matter. -/
theorem Singly.congr {link' : A → Option A} {r : A} {xs : List A} (h : Singly link r xs)
    (heq : ∀ p ∈ r :: xs, link' p = link p) : Singly link' r xs := by
  induction xs generalizing r with
  | nil => rw [singly_nil, heq r (by simp)]; exact h
  | cons x xs ih =>
    exact ⟨(heq r (by simp)).trans h.1, ih h.2 fun p hp ↦ heq p (List.mem_cons_of_mem _ hp)⟩

/-! ## What a root leads to

A field need not end its lists: following it can run into a circle, or on for ever.  What it then
leads to is a relation, and for a list that does end it is membership. -/

/-- Following `link` from `r` meets `p`, at the root itself or later. -/
def Reaches (link : A → Option A) (r p : A) : Prop :=
  Relation.ReflTransGen (fun a b ↦ link a = some b) r p

theorem Reaches.refl {r : A} : Reaches link r r := Relation.ReflTransGen.refl

theorem Singly.reaches_iff {r p : A} {xs : List A} (h : Singly link r xs) :
    Reaches link r p ↔ p ∈ r :: xs := by
  rw [Reaches, Relation.reflTransGen_iff_eq_or_transGen, h.transGen_iff, List.mem_cons]

/-- **Frame**: two fields that agree on all that one of them leads to lead to the same. -/
theorem reaches_congr {link' : A → Option A} {r p : A}
    (heq : ∀ q, Reaches link r q → link' q = link q) : Reaches link' r p ↔ Reaches link r p := by
  constructor
  · intro hp
    induction hp with
    | refl => exact .refl
    | tail _ hbc ih => exact ih.tail ((heq _ ih).symm.trans hbc)
  · intro hp
    induction hp with
    | refl => exact .refl
    | tail hab hbc ih => exact ih.tail ((heq _ hab).trans hbc)

/-! ## Doubly linked lists -/

/-- `next` spells out `xs` from `r`, and `prev` leads back along it. -/
def Doubly (next prev : A → Option A) : A → List A → Prop
  | r, [] => next r = none
  | r, x :: xs => next r = some x ∧ prev x = some r ∧ Doubly next prev x xs

@[simp] theorem doubly_nil {r : A} : Doubly next prev r [] ↔ next r = none := Iff.rfl

@[simp] theorem doubly_cons {r x : A} {xs : List A} :
    Doubly next prev r (x :: xs) ↔ next r = some x ∧ prev x = some r ∧ Doubly next prev x xs :=
  Iff.rfl

theorem Doubly.singly {r : A} {xs : List A} (h : Doubly next prev r xs) : Singly next r xs := by
  induction xs generalizing r with
  | nil => exact h
  | cons x xs ih => exact ⟨h.1, ih h.2.2⟩

theorem Doubly.suffix {r x : A} {ys zs : List A} (h : Doubly next prev r (ys ++ x :: zs)) :
    Doubly next prev x zs := by
  induction ys generalizing r with
  | nil => exact h.2.2
  | cons y ys ih => exact ih h.2.2

/-- The field `prev` of an element holds what stands before it. -/
theorem Doubly.prev_eq {r x : A} {ys zs : List A} (h : Doubly next prev r (ys ++ x :: zs)) :
    prev x = some ((r :: ys).getLast (by simp)) := by
  induction ys generalizing r with
  | nil => exact h.2.1
  | cons y ys ih => simpa using ih h.2.2

theorem Doubly.prev_mem {r x : A} {xs : List A} (h : Doubly next prev r xs) (hx : x ∈ xs) :
    ∃ p ∈ r :: xs, prev x = some p := by
  obtain ⟨ys, zs, rfl⟩ := List.append_of_mem hx
  refine ⟨_, ?_, h.prev_eq⟩
  have hmem := List.getLast_mem (List.cons_ne_nil r ys)
  simp only [List.mem_cons, List.mem_append] at hmem ⊢
  tauto

/-- **The two directions agree**: `y` follows `p` exactly if `p` precedes `y`. -/
theorem Doubly.next_iff_prev {r p y : A} {xs : List A} (h : Doubly next prev r xs)
    (hp : p ∈ r :: xs) (hy : y ∈ xs) : next p = some y ↔ prev y = some p := by
  induction xs generalizing r with
  | nil => simp at hy
  | cons x xs ih =>
    have hnd := h.singly.nodup
    by_cases hpr : p = r
    · subst hpr
      rcases List.mem_cons.mp hy with rfl | hy
      · simp [h.1, h.2.1]
      · -- `y` stands further down, so neither field can name the other
        obtain ⟨q, hq, hyq⟩ := h.2.2.prev_mem hy
        have hne : q ≠ p := fun e ↦ (List.nodup_cons.mp hnd).1 (e ▸ hq)
        have hxy : x ≠ y := fun e ↦ (List.nodup_cons.mp (List.nodup_cons.mp hnd).2).1 (e ▸ hy)
        simp [h.1, hyq, hxy, hne]
    · have hp' : p ∈ x :: xs := (List.mem_cons.mp hp).resolve_left hpr
      rcases List.mem_cons.mp hy with rfl | hy
      · -- nothing in the list points back at its first element
        have hn : next p ≠ some y := fun hpy ↦
          (List.nodup_cons.mp (List.nodup_cons.mp hnd).2).1 (h.2.2.singly.link_mem hp' hpy)
        simp [hn, h.2.1, Ne.symm hpr]
      · exact ih h.2.2 hp' hy

/-- **Frame**: `next` matters at the root and the elements, `prev` at the elements only. -/
theorem Doubly.congr {next' prev' : A → Option A} {r : A} {xs : List A}
    (h : Doubly next prev r xs) (hn : ∀ p ∈ r :: xs, next' p = next p)
    (hp : ∀ p ∈ xs, prev' p = prev p) : Doubly next' prev' r xs := by
  induction xs generalizing r with
  | nil => rw [doubly_nil, hn r (by simp)]; exact h
  | cons x xs ih =>
    refine ⟨(hn r (by simp)).trans h.1, (hp x (by simp)).trans h.2.1, ih h.2.2 ?_ ?_⟩
    · exact fun p hp' ↦ hn p (List.mem_cons_of_mem _ hp')
    · exact fun p hp' ↦ hp p (List.mem_cons_of_mem _ hp')

/-! ## Pushing and popping at the root

`push` is also the `next` half of inserting into a doubly linked list, `insertPrev` being the
other half. -/

variable [DecidableEq A]

/-- The field after `x` has been put in front of the list at `r`. -/
def push (link : A → Option A) (r x : A) : A → Option A :=
  Function.update (Function.update link x (link r)) r (some x)

/-- The field after the root has been moved past its first element `x`. -/
def pop (link : A → Option A) (r x : A) : A → Option A := Function.update link r (link x)

theorem push_of_ne {r x p : A} (hr : p ≠ r) (hx : p ≠ x) : push link r x p = link p := by
  simp [push, hr, hx]

theorem pop_of_ne {r x p : A} (hr : p ≠ r) : pop link r x p = link p := by simp [pop, hr]

theorem push_elem {r x : A} (hx : x ≠ r) : push link r x x = link r := by simp [push, hx]

theorem Singly.push {r x : A} {xs : List A} (h : Singly link r xs) (hx : x ∉ r :: xs) :
    Singly (push link r x) r (x :: xs) := by
  have hxr : x ≠ r := fun e ↦ hx (by simp [e])
  refine ⟨by simp [Intrusive.push], ?_⟩
  have hnd := h.nodup
  cases xs with
  | nil => rw [singly_nil, push_elem hxr]; exact h
  | cons y ys =>
    refine ⟨(push_elem hxr).trans h.1, h.2.congr fun p hp ↦ push_of_ne ?_ ?_⟩
    · exact fun e ↦ (List.nodup_cons.mp hnd).1 (e ▸ hp)
    · exact fun e ↦ hx (List.mem_cons_of_mem _ (e ▸ hp))

theorem Singly.push_frame {r r' x : A} {xs : List A} (h : Singly link r' xs)
    (hr : r ∉ r' :: xs) (hx : x ∉ r' :: xs) : Singly (Intrusive.push link r x) r' xs :=
  h.congr fun _ hp ↦ push_of_ne (fun e ↦ hr (e ▸ hp)) (fun e ↦ hx (e ▸ hp))

theorem Singly.pop {r x : A} {xs : List A} (h : Singly link r (x :: xs)) :
    Singly (pop link r x) r xs := by
  have hnd := h.nodup
  cases xs with
  | nil => simpa [Intrusive.pop] using h.2
  | cons y ys =>
    refine ⟨by simp [Intrusive.pop, h.2.1], h.2.2.congr fun p hp ↦ pop_of_ne ?_⟩
    exact fun e ↦ (List.nodup_cons.mp hnd).1 (List.mem_cons_of_mem _ (e ▸ hp))

theorem Singly.pop_frame {r r' x : A} {xs : List A} (h : Singly link r' xs) (hr : r ∉ r' :: xs) :
    Singly (Intrusive.pop link r x) r' xs :=
  h.congr fun _ hp ↦ pop_of_ne fun e ↦ hr (e ▸ hp)

/-! ## Inserting behind the root -/

/-- The field `prev` after `x` has been inserted between `r` and the element behind it. -/
def insertPrev (next prev : A → Option A) (r x : A) : A → Option A :=
  match next r with
  | none => Function.update prev x (some r)
  | some q => Function.update (Function.update prev x (some r)) q (some x)

theorem insertPrev_of_ne {r x p : A} (hx : p ≠ x) (hq : next r ≠ some p) :
    insertPrev next prev r x p = prev p := by
  rw [insertPrev]
  cases hr : next r with
  | none => simp [hx]
  | some q =>
    have hpq : p ≠ q := fun e ↦ hq (e ▸ hr)
    simp [hx, hpq]

theorem insertPrev_elem {r x : A} (hx : next r ≠ some x) : insertPrev next prev r x x = some r := by
  rw [insertPrev]
  cases hr : next r with
  | none => simp
  | some q =>
    have hxq : x ≠ q := fun e ↦ hx (e ▸ hr)
    simp [hxq]

/-- Outside its list, insertion writes no `prev` but that of the new element. -/
theorem Doubly.insertPrev_of_notMem {r x p : A} {xs : List A} (h : Doubly next prev r xs)
    (hx : p ≠ x) (hp : p ∉ xs) : insertPrev next prev r x p = prev p :=
  insertPrev_of_ne hx (h.singly.head_ne hp)

/-- **Insertion puts the element first.** -/
theorem Doubly.insert {r x : A} {xs : List A} (h : Doubly next prev r xs) (hx : x ∉ r :: xs) :
    Doubly (Intrusive.push next r x) (insertPrev next prev r x) r (x :: xs) := by
  have hxr : x ≠ r := fun e ↦ hx (by simp [e])
  have hnd := h.singly.nodup
  cases xs with
  | nil =>
    rw [doubly_nil] at h
    exact ⟨by simp [Intrusive.push], by simp [insertPrev, h], by simp [push_elem hxr, h]⟩
  | cons y ys =>
    have hxy : x ≠ y := fun e ↦ hx (by simp [e])
    refine ⟨by simp [Intrusive.push], by simp [insertPrev, h.1, hxy], ?_⟩
    refine ⟨(push_elem hxr).trans h.1, by simp [insertPrev, h.1], h.2.2.congr ?_ ?_⟩
    · intro p hp
      refine push_of_ne (fun e ↦ ?_) (fun e ↦ hx (List.mem_cons_of_mem _ (e ▸ hp)))
      exact (List.nodup_cons.mp hnd).1 (e ▸ hp)
    · intro p hp
      refine insertPrev_of_ne (fun e ↦ hx ?_) (fun e ↦ ?_)
      · exact List.mem_cons_of_mem _ (List.mem_cons_of_mem _ (e ▸ hp))
      · obtain rfl : y = p := Option.some.inj (h.1.symm.trans e)
        exact (List.nodup_cons.mp (List.nodup_cons.mp hnd).2).1 hp

theorem Doubly.insert_frame {r r' x : A} {xs : List A} (h : Doubly next prev r' xs)
    (hr : r ∉ r' :: xs) (hx : x ∉ r' :: xs) (hq : ∀ p ∈ xs, next r ≠ some p) :
    Doubly (Intrusive.push next r x) (insertPrev next prev r x) r' xs := by
  refine h.congr (fun p hp ↦ push_of_ne ?_ ?_) fun p hp ↦ insertPrev_of_ne ?_ (hq p hp)
  · exact fun e ↦ hr (e ▸ hp)
  · exact fun e ↦ hx (e ▸ hp)
  · exact fun e ↦ hx (List.mem_cons_of_mem _ (e ▸ hp))

/-! ## Unlinking an element

Removing `x` redirects the element before it to the one behind it, and conversely, and clears both
fields of `x`.  The two halves are the same update with the fields exchanged. -/

/-- The field `f` after `x` has been taken out, `g` being the field of the other direction. -/
def unlink (f g : A → Option A) (x : A) : A → Option A :=
  match g x with
  | none => Function.update f x none
  | some p => Function.update (Function.update f p (f x)) x none

@[simp] theorem unlink_self {f g : A → Option A} {x : A} : unlink f g x x = none := by
  rw [unlink]; cases g x <;> simp

theorem unlink_of_ne {f g : A → Option A} {x p : A} (hx : p ≠ x) (hg : g x ≠ some p) :
    unlink f g x p = f p := by
  rw [unlink]
  cases hq : g x with
  | none => simp [hx]
  | some q =>
    have hpq : p ≠ q := fun e ↦ hg (e ▸ hq)
    simp [hx, hpq]

theorem unlink_before {f g : A → Option A} {x p : A} (hx : p ≠ x) (hg : g x = some p) :
    unlink f g x p = f x := by
  simp [unlink, hg, hx]

/-- **Unlinking takes out exactly one element**, wherever in the list it stands.  The induction is
on what stands before it; nothing there changes except the last `next`. -/
theorem Doubly.unlink {r x : A} {ys zs : List A} (h : Doubly next prev r (ys ++ x :: zs)) :
    Doubly (unlink next prev x) (unlink prev next x) r (ys ++ zs) := by
  have hnd := h.singly.nodup
  induction ys generalizing r with
  | nil =>
    simp only [List.nil_append] at h hnd ⊢
    have hrx : r ≠ x := fun e ↦ (List.nodup_cons.mp hnd).1 (by simp [e])
    have hnext : Intrusive.unlink next prev x r = next x := unlink_before hrx h.2.1
    cases zs with
    | nil => rw [doubly_nil, hnext]; exact h.2.2
    | cons z zs =>
      obtain ⟨-, hpx, hxz, hpz, hrest⟩ := h
      have hzx : z ≠ x := fun e ↦ (List.nodup_cons.mp (List.nodup_cons.mp hnd).2).1 (by simp [e])
      refine ⟨hnext.trans hxz, (unlink_before hzx hxz).trans hpx, hrest.congr ?_ ?_⟩
      · intro p hp
        refine unlink_of_ne (fun e ↦ ?_) (fun e ↦ ?_)
        · exact (List.nodup_cons.mp (List.nodup_cons.mp hnd).2).1 (e ▸ hp)
        · obtain rfl : r = p := Option.some.inj (hpx.symm.trans e)
          exact (List.nodup_cons.mp hnd).1 (List.mem_cons_of_mem _ hp)
      · intro p hp
        refine unlink_of_ne (fun e ↦ ?_) (fun e ↦ ?_)
        · exact (List.nodup_cons.mp (List.nodup_cons.mp hnd).2).1
            (List.mem_cons_of_mem _ (e ▸ hp))
        · obtain rfl : z = p := Option.some.inj (hxz.symm.trans e)
          exact (List.nodup_cons.mp (List.nodup_cons.mp (List.nodup_cons.mp hnd).2).2).1 hp
  | cons y ys ih =>
    simp only [List.cons_append] at h hnd ⊢
    have hprev := h.2.2.prev_eq
    have hmem := List.getLast_mem (List.cons_ne_nil y ys)
    have hx : x ∈ y :: (ys ++ x :: zs) := by simp
    refine ⟨?_, ?_, ih h.2.2 (List.nodup_cons.mp hnd).2⟩
    · rw [unlink_of_ne ?_ ?_]
      · exact h.1
      · exact fun e ↦ (List.nodup_cons.mp hnd).1 (e ▸ hx)
      · -- the element before `x` is one of `y :: ys`, not the root
        intro e
        rw [hprev, Option.some_inj] at e
        refine (List.nodup_cons.mp hnd).1 (e ▸ ?_)
        simp only [List.mem_cons, List.mem_append] at hmem ⊢
        tauto
    · rw [unlink_of_ne ?_ ?_]
      · exact h.2.1
      · exact fun e ↦ (List.nodup_cons.mp (List.nodup_cons.mp hnd).2).1 (by simp [e])
      · -- the element behind `x` is one of `zs`, not `y`
        intro e
        have hzs := h.2.2.suffix.singly.link_mem (List.mem_cons_self ..) e
        exact (List.nodup_cons.mp (List.nodup_cons.mp hnd).2).1 (by simp [hzs])

/-- Unlinking an element writes no `next` outside its list. -/
theorem Doubly.unlink_next_of_notMem {r x p : A} {xs : List A} (h : Doubly next prev r xs)
    (hx : x ∈ xs) (hp : p ∉ r :: xs) : Intrusive.unlink next prev x p = next p := by
  refine unlink_of_ne (fun e ↦ hp (e ▸ List.mem_cons_of_mem _ hx)) fun hq ↦ hp ?_
  obtain ⟨q, hqm, hxq⟩ := h.prev_mem hx
  exact Option.some.inj (hxq.symm.trans hq) ▸ hqm

/-- Unlinking an element writes no `prev` outside its list. -/
theorem Doubly.unlink_prev_of_notMem {r x p : A} {xs : List A} (h : Doubly next prev r xs)
    (hx : x ∈ xs) (hp : p ∉ xs) : Intrusive.unlink prev next x p = prev p :=
  unlink_of_ne (fun e ↦ hp (e ▸ hx)) fun hq ↦
    hp (h.singly.link_mem (List.mem_cons_of_mem _ hx) hq)

theorem Doubly.unlink_frame {r x : A} {xs : List A} (h : Doubly next prev r xs)
    (hx : x ∉ r :: xs) (hp : ∀ p ∈ r :: xs, prev x ≠ some p) (hn : ∀ p ∈ xs, next x ≠ some p) :
    Doubly (Intrusive.unlink next prev x) (Intrusive.unlink prev next x) r xs := by
  refine h.congr (fun p hm ↦ unlink_of_ne ?_ (hp p hm)) fun p hm ↦ unlink_of_ne ?_ (hn p hm)
  · exact fun e ↦ hx (e ▸ hm)
  · exact fun e ↦ hx (List.mem_cons_of_mem _ (e ▸ hm))

/-! ## Unlinking what has just been inserted

The fields are then those of before, but for the element itself, whose fields are cleared. -/

theorem Doubly.unlink_push {r x : A} {xs : List A} (h : Doubly next prev r xs) (hx : x ∉ r :: xs) :
    Intrusive.unlink (Intrusive.push next r x) (insertPrev next prev r x) x =
      Function.update next x none := by
  have hxr : x ≠ r := fun e ↦ hx (by simp [e])
  have hback : insertPrev next prev r x x = some r :=
    insertPrev_elem (h.singly.head_ne (List.not_mem_of_not_mem_cons hx))
  funext p
  by_cases hpx : p = x
  · subst hpx
    rw [unlink_self, Function.update_self]
  rw [Function.update_of_ne hpx]
  by_cases hpr : p = r
  · subst hpr
    exact (unlink_before hpx hback).trans (push_elem hxr)
  · have hne : insertPrev next prev r x x ≠ some p := by simpa [hback] using Ne.symm hpr
    exact (unlink_of_ne hpx hne).trans (push_of_ne hpr hpx)

theorem Doubly.unlink_insertPrev {r x : A} {xs : List A} (h : Doubly next prev r xs)
    (hx : x ∉ r :: xs) :
    Intrusive.unlink (insertPrev next prev r x) (Intrusive.push next r x) x =
      Function.update prev x none := by
  have hxr : x ≠ r := fun e ↦ hx (by simp [e])
  have hahead : Intrusive.push next r x x = next r := push_elem hxr
  have hback : insertPrev next prev r x x = some r :=
    insertPrev_elem (h.singly.head_ne (List.not_mem_of_not_mem_cons hx))
  funext p
  by_cases hpx : p = x
  · subst hpx
    rw [unlink_self, Function.update_self]
  rw [Function.update_of_ne hpx]
  by_cases hp : next r = some p
  · -- `p` was the first element, and `prev` leads from it to the root again
    have hmem : p ∈ xs := h.singly.link_mem (List.mem_cons_self ..) hp
    rw [unlink_before hpx (hahead.trans hp), hback]
    exact ((h.next_iff_prev (List.mem_cons_self ..) hmem).mp hp).symm
  · have hne : Intrusive.push next r x x ≠ some p := hahead ▸ hp
    exact (unlink_of_ne hpx hne).trans (insertPrev_of_ne hpx hp)

end Intrusive
