import DnsHive.LRUHash.Ownership

/-!
# Advancing the clock

`prog` visits the slots from that of the clock on, one for each tick.  Advancing in two parts visits
the same slots in the same order (`prog_add`), and after a whole turn there is nothing left for
further ticks to take out: any advance by a turn or more leaves what `flush` leaves
(`prog_composes`).

The second part rests on the deadlines lying in a window of one turn, which the wheel keeps whatever
the clock does (`Table.Window.wheelStep`).
-/

set_option autoImplicit false

namespace DnsHive

open Intrusive

variable {α κ : Type} {n m : Nat}

/-! ## In two parts -/

namespace LRUHash

/-- The loop over `a + b` ticks is the loop over `a` ticks and, from there on, that over `b`. -/
theorem progFrom_add (fuel : Nat) (s : LRUHash α) (i a b : Nat) (h : Heap Ptr α) :
    progFrom fuel s i (a + b) h = (progFrom fuel s i a h).bind (progFrom fuel s (i + a) b) := by
  induction a generalizing i h with
  | zero => rw [Nat.zero_add, progFrom, Option.bind_some, Nat.add_zero]
  | succ a ih =>
    rw [Nat.succ_add, progFrom, progFrom]
    cases modSize (sizeT (s.currTick + i)) s.timeslotSize with
    | none => rfl
    | some tp =>
      simp only [Option.bind_eq_bind, Option.bind_some]
      cases drainSlot tp fuel h with
      | none => rfl
      | some h' =>
        have hi : i + 1 + a = i + (a + 1) := by omega
        rw [Option.bind_some, Option.bind_some, ih, hi]

/-- A clock that has advanced by `a` finds its slots where the loop was after `a` ticks. -/
theorem progFrom_shift (fuel : Nat) (s : LRUHash α) (h₀ : Heap Ptr α) (a i b : Nat)
    (h : Heap Ptr α) :
    progFrom fuel { s with currTick := sizeT (s.currTick + a), heap := h₀ } i b h =
      progFrom fuel s (a + i) b h := by
  induction b generalizing i h with
  | zero => rfl
  | succ b ih =>
    have htp : sizeT (sizeT (s.currTick + a) + i) = sizeT (s.currTick + (a + i)) := by
      rw [sizeT_add_sizeT, Nat.add_assoc]
    simp only [progFrom, htp, ih, Nat.add_assoc]

/-- **Advancing composes**, in every state and for every clock. -/
theorem prog_add (fuel : Nat) (s : LRUHash α) (a b : Nat) :
    s.prog fuel (a + b) = (s.prog fuel a).bind fun s ↦ s.prog fuel b := by
  rw [prog, prog, progFrom_add, Nat.zero_add]
  cases progFrom fuel s 0 a s.heap with
  | none => rfl
  | some h =>
    simp only [Option.bind_eq_bind, Option.bind_some, Option.pure_def, prog, progFrom_shift,
      Nat.add_zero, sizeT_add_sizeT, Nat.add_assoc]

end LRUHash

/-! ## A whole turn -/

namespace LRUHash

/-- Nothing is held: all buckets and all slots are empty. -/
def Vacant (s : LRUHash α) : Prop :=
  (∀ i < s.bucketSize, s.heap.next (.bucket i) = none) ∧
    ∀ j < s.timeslotSize, s.heap.link (.slot j) = none

/-- The slots are visited in vain if they are empty. -/
theorem progFrom_vacant {fuel : Nat} {s : LRUHash α} {h : Heap Ptr α} (hn : 0 < s.timeslotSize)
    (hfuel : 0 < fuel) (hlive : ∀ j < s.timeslotSize, Ptr.slot j ∈ h.live)
    (hslots : ∀ j < s.timeslotSize, h.link (.slot j) = none) (i k : Nat) :
    progFrom fuel s i k h = some h := by
  induction k generalizing i with
  | zero => rfl
  | succ k ih =>
    have htp : sizeT (s.currTick + i) % s.timeslotSize < s.timeslotSize := Nat.mod_lt _ hn
    have hdrain : drainSlot (sizeT (s.currTick + i) % s.timeslotSize) fuel h = some h := by
      obtain ⟨fuel, rfl⟩ := Nat.exists_eq_add_of_le' hfuel
      simp [drainSlot, Heap.popLink_none (hlive _ htp) (hslots _ htp)]
    rw [progFrom, modSize_of_pos hn]
    simp only [Option.bind_eq_bind, Option.bind_some, hdrain]
    exact ih (i + 1)

end LRUHash

namespace Refines

variable [NodeClass α κ] {s : LRUHash α} {T : Table α}

theorem vacant (r : Refines n m s T) (hheld : T.held = []) : s.Vacant := by
  have hnodes : T.nodes = [] := by rw [Table.nodes, hheld, List.map_nil]
  refine ⟨fun i hi ↦ ?_, fun j hj ↦ ?_⟩
  · have hchain : T.chain m i = [] := by rw [Table.chain, hnodes, List.filter_nil]
    have hbucket := (r.rep.bucket i (r.bucketSize ▸ hi)).singly.head
    rwa [hchain] at hbucket
  · have hslot := (r.rep.slot j (r.timeslotSize ▸ hj)).head
    have hnone : T.slotNodes n j = [] := by
      rw [Table.slotNodes, hheld, List.filter_nil, List.map_nil]
    rwa [hnone] at hslot

/-- After a whole turn the table is vacant, and further ticks do not touch it. -/
theorem prog_turn (r : Refines n m s T) (hn : 0 < n) (hw : T.Window n) {fuel : Nat}
    (hf : T.held.length < fuel) :
    ∃ s', s.flush fuel = some s' ∧ s'.Vacant ∧
      ∀ k, n ≤ k → s.prog fuel k = some { s' with currTick := sizeT (s.currTick + k) } := by
  obtain ⟨s', hprog, r'⟩ := r.prog hn hf n
  have hvacant := r'.vacant hw.advance_turn
  have hflush : s.flush fuel = some s' := by rw [LRUHash.flush, r.timeslotSize, hprog]
  refine ⟨s', hflush, hvacant, fun k hk ↦ ?_⟩
  obtain ⟨d, rfl⟩ := Nat.exists_eq_add_of_le hk
  have hlive : ∀ j < s'.timeslotSize, Ptr.slot j ∈ s'.heap.live := fun j hj ↦
    r'.rep.slot_live j (r'.timeslotSize ▸ hj)
  have htick : s'.currTick = sizeT (s.currTick + n) := by
    rw [r'.tick, advance_clock, r.tick, sizeT_add_sizeT]
  rw [LRUHash.prog_add, hprog, Option.bind_some, LRUHash.prog,
    LRUHash.progFrom_vacant (r'.timeslotSize.symm ▸ hn) (Nat.zero_lt_of_lt hf) hlive hvacant.2]
  simp only [Option.bind_eq_bind, Option.bind_some, Option.pure_def, htick, sizeT_add_sizeT,
    Nat.add_assoc]

end Refines

/-- **Advancing time composes and saturates.**  In every reachable state, advancing by `a` and then
by `b` gives the very state that advancing by `a + b` gives.  Advancing by a turn or more gives the
memory that `flush` gives, with the expired queue as it is there, and with all buckets and slots
empty.  Nothing here bounds the clock. -/
theorem prog_composes [NodeClass α κ] (n b fuel : Nat) (ops : List (LRUHash.Op α κ)) (hn : 1 ≤ n)
    (hok : Machine.Guarded (LRUHash.trackedStep fuel) LRUHash.Contract (LRUHash.init n b, []) ops)
    (hfuel : ops.length < fuel) :
    ∃ s l outs, Machine.run (LRUHash.trackedStep fuel) (LRUHash.init n b, []) ops =
        some ((s, l), outs) ∧
      (∀ a b, ∃ s₁ s₂, s.prog fuel a = some s₁ ∧ s₁.prog fuel b = some s₂ ∧
        s.prog fuel (a + b) = some s₂) ∧
      ∃ s', s.flush fuel = some s' ∧ s'.Vacant ∧ ∀ k, n ≤ k →
        ∃ s₁, s.prog fuel k = some s₁ ∧ s₁.heap = s'.heap ∧ s₁.Vacant := by
  obtain ⟨⟨s, l⟩, outs, hrun, T, r, hw, -, hheld⟩ :=
    LRUHash.run_tracked n b fuel ops hn hok hfuel.le
  have hf : T.held.length < fuel := hheld.trans_lt hfuel
  refine ⟨s, l, outs, hrun, fun a b ↦ ?_, ?_⟩
  · obtain ⟨s₁, hs₁, r₁⟩ := r.prog hn hf a
    obtain ⟨s₂, hs₂, -⟩ := r₁.prog hn ((Table.advance_held_length a).trans_lt hf) b
    exact ⟨s₁, s₂, hs₁, hs₂, by rw [LRUHash.prog_add, hs₁, Option.bind_some, hs₂]⟩
  · obtain ⟨s', hflush, hvacant, hturn⟩ := r.prog_turn hn hw hf
    exact ⟨s', hflush, hvacant, fun k hk ↦ ⟨_, hturn k hk, rfl, hvacant⟩⟩

/-- Two nodes in the wheel and one that has expired. -/
theorem prog_composes_sample :
    ∃ s l outs, Machine.run (LRUHash.trackedStep 20) (LRUHash.init 3 2, [])
        [.new 0 (⟨7, 1⟩ : Sample), .new 1 ⟨4, 2⟩, .new 2 ⟨7, 3⟩, .put 0 0, .prog 1, .put 2 1,
          .put 1 2] = some ((s, l), outs) ∧
      (∀ a b, ∃ s₁ s₂, s.prog 20 a = some s₁ ∧ s₁.prog 20 b = some s₂ ∧
        s.prog 20 (a + b) = some s₂) ∧
      ∃ s', s.flush 20 = some s' ∧ s'.Vacant ∧ ∀ k, 3 ≤ k →
        ∃ s₁, s.prog 20 k = some s₁ ∧ s₁.heap = s'.heap ∧ s₁.Vacant :=
  prog_composes 3 2 20 _ (by decide) (by decide) (by decide)

end DnsHive
