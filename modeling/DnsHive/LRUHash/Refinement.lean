import Mathlib.Algebra.GroupWithZero.Nat
import DnsHive.LRUHash.Simulation

/-!
# `LRUHash` refines the timed table

The wheel decides by slots what the timed table decides by deadlines.  The two agree because the
deadlines of the held nodes lie in a window of `n` consecutive ticks, from the clock on (`Window`),
in which no two of them share a slot unless they are equal.  That needs the clock to stay `n` below
`2^64`: past the wrap, two ticks of one window can fall into one slot, as `n` need not divide
`2^64`.

With this, the simulation of the wheel by the pointers becomes a refinement of the timed table:
`lruHash_refines_table`.
-/

set_option autoImplicit false

namespace DnsHive

variable {α κ : Type} {n m : Nat}

namespace Table

variable {T : Table α}

/-! ## The window of the deadlines -/

/-- The held deadlines lie in the `n` ticks from the clock on. -/
def Window (n : Nat) (T : Table α) : Prop :=
  ∀ e ∈ T.held, T.clock ≤ e.deadline ∧ e.deadline < T.clock + n

theorem window_empty : Window n (empty : Table α) := by simp [Window, empty]

theorem Window.put (hw : Window n T) (tick : Nat) (x : Addr) : Window n (T.put n tick x).1 := by
  by_cases ht : n ≤ tick
  · simpa [Table.put, ht] using hw
  · intro e he
    simp only [Table.put, ht, if_false, List.mem_cons] at he ⊢
    rcases he with rfl | he
    · simp only; omega
    · exact hw e he

theorem Window.prog (hw : Window n T) (k : Nat) : Window n (T.prog k) := by
  intro e he
  obtain ⟨he, hk⟩ := List.mem_filter.mp he
  have := hw e he
  simp only [decide_eq_true_eq, Table.prog] at hk ⊢
  omega

theorem Window.step [NodeClass α κ] (hw : Window n T) (op : LRUHash.Op α κ) :
    Window n (T.step n op).1 := by
  cases op with
  | put tick x => exact hw.put tick x
  | prog k => exact hw.prog k
  | flush => exact hw.prog n
  | _ => exact hw

/-- The wheel keeps the window too, whether or not the clock has wrapped: a tick takes out at least
the nodes whose deadline it is. -/
theorem Window.tick (hw : Window n T) : Window n (T.tick n) := by
  intro e he
  obtain ⟨he, hne⟩ := List.mem_filter.mp he
  have hwe := hw e he
  have hclock : e.deadline ≠ T.clock := fun h ↦ by simp [h] at hne
  simp only [Table.tick]
  omega

theorem Window.advance (hw : Window n T) (k : Nat) : Window n (T.advance n k) := by
  induction k generalizing T with
  | zero => exact hw
  | succ k ih => exact ih hw.tick

theorem advance_held_subset (k : Nat) : (T.advance n k).held ⊆ T.held := by
  induction k generalizing T with
  | zero => exact fun _ he ↦ he
  | succ k ih => exact fun e he ↦ (List.mem_filter.mp (ih he)).1

theorem Window.wheelStep [NodeClass α κ] (hw : Window n T) (op : LRUHash.Op α κ) :
    Window n (T.wheelStep n op).1 := by
  cases op with
  | put tick x => exact hw.put tick x
  | prog k => exact hw.advance k
  | flush => exact hw.advance n
  | _ => exact hw

/-- A full turn of the wheel takes out every node. -/
theorem Window.advance_turn (hw : Window n T) : (T.advance n n).held = [] := by
  refine List.eq_nil_iff_forall_not_mem.mpr fun e he ↦ ?_
  have hlow := (hw.advance n e he).1
  have hhigh := (hw e (advance_held_subset n he)).2
  rw [Refines.advance_clock] at hlow
  omega

/-! ## Slots against deadlines -/

/-- **Inside the window a slot is a deadline.** -/
theorem slotOf_eq_iff {c d : Nat} (hcd : c ≤ d) (hd : d < c + n) (hc : c + n ≤ 2 ^ 64) :
    slotOf n d = slotOf n c ↔ d = c := by
  have hsd : sizeT d = d := Nat.mod_eq_of_lt (by omega)
  have hsc : sizeT c = c := Nat.mod_eq_of_lt (by omega)
  rw [slotOf, slotOf, hsd, hsc]
  refine ⟨fun h ↦ ?_, fun h ↦ by rw [h]⟩
  have hmod : (d - c) % n = 0 := Nat.sub_mod_eq_zero_of_mod_eq h
  rw [Nat.mod_eq_of_lt (by omega)] at hmod
  omega

theorem tick_held (hw : Window n T) (hc : T.clock + n ≤ 2 ^ 64) :
    (T.tick n).held = T.held.filter fun e ↦ T.clock + 1 ≤ e.deadline := by
  refine List.filter_congr fun e he ↦ decide_eq_decide.mpr ?_
  have hwe := hw e he
  rw [Ne, slotOf_eq_iff hwe.1 hwe.2 hc]
  omega

theorem tick_expired (hw : Window n T) (hc : T.clock + n ≤ 2 ^ 64) :
    (T.tick n).expired =
      ((T.held.filter fun e ↦ e.deadline = T.clock).reverse.map Entry.node) ++ T.expired := by
  have hslot : (T.held.filter fun e ↦ slotOf n e.deadline = slotOf n T.clock) =
      T.held.filter fun e ↦ e.deadline = T.clock :=
    List.filter_congr fun e he ↦ decide_eq_decide.mpr
      (slotOf_eq_iff (hw e he).1 (hw e he).2 hc)
  show (T.slotNodes n (slotOf n T.clock)).reverse ++ T.expired = _
  rw [slotNodes, hslot, List.map_reverse]

/-- The batch of `k + 1` ticks is that of the `k` later ones, with the nodes of the first tick
behind it. -/
theorem batch_succ (hw : Window n T) (hc : T.clock + n ≤ 2 ^ 64) (k : Nat) :
    T.batch (k + 1) =
      (T.tick n).batch k ++ (T.held.filter fun e ↦ e.deadline = T.clock).reverse := by
  have hmin : ∀ e ∈ (T.held.filter fun e ↦ e.deadline < T.clock + (k + 1)).reverse,
      T.clock ≤ e.deadline := fun e he ↦
    (hw e (List.mem_filter.mp (List.mem_reverse.mp he)).1).1
  rw [batch, StableSort.descending_peel hmin, batch, tick_held hw hc, List.filter_reverse,
    List.filter_reverse, List.filter_filter, List.filter_filter, List.filter_filter]
  refine congrArg₂ (· ++ ·)
    (congrArg (fun l : List Entry ↦ StableSort.descending Entry.deadline l.reverse) ?_)
    (congrArg List.reverse ?_)
  · refine List.filter_congr fun e _ ↦ ?_
    rw [← Bool.decide_and, ← Bool.decide_and]
    exact decide_eq_decide.mpr (by simp only [Table.tick]; omega)
  · refine List.filter_congr fun e _ ↦ ?_
    rw [← Bool.decide_and]
    exact decide_eq_decide.mpr (by omega)

/-- **The wheel advances as the timed table does**, below the wrap of the clock. -/
theorem advance_eq_prog (hw : Window n T) (k : Nat) (hc : T.clock + k + n ≤ 2 ^ 64) :
    T.advance n k = T.prog k := by
  induction k generalizing T with
  | zero =>
    have hheld : (T.held.filter fun e ↦ T.clock + 0 ≤ e.deadline) = T.held :=
      List.filter_eq_self.mpr fun e he ↦ by simpa using (hw e he).1
    have hbatch : (T.held.filter fun e ↦ e.deadline < T.clock + 0) = [] :=
      List.filter_eq_nil_iff.mpr fun e he ↦ by simpa using (hw e he).1
    rw [advance, prog, batch, hheld, hbatch]
    rfl
  | succ k ih =>
    have hc' : T.clock + n ≤ 2 ^ 64 := by omega
    rw [advance, ih hw.tick (by simp only [Table.tick]; omega), prog, prog, batch_succ hw hc' k,
      tick_held hw hc', tick_expired hw hc']
    have hheld : ((T.held.filter fun e ↦ T.clock + 1 ≤ e.deadline).filter
        fun e ↦ (T.tick n).clock + k ≤ e.deadline) =
        T.held.filter fun e ↦ T.clock + (k + 1) ≤ e.deadline := by
      rw [List.filter_filter]
      refine List.filter_congr fun e _ ↦ ?_
      rw [← Bool.decide_and]
      exact decide_eq_decide.mpr (by simp only [Table.tick]; omega)
    have hclock : (T.tick n).clock + k = T.clock + (k + 1) := by simp only [Table.tick]; omega
    rw [hheld, hclock, List.map_append, List.append_assoc]
    rfl

theorem wheelStep_eq_step [NodeClass α κ] (hw : Window n T) (op : LRUHash.Op α κ)
    (hc : T.clock + ticks n op + n ≤ 2 ^ 64) : T.wheelStep n op = T.step n op := by
  cases op with
  | prog k => rw [wheelStep, advance_eq_prog hw k hc]; rfl
  | flush => rw [wheelStep, advance_eq_prog hw n hc]; rfl
  | _ => rfl

end Table

/-! ## The refinement -/

/-- The state stands for a table whose deadlines lie in the window. -/
def TimedRefines [NodeClass α κ] (n m : Nat) (s : LRUHash α) (T : Table α) : Prop :=
  Refines n m s T ∧ T.Window n

/-- What one step of the simulation asks of the table: a client that respects its contract, a clock
below the wrap, and fuel for a walk over the held nodes. -/
def StepOk [NodeClass α κ] (n fuel : Nat) (T : Table α) (op : LRUHash.Op α κ) : Prop :=
  T.Admissible op ∧ T.clock + Table.ticks n op + n ≤ 2 ^ 64 ∧ T.held.length < fuel

theorem TimedRefines.step [NodeClass α κ] {s : LRUHash α} {T : Table α}
    (r : TimedRefines n m s T) (hn : 0 < n) {fuel : Nat} {op : LRUHash.Op α κ}
    (hok : StepOk n fuel T op) :
    ∃ s', s.step fuel op = some (s', (T.step n op).2) ∧ TimedRefines n m s' (T.step n op).1 := by
  obtain ⟨s', hs, r'⟩ := r.1.step hn hok.2.2 hok.1
  rw [Table.wheelStep_eq_step r.2 op hok.2.1] at hs r'
  exact ⟨s', hs, r', r.2.step op⟩

/-- How far a sequence of operations advances the clock. -/
def totalTicks (n : Nat) (ops : List (LRUHash.Op α κ)) : Nat := (ops.map (Table.ticks n)).sum

namespace Table

variable [NodeClass α κ] {T : Table α}

theorem step_clock (op : LRUHash.Op α κ) : (T.step n op).1.clock = T.clock + ticks n op := by
  cases op with
  | put tick x => simp only [step, put, ticks]; split <;> rfl
  | _ => rfl

theorem step_held_length (op : LRUHash.Op α κ) :
    (T.step n op).1.held.length ≤ T.held.length + 1 := by
  cases op with
  | put tick x => simp only [step, put]; split <;> simp
  | prog k => exact (List.length_filter_le _ _).trans (Nat.le_succ _)
  | flush => exact (List.length_filter_le _ _).trans (Nat.le_succ _)
  | _ => exact Nat.le_succ _

/-- Bounds on the whole sequence are bounds at each of its steps. -/
theorem allowed_stepOk {fuel : Nat} {ops : List (LRUHash.Op α κ)}
    (hadm : Machine.Allowed (step n) Admissible T ops)
    (hticks : T.clock + totalTicks n ops + n ≤ 2 ^ 64)
    (hfuel : T.held.length + ops.length ≤ fuel) :
    Machine.Allowed (step n) (StepOk n fuel) T ops := by
  induction ops generalizing T with
  | nil => trivial
  | cons op ops ih =>
    have hlen := step_held_length (n := n) (T := T) op
    simp only [totalTicks, List.map_cons, List.sum_cons, List.length_cons] at hticks hfuel
    refine ⟨⟨hadm.1, by omega, by omega⟩, ih hadm.2 ?_ (by omega)⟩
    rw [step_clock, totalTicks]
    omega

end Table

/-- **`LRUHash` refines the timed table.**  For every number of slots, every bucket size and every
client that respects its contract, the pointers never fault, every loop ends, and each call returns
what the table returns. -/
theorem lruHash_refines_table [NodeClass α κ] (n b fuel : Nat) (ops : List (LRUHash.Op α κ))
    (hn : 1 ≤ n) (hadm : Machine.Allowed (Table.step n) Table.Admissible Table.empty ops)
    (hticks : totalTicks n ops + n < 2 ^ 64) (hfuel : ops.length ≤ fuel) :
    ∃ s, Machine.run (LRUHash.step fuel) (LRUHash.init n b) ops =
        some (s, (Machine.exec (Table.step n) Table.empty ops).2) ∧
      TimedRefines n (LRUHash.init n b : LRUHash α).bucketSize s
        (Machine.exec (Table.step n) Table.empty ops).1 := by
  have hok : Machine.Allowed (Table.step n) (StepOk n fuel) Table.empty ops :=
    Table.allowed_stepOk hadm (by simp only [Table.empty]; omega)
      (by simpa [Table.empty] using hfuel)
  exact Machine.run_simulation (fun _ _ _ r hok ↦ r.step hn hok) ops _ _
    ⟨Refines.init n b, Table.window_empty⟩ hok

/-- Two nodes with one hash, a slot used twice, a rejected `put` and a node put again. -/
theorem lruHash_refines_table_sample :
    ∃ s, Machine.run (LRUHash.step 20) (LRUHash.init 3 2)
        [.new 0 (⟨7, 1⟩ : Sample), .new 1 ⟨7, 2⟩, .put 2 0, .put 3 1, .put 1 1, .get 7 1, .prog 2,
          .get 7 2, .pop, .put 2 1, .flush, .pop, .pop, .pop, .delete 0] =
        some (s, [.unit, .unit, .bool true, .bool false, .bool true, .node (some (.node 0)), .unit,
          .node none, .node (some (.node 1)), .bool true, .unit, .node (some (.node 1)),
          .node (some (.node 0)), .node none, .unit]) ∧
      s.currTick = 5 := by
  obtain ⟨s, hrun, hs⟩ := lruHash_refines_table 3 2 20
    [.new 0 (⟨7, 1⟩ : Sample), .new 1 ⟨7, 2⟩, .put 2 0, .put 3 1, .put 1 1, .get 7 1, .prog 2,
      .get 7 2, .pop, .put 2 1, .flush, .pop, .pop, .pop, .delete 0]
    (by decide) (by decide) (by decide) (by decide)
  exact ⟨s, hrun, hs.1.tick⟩

end DnsHive
