import DnsHive.LRUHash.Refinement

/-!
# Who owns which node: the representation invariant

A node belongs to the table from the `put` that accepts it to the `pop` that hands it back.  This
is visible in the results of the calls alone, so it is tracked from them: `Tracked` is a table
together with the list of the nodes it owns.

`LRUHash.Inv` says what the pointers look like in terms of that list.  It holds after every
sequence of calls of a client that puts only nodes of its own, whatever the clock does
(`lruHash_inv`).  The client may delete a node it has got back, and assign or construct others; no
pointer the table follows ever leads to such a node, so no call can fault.
-/

set_option autoImplicit false

namespace DnsHive

open Intrusive

variable {α κ : Type}

namespace LRUHash

/-- The nodes the table owns after a call with this result. -/
def own (l : List Addr) : Op α κ → Out → List Addr
  | .put _ x, .bool true => x :: l
  | .pop, .node (some (.node x)) => l.erase x
  | _, _ => l

/-- A table and the nodes it owns. -/
abbrev Tracked (α : Type) := LRUHash α × List Addr

/-- One step of the client, keeping the books. -/
def trackedStep [NodeClass α κ] (fuel : Nat) (t : Tracked α) (op : Op α κ) :
    Option (Tracked α × Out) := do
  let (s, o) ← t.1.step fuel op
  return ((s, own t.2 op o), o)

/-- What the client has to respect: it puts and deletes only nodes the table does not own, and does
not change the hash of one that it does. -/
def Contract [NodeClass α κ] (t : Tracked α) : Op α κ → Prop
  | .put _ x => .node x ∈ t.1.heap.live ∧ x ∉ t.2
  | .new x _ => .node x ∉ t.1.heap.live
  | .write x v =>
    .node x ∈ t.1.heap.live ∧ (x ∈ t.2 → t.1.heap.hash (.node x) = some (NodeClass.hash v))
  | .delete x => .node x ∈ t.1.heap.live ∧ x ∉ t.2
  | _ => True

instance [NodeClass α κ] (t : Tracked α) (op : Op α κ) : Decidable (Contract t op) :=
  match op with
  | .put _ _ => inferInstanceAs (Decidable (_ ∧ _))
  | .new _ _ => inferInstanceAs (Decidable (_ ∉ _))
  | .write _ _ => inferInstanceAs (Decidable (_ ∧ (_ → _)))
  | .delete _ => inferInstanceAs (Decidable (_ ∧ _))
  | .get _ _ | .prog _ | .pop | .flush => .isTrue trivial

/-- The addresses of the table's own roots. -/
def Root (s : LRUHash α) : Ptr → Prop
  | .bucket i => i < s.bucketSize
  | .slot j => j < s.timeslotSize
  | .exp => True
  | .node _ => False

/-- **The representation invariant**, for a table that owns the nodes `l`. -/
structure Inv [NodeClass α κ] (s : LRUHash α) (l : List Addr) : Prop where
  /-- Every bucket chain is finite, acyclic and consistently doubly linked. -/
  bucket : ∀ i < s.bucketSize, ∃ xs, Doubly s.heap.next s.heap.prev (.bucket i) xs ∧
    (.bucket i :: xs).Nodup ∧
    ∀ p ∈ .bucket i :: xs, ∀ y ∈ xs, s.heap.next p = some y ↔ s.heap.prev y = some p
  /-- Every slot chain is finite and acyclic. -/
  slot : ∀ j < s.timeslotSize, ∃ xs, Singly s.heap.link (.slot j) xs ∧ (.slot j :: xs).Nodup
  /-- The queue is finite and acyclic, and what is on it is owned. -/
  queue : ∃ xs : List Addr, Singly s.heap.link .exp (xs.map .node) ∧ xs.Nodup ∧ ∀ x ∈ xs, x ∈ l
  /-- A held node is in the bucket of its hash and in no other. -/
  held_bucket : ∀ x ∈ l, ¬ s.InQueue (.node x) → ∀ i < s.bucketSize,
    (s.InBucket i (.node x) ↔ ∃ hv, s.heap.hash (.node x) = some hv ∧ i = hv % s.bucketSize)
  /-- A held node is in exactly one slot. -/
  held_slot : ∀ x ∈ l, ¬ s.InQueue (.node x) → ∃! j, j < s.timeslotSize ∧ s.InSlot j (.node x)
  /-- A queued node is in no bucket and no slot, and its fields are cleared. -/
  queued : ∀ x, s.InQueue (.node x) →
    (∀ i < s.bucketSize, ¬ s.InBucket i (.node x)) ∧
      (∀ j < s.timeslotSize, ¬ s.InSlot j (.node x)) ∧
    s.heap.next (.node x) = none ∧ s.heap.prev (.node x) = none
  /-- No pointer of a root or of an owned node leads anywhere else. -/
  closed : ∀ p, (s.Root p ∨ ∃ x ∈ l, p = .node x) → ∀ q,
    s.heap.next p = some q ∨ s.heap.prev p = some q ∨ s.heap.link p = some q →
    s.Root q ∨ ∃ y ∈ l, q = .node y
  /-- What the table owns exists. -/
  live : ∀ x ∈ l, Ptr.node x ∈ s.heap.live

end LRUHash

/-! ## The invariant follows from the representation of a table -/

namespace Refines

variable [NodeClass α κ] {n m : Nat} {s : LRUHash α} {T : Table α}

theorem inBucket_iff (r : Refines n m s T) {i : Nat} (hi : i < m) {x : Addr} :
    s.InBucket i (.node x) ↔ x ∈ T.chain m i := by
  rw [LRUHash.InBucket, (r.rep.bucket i hi).singly.transGen_iff]
  exact List.mem_map_of_injective Ptr.node_injective

theorem inSlot_iff (r : Refines n m s T) {j : Nat} (hj : j < n) {x : Addr} :
    s.InSlot j (.node x) ↔ x ∈ T.slotNodes n j := by
  rw [LRUHash.InSlot, (r.rep.slot j hj).transGen_iff]
  exact List.mem_map_of_injective Ptr.node_injective

theorem inQueue_iff (r : Refines n m s T) {x : Addr} : s.InQueue (.node x) ↔ x ∈ T.expired := by
  rw [LRUHash.InQueue, r.rep.exp.transGen_iff]
  exact List.mem_map_of_injective Ptr.node_injective

theorem hash_eq (r : Refines n m s T) {x : Addr} (hx : (T.obj x).isSome) :
    s.heap.hash (.node x) = some (T.hashOf x) := by
  rw [Heap.hash_live ((r.rep.node_live x).mpr hx), r.rep.obj x]
  rfl

omit [NodeClass α κ] in
/-- A held node is in the slot of its deadline and in no other. -/
theorem slot_unique (hn : 0 < n) (hnd : T.nodes.Nodup) {x : Addr} (hx : x ∈ T.nodes) :
    ∃! j, j < n ∧ x ∈ T.slotNodes n j := by
  obtain ⟨e, he, rfl⟩ := List.mem_map.mp hx
  refine ⟨slotOf n e.deadline, ⟨Nat.mod_lt _ hn, ?_⟩, fun j hj ↦ ?_⟩
  · exact List.mem_map_of_mem (List.mem_filter.mpr ⟨he, by simp⟩)
  · exact (Table.slot_of_mem hnd he hj.2).symm

/-- The pointers of a root lead to owned nodes. -/
theorem root_closed (r : Refines n m s T) {p q : Ptr} (hp : s.Root p)
    (hq : s.heap.next p = some q ∨ s.heap.prev p = some q ∨ s.heap.link p = some q) :
    ∃ y, (y ∈ T.nodes ∨ y ∈ T.expired) ∧ q = .node y := by
  cases p with
  | bucket i =>
    have hi : i < m := r.bucketSize ▸ hp
    obtain ⟨hprev, hlink⟩ := r.rep.bucket_root i hi
    simp only [hprev, hlink, reduceCtorEq, or_false] at hq
    obtain ⟨y, hy, rfl⟩ := r.rep.bucket_head hi hq
    exact ⟨y, .inl (Table.mem_chain.mp hy).1, rfl⟩
  | slot j =>
    have hj : j < n := r.timeslotSize ▸ hp
    obtain ⟨hnext, hprev⟩ := r.rep.slot_root j hj
    simp only [hnext, hprev, reduceCtorEq, false_or] at hq
    obtain ⟨y, hy, rfl⟩ := List.mem_map.mp ((r.rep.slot j hj).link_mem (List.mem_cons_self ..) hq)
    exact ⟨y, .inl (Table.slotNodes_subset hy), rfl⟩
  | exp =>
    obtain ⟨hnext, hprev⟩ := r.rep.exp_root
    simp only [hnext, hprev, reduceCtorEq, false_or] at hq
    obtain ⟨y, hy, rfl⟩ := List.mem_map.mp (r.rep.exp.link_mem (List.mem_cons_self ..) hq)
    exact ⟨y, .inr hy, rfl⟩
  | node x => exact hp.elim

/-- The pointers of an owned node lead to owned nodes or to the root of a bucket. -/
theorem node_closed (r : Refines n m s T) (hn : 0 < n) {x : Addr} {q : Ptr}
    (hx : x ∈ T.nodes ∨ x ∈ T.expired)
    (hq : s.heap.next (.node x) = some q ∨ s.heap.prev (.node x) = some q ∨
      s.heap.link (.node x) = some q) :
    (∃ i < m, q = .bucket i) ∨ ∃ y, (y ∈ T.nodes ∨ y ∈ T.expired) ∧ q = .node y := by
  rcases hx with hx | hx
  · rcases hq with hq | hq | hq
    · obtain ⟨y, hy, rfl⟩ := r.rep.next_of_held r.bucket_pos hx hq
      exact .inr ⟨y, .inl (Table.mem_chain.mp hy).1, rfl⟩
    · rcases r.rep.prev_of_held r.bucket_pos hx hq with rfl | ⟨y, hy, rfl⟩
      · exact .inl ⟨_, Nat.mod_lt _ r.bucket_pos, rfl⟩
      · exact .inr ⟨y, .inl (Table.mem_chain.mp hy).1, rfl⟩
    · obtain ⟨j, ⟨hj, hxj⟩, -⟩ := slot_unique hn r.rep.nodes_nodup hx
      have hmem := List.mem_cons_of_mem (Ptr.slot j) (List.mem_map_of_mem (f := Ptr.node) hxj)
      obtain ⟨y, hy, rfl⟩ := List.mem_map.mp ((r.rep.slot j hj).link_mem hmem hq)
      exact .inr ⟨y, .inl (Table.slotNodes_subset hy), rfl⟩
  · obtain ⟨hnext, hprev⟩ := r.rep.clear x hx
    simp only [hnext, hprev, reduceCtorEq, false_or] at hq
    have hmem := List.mem_cons_of_mem Ptr.exp (List.mem_map_of_mem (f := Ptr.node) hx)
    obtain ⟨y, hy, rfl⟩ := List.mem_map.mp (r.rep.exp.link_mem hmem hq)
    exact .inr ⟨y, .inr hy, rfl⟩

theorem inv (r : Refines n m s T) (hn : 0 < n) {l : List Addr}
    (hl : (T.nodes ++ T.expired).Perm l) : s.Inv l := by
  have hmem : ∀ {x}, x ∈ l ↔ x ∈ T.nodes ∨ x ∈ T.expired := fun {x} ↦ by
    rw [← hl.mem_iff, List.mem_append]
  have hheld : ∀ x ∈ l, ¬ s.InQueue (.node x) → x ∈ T.nodes := fun x hx hq ↦
    (hmem.mp hx).resolve_right fun h ↦ hq (r.inQueue_iff.mpr h)
  have hm := r.bucket_pos
  have hsn := r.timeslotSize
  have hsm := r.bucketSize
  constructor
  case bucket =>
    rw [hsm]
    intro i hi
    have hb := r.rep.bucket i hi
    exact ⟨_, hb, hb.singly.nodup, fun p hp y hy ↦ hb.next_iff_prev hp hy⟩
  case slot =>
    rw [hsn]
    exact fun j hj ↦ ⟨_, r.rep.slot j hj, (r.rep.slot j hj).nodup⟩
  case queue =>
    exact ⟨T.expired, r.rep.exp, (List.nodup_append.mp r.rep.nodup).2.1, fun x hx ↦
      hmem.mpr (.inr hx)⟩
  case held_bucket =>
    rw [hsm]
    intro x hx hq i hi
    have hxn := hheld x hx hq
    rw [r.inBucket_iff hi, Table.mem_chain,
      r.hash_eq (r.rep.owned x (List.mem_append_left _ hxn))]
    exact ⟨fun h ↦ ⟨_, rfl, h.2.symm⟩, fun ⟨hv, hhv, h⟩ ↦ ⟨hxn, by rw [h, Option.some.inj hhv]⟩⟩
  case held_slot =>
    rw [hsn]
    intro x hx hq
    obtain ⟨j, hj, huniq⟩ := slot_unique hn r.rep.nodes_nodup (hheld x hx hq)
    exact ⟨j, ⟨hj.1, (r.inSlot_iff hj.1).mpr hj.2⟩, fun k hk ↦
      huniq k ⟨hk.1, (r.inSlot_iff hk.1).mp hk.2⟩⟩
  case queued =>
    rw [hsn, hsm]
    intro x hq
    have hxe := r.inQueue_iff.mp hq
    have hxn : x ∉ T.nodes := fun h ↦ r.rep.disjoint h hxe rfl
    refine ⟨fun i hi h ↦ hxn ?_, fun j hj h ↦ hxn ?_, r.rep.clear x hxe⟩
    · exact (Table.mem_chain.mp ((r.inBucket_iff hi).mp h)).1
    · exact Table.slotNodes_subset ((r.inSlot_iff hj).mp h)
  case closed =>
    rintro p (hp | ⟨x, hx, rfl⟩) q hq
    · obtain ⟨y, hy, rfl⟩ := r.root_closed hp hq
      exact .inr ⟨y, hmem.mpr hy, rfl⟩
    · rcases r.node_closed hn (hmem.mp hx) hq with ⟨i, hi, rfl⟩ | ⟨y, hy, rfl⟩
      · exact .inl (show i < s.bucketSize by rwa [hsm])
      · exact .inr ⟨y, hmem.mpr hy, rfl⟩
  case live => exact fun x hx ↦ r.rep.live_of_mem (hl.mem_iff.mpr hx)

end Refines

/-! ## Ownership along a run -/

namespace Table

variable {n : Nat} {T : Table α}

/-- Expiring a slot moves its nodes and loses none. -/
theorem drain_perm (j : Nat) :
    ((T.drain n j).nodes ++ (T.drain n j).expired).Perm (T.nodes ++ T.expired) := by
  have hsplit := List.filter_append_perm (fun e ↦ decide (slotOf n e.deadline = j)) T.held
  have hheld : ((T.held.filter fun e ↦ slotOf n e.deadline ≠ j).map Entry.node ++
      (T.slotNodes n j)).Perm T.nodes := by
    refine List.perm_append_comm.trans ?_
    rw [slotNodes, ← List.map_append, nodes]
    refine List.Perm.map _ (List.Perm.trans ?_ hsplit)
    simp
  show ((T.held.filter fun e ↦ slotOf n e.deadline ≠ j).map Entry.node ++
    ((T.slotNodes n j).reverse ++ T.expired)).Perm _
  rw [← List.append_assoc]
  exact ((((List.reverse_perm _).append_left _).trans hheld).append_right _)

theorem advance_perm (k : Nat) :
    ((T.advance n k).nodes ++ (T.advance n k).expired).Perm (T.nodes ++ T.expired) := by
  induction k generalizing T with
  | zero => exact .refl _
  | succ k ih => exact ih.trans (drain_perm (slotOf n T.clock))

theorem advance_held_length (k : Nat) : (T.advance n k).held.length ≤ T.held.length := by
  induction k generalizing T with
  | zero => exact le_rfl
  | succ k ih => exact ih.trans (List.length_filter_le _ _)

theorem advance_obj (k : Nat) : (T.advance n k).obj = T.obj := by
  induction k generalizing T with
  | zero => rfl
  | succ k ih => exact ih

theorem wheelStep_held_length [NodeClass α κ] (op : LRUHash.Op α κ) :
    (T.wheelStep n op).1.held.length ≤ T.held.length + 1 := by
  cases op with
  | put tick x => simp only [wheelStep, step, put]; split <;> simp
  | prog k => exact (advance_held_length k).trans (Nat.le_succ _)
  | flush => exact (advance_held_length n).trans (Nat.le_succ _)
  | _ => exact Nat.le_succ _

/-- **The results of the calls say who owns what.** -/
theorem wheelStep_perm [NodeClass α κ] {l : List Addr} (hl : (T.nodes ++ T.expired).Perm l)
    (op : LRUHash.Op α κ) :
    ((T.wheelStep n op).1.nodes ++ (T.wheelStep n op).1.expired).Perm
      (LRUHash.own l op (T.wheelStep n op).2) := by
  cases op with
  | put tick x =>
    simp only [wheelStep, step, put]
    split
    · exact hl
    · exact hl.cons x
  | prog k => exact (advance_perm k).trans hl
  | flush => exact (advance_perm n).trans hl
  | pop =>
    simp only [wheelStep, step, pop]
    cases hx : T.expired with
    | nil => simpa [hx, LRUHash.own, nodes] using hl
    | cons x xs =>
      rw [hx] at hl
      have herase := hl.erase x
      have hmid : (T.nodes ++ x :: xs).Perm (x :: (T.nodes ++ xs)) := List.perm_middle
      have hfront := hmid.erase x
      rw [List.erase_cons_head] at hfront
      exact hfront.symm.trans herase
  | get hv key => exact hl
  | new x v => exact hl
  | write x v => exact hl
  | delete x => exact hl

end Table

namespace LRUHash

variable [NodeClass α κ] {n m : Nat}

/-- A tracked table stands for a table whose deadlines lie in the window, and the books are right.
The nodes that are held now or put by the calls `ops` to come are at most `most`. -/
def TrackedRefines (n m most : Nat) (ops : List (Op α κ)) (t : Tracked α) : Prop :=
  ∃ T, Refines n m t.1 T ∧ T.Window n ∧ (T.nodes ++ T.expired).Perm t.2 ∧
    T.held.length + ops.length ≤ most

/-- One step of the pointers and of the wheel, with the books. -/
theorem tracked_step {fuel : Nat} (hn : 0 < n) {t : Tracked α} {T : Table α}
    (r : Refines n m t.1 T) (hl : (T.nodes ++ T.expired).Perm t.2) (hf : T.held.length < fuel)
    {op : Op α κ} (hok : Contract t op) :
    ∃ t', trackedStep fuel t op = some (t', (T.wheelStep n op).2) ∧
      Refines n m t'.1 (T.wheelStep n op).1 ∧
      ((T.wheelStep n op).1.nodes ++ (T.wheelStep n op).1.expired).Perm t'.2 := by
  have hsome : ∀ {x}, Ptr.node x ∈ t.1.heap.live ↔ (T.obj x).isSome := fun {x} ↦ r.rep.node_live x
  have hadm : T.Admissible op := by
    cases op with
    | put tick x => exact ⟨hsome.mp hok.1, fun h ↦ hok.2 (hl.mem_iff.mp h)⟩
    | new x v => simpa [Contract, hsome, Table.Admissible] using hok
    | write x v =>
      refine ⟨hsome.mp hok.1, fun hx ↦ ?_⟩
      have hxl : x ∈ t.2 := hl.mem_iff.mp (List.mem_append_left _ hx)
      exact (Option.some.inj ((r.hash_eq (hsome.mp hok.1)).symm.trans (hok.2 hxl))).symm
    | delete x => exact ⟨hsome.mp hok.1, fun h ↦ hok.2 (hl.mem_iff.mp h)⟩
    | _ => trivial
  obtain ⟨s', hs, r'⟩ := r.step hn hf hadm
  exact ⟨(s', own t.2 op (T.wheelStep n op).2), by simp [trackedStep, hs], r',
    Table.wheelStep_perm hl op⟩

theorem TrackedRefines.step {most fuel : Nat} (hn : 0 < n) (hmost : most ≤ fuel) {t : Tracked α}
    {op : Op α κ} {ops : List (Op α κ)} (ht : TrackedRefines n m most (op :: ops) t)
    (hok : Contract t op) :
    ∃ t' o, trackedStep fuel t op = some (t', o) ∧ TrackedRefines n m most ops t' := by
  obtain ⟨T, r, hw, hl, hheld⟩ := ht
  rw [List.length_cons] at hheld
  obtain ⟨t', hs, r', hl'⟩ := tracked_step hn r hl (show T.held.length < fuel by omega) hok
  have hlen := T.wheelStep_held_length (n := n) op
  exact ⟨t', (T.wheelStep n op).2, hs, _, r', hw.wheelStep op, hl', by omega⟩

/-- A run from the construction of the table. -/
theorem run_tracked (n b fuel : Nat) (ops : List (Op α κ)) (hn : 1 ≤ n)
    (hok : Machine.Guarded (trackedStep fuel) Contract (init n b, []) ops)
    (hfuel : ops.length ≤ fuel) :
    ∃ t outs, Machine.run (trackedStep fuel) (init n b, []) ops = some (t, outs) ∧
      TrackedRefines n (if b = 0 then defaultBucketSize else b) ops.length [] t :=
  Machine.run_guarded (fun _ _ _ ht hok ↦ ht.step hn hfuel hok) ops (init n b, [])
    ⟨Table.empty, Refines.init n b, Table.window_empty, .refl _, by simp [Table.empty]⟩ hok

end LRUHash

/-- **The representation invariant holds in every reachable state**, and no call of a client that
respects its contract faults: deleting a node that has been popped is never noticed. -/
theorem lruHash_inv [NodeClass α κ] (n b fuel : Nat) (ops : List (LRUHash.Op α κ)) (hn : 1 ≤ n)
    (hok : Machine.Guarded (LRUHash.trackedStep fuel) LRUHash.Contract (LRUHash.init n b, []) ops)
    (hfuel : ops.length ≤ fuel) :
    ∃ s l outs, Machine.run (LRUHash.trackedStep fuel) (LRUHash.init n b, []) ops =
      some ((s, l), outs) ∧ s.Inv l := by
  obtain ⟨⟨s, l⟩, outs, hrun, T, r, -, hl, -⟩ := LRUHash.run_tracked n b fuel ops hn hok hfuel
  exact ⟨s, l, outs, hrun, r.inv hn hl⟩

/-- A node is put, expires, is popped and deleted while another one stays; then its address is used
for a new node. -/
theorem lruHash_inv_sample :
    ∃ s l outs, Machine.run (LRUHash.trackedStep 20) (LRUHash.init 2 3, [])
        [.new 0 (⟨7, 1⟩ : Sample), .new 1 ⟨4, 2⟩, .put 2 0, .put 0 0, .put 1 1, .prog 1, .pop,
          .delete 0, .get 4 2, .new 0 ⟨4, 3⟩, .put 1 0] = some ((s, l), outs) ∧
      s.Inv l :=
  lruHash_inv 2 3 20 _ (by decide) (by decide) (by decide)

end DnsHive
