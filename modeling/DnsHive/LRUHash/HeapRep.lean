import DnsHive.LRUHash.Wheel

/-!
# How the pointers spell out a table

An `LRUHash` is a heap of nodes with three pointer fields: `next_` and `prev_` link the bucket a
node is in, `link_` the slot or the queue.  The class never looks at a chain as a whole.  It writes
a few fields near one node, and whatever is true of the chains afterwards has to be read off from
these writes.  This file says what the fields mean, and shows it for the two operations that rewrite
more than one chain: putting a node (`HeapRep.put`) and emptying a slot (`HeapRep.drainSlot`).

## The invariant

`HeapRep n m h T` relates the heap `h` to an abstract table `T`, in `m` buckets and `n` slots.

* *Chains.*  The bucket `i` is the doubly linked list of the held nodes whose hash falls into it
  (`bucket`), and the slot `j` the singly linked list of those whose deadline falls into it
  (`slot`); both are in the order of `T`, put last first.  The queue is the stack of the expired
  nodes (`exp`).
* *Ownership.*  A node is on at most one list of `T` and there only once (`nodup`), and it has not
  been deleted (`owned`, `node_live`).  Hence a node that is held has one deadline and is in one
  slot, and a node in the queue is in no bucket and in no slot.
* *What is blank.*  A queued node is in no bucket and its fields say so (`clear`), and each kind of
  root uses only its own fields (`bucket_root`, `slot_root`, `exp_root`).  No function of the class
  relies on these; they are what turns the lists into statements about all pointers, such as that a
  pointer to a node is in the chain of exactly one root.

The chains share their nodes, and this is where the work is.  A write that is right for one chain
has to leave all the others as they are, and the neighbours of a node are known only through its own
fields.

## The proofs

`Intrusive` in `DnsHive.Lib.Chain` has the fields as functions: `push`, `pop`, `insertPrev` and
`unlink` are what the writes make of them, each with one lemma for the chain that is meant and one
for a chain that is not (`push_frame`, `insert_frame`, `unlink_frame`).  Here the side conditions of
these lemmas are met.

* That another bucket is left alone needs to be known of the neighbours, too: the node after the
  root of a bucket (`bucket_head`), and those before and after a held node (`prev_of_held`,
  `next_of_held`), are in the same bucket or are its root, and so they are in no other.
* That another slot is left alone follows from the new node being in none, or from the slots having
  no node in common (`Table.slotNodes_disjoint`).
* That the rest is blank follows since no write goes to a `prev` other than that of a held node
  (`insertPrev_frame`, `unlink_prev_frame`), and likewise for `next` (`unlink_next_frame`).

What `put` does to the buckets and to the slots is `bucket_put` and `slot_put`; what one turn of the
loop in `prog` does is `bucket_expire` and `slot_expire`.  A turn takes the node put last out of the
slot, out of its bucket, and puts it on the queue, so that the table it leaves is `T.expire x`
(`drain_step`).  `drainSlot` is the induction over the nodes of the slot, which says that the turns
add up to `T.drain n j` and that there is fuel for all of them.
-/

set_option autoImplicit false

namespace DnsHive

open Intrusive

variable {α κ : Type}

/-- The pointers of `h` spell out the table `T`, in `m` buckets and `n` slots. -/
structure HeapRep [NodeClass α κ] (n m : Nat) (h : Heap Ptr α) (T : Table α) : Prop where
  obj : ∀ x, h.obj (.node x) = T.obj x
  node_live : ∀ x, .node x ∈ h.live ↔ (T.obj x).isSome
  bucket_live : ∀ i < m, .bucket i ∈ h.live
  slot_live : ∀ j < n, .slot j ∈ h.live
  exp_live : .exp ∈ h.live
  /-- A node is owned at most once. -/
  nodup : (T.nodes ++ T.expired).Nodup
  /-- What the table owns has not been deleted. -/
  owned : ∀ x ∈ T.nodes ++ T.expired, (T.obj x).isSome
  bucket : ∀ i < m, Doubly h.next h.prev (.bucket i) ((T.chain m i).map .node)
  slot : ∀ j < n, Singly h.link (.slot j) ((T.slotNodes n j).map .node)
  exp : Singly h.link .exp (T.expired.map .node)
  /-- A queued node is on no bucket chain, and its fields say so. -/
  clear : ∀ x ∈ T.expired, h.next (.node x) = none ∧ h.prev (.node x) = none
  bucket_root : ∀ i < m, h.prev (.bucket i) = none ∧ h.link (.bucket i) = none
  slot_root : ∀ j < n, h.next (.slot j) = none ∧ h.prev (.slot j) = none
  exp_root : h.next .exp = none ∧ h.prev .exp = none

namespace HeapRep

variable [NodeClass α κ] {n m : Nat} {h : Heap Ptr α} {T : Table α}

theorem live_of_mem (r : HeapRep n m h T) {x : Addr} (hx : x ∈ T.nodes ++ T.expired) :
    Ptr.node x ∈ h.live :=
  (r.node_live x).mpr (r.owned x hx)

theorem disjoint (r : HeapRep n m h T) {x y : Addr} (hx : x ∈ T.nodes) (hy : y ∈ T.expired) :
    x ≠ y :=
  (List.nodup_append.mp r.nodup).2.2 x hx y hy

theorem nodes_nodup (r : HeapRep n m h T) : T.nodes.Nodup := (List.nodup_append.mp r.nodup).1

/-- The first pointer of a bucket chain leads to a held node of that bucket. -/
theorem bucket_head (r : HeapRep n m h T) {i : Nat} (hi : i < m) {q : Ptr}
    (hq : h.next (.bucket i) = some q) : ∃ y ∈ T.chain m i, q = .node y := by
  have hmem := (r.bucket i hi).singly.link_mem (List.mem_cons_self ..) hq
  obtain ⟨y, hy, rfl⟩ := List.mem_map.mp hmem
  exact ⟨y, hy, rfl⟩

/-- A held node points forward into its own bucket. -/
theorem next_of_held (r : HeapRep n m h T) (hm : 0 < m) {x : Addr} (hx : x ∈ T.nodes) {q : Ptr}
    (hq : h.next (.node x) = some q) : ∃ y ∈ T.chain m (T.hashOf x % m), q = .node y := by
  have hmem : Ptr.node x ∈ (T.chain m (T.hashOf x % m)).map Ptr.node :=
    List.mem_map_of_mem (Table.mem_chain.mpr ⟨hx, rfl⟩)
  have := (r.bucket _ (Nat.mod_lt _ hm)).singly.link_mem (List.mem_cons_of_mem _ hmem) hq
  obtain ⟨y, hy, rfl⟩ := List.mem_map.mp this
  exact ⟨y, hy, rfl⟩

/-- A held node points back into its own bucket, or at its root. -/
theorem prev_of_held (r : HeapRep n m h T) (hm : 0 < m) {x : Addr} (hx : x ∈ T.nodes) {q : Ptr}
    (hq : h.prev (.node x) = some q) :
    q = .bucket (T.hashOf x % m) ∨ ∃ y ∈ T.chain m (T.hashOf x % m), q = .node y := by
  have hmem : Ptr.node x ∈ (T.chain m (T.hashOf x % m)).map Ptr.node :=
    List.mem_map_of_mem (Table.mem_chain.mpr ⟨hx, rfl⟩)
  obtain ⟨p, hp, hpq⟩ := (r.bucket _ (Nat.mod_lt _ hm)).prev_mem hmem
  obtain rfl : p = q := Option.some.inj (hpq.symm.trans hq)
  rcases List.mem_cons.mp hp with rfl | hp
  · exact .inl rfl
  · obtain ⟨y, hy, rfl⟩ := List.mem_map.mp hp
    exact .inr ⟨y, hy, rfl⟩

theorem chain_live (r : HeapRep n m h T) {i : Nat} {y : Addr} (hy : y ∈ T.chain m i) :
    Ptr.node y ∈ h.live :=
  r.live_of_mem (List.mem_append_left _ (Table.mem_chain.mp hy).1)

/-- What is not a held node is on no chain. -/
theorem not_mem_chain {i : Nat} {p : Ptr} (hp : ∀ y ∈ T.nodes, p ≠ .node y) :
    p ∉ (T.chain m i).map .node := by
  intro hmem
  obtain ⟨y, hy, rfl⟩ := List.mem_map.mp hmem
  exact hp y (Table.mem_chain.mp hy).1 rfl

/-! ## Putting a node -/

/-- `attach` writes no `prev` but those of the new node and of a held one. -/
theorem insertPrev_frame (r : HeapRep n m h T) {i : Nat} (hi : i < m) {x : Addr} {p : Ptr}
    (hpx : p ≠ .node x) (hp : ∀ y ∈ T.nodes, p ≠ .node y) :
    insertPrev h.next h.prev (.bucket i) (.node x) p = h.prev p :=
  (r.bucket i hi).insertPrev_of_notMem hpx (not_mem_chain hp)

/-- The buckets after the new node `x` has been attached to its own. -/
theorem bucket_put (r : HeapRep n m h T) (hm : 0 < m) {x : Addr} (d : Nat) (hx : x ∉ T.nodes)
    {i : Nat} (hi : i < m) :
    Doubly (push h.next (.bucket (T.hashOf x % m)) (.node x))
      (insertPrev h.next h.prev (.bucket (T.hashOf x % m)) (.node x)) (.bucket i)
      ((Table.chain m { T with held := ⟨x, d⟩ :: T.held } i).map .node) := by
  have hxi : Ptr.node x ∉ Ptr.bucket i :: (T.chain m i).map Ptr.node := by
    simp [Table.mem_chain, hx]
  rw [Table.chain_put]
  split
  · rename_i heq
    subst heq
    exact (r.bucket _ hi).insert hxi
  · rename_i hne
    refine (r.bucket i hi).insert_frame (by simpa using hne) hxi fun p hp hnext ↦ ?_
    -- the first node of the bucket of `x` has another hash than the nodes of this one
    obtain ⟨y, hy, rfl⟩ := r.bucket_head (Nat.mod_lt _ hm) hnext
    obtain ⟨z, hz, hzy⟩ := List.mem_map.mp hp
    obtain rfl := Ptr.node.inj hzy
    exact hne ((Table.mem_chain.mp hy).2.symm.trans (Table.mem_chain.mp hz).2)

/-- The slots after the new node `x` has been pushed on that of its deadline. -/
theorem slot_put (r : HeapRep n m h T) {x : Addr} (d : Nat) (hx : x ∉ T.nodes) {j : Nat}
    (hj : j < n) :
    Singly (push h.link (.slot (slotOf n d)) (.node x)) (.slot j)
      ((Table.slotNodes n { T with held := ⟨x, d⟩ :: T.held } j).map .node) := by
  have hxj : Ptr.node x ∉ Ptr.slot j :: (T.slotNodes n j).map Ptr.node := by
    simpa using fun hmem ↦ hx (Table.slotNodes_subset hmem)
  rw [Table.slotNodes_put]
  split
  · rename_i heq
    subst heq
    exact (r.slot _ hj).push hxj
  · rename_i hne
    exact (r.slot j hj).push_frame (by simpa using hne) hxj

theorem put (r : HeapRep n m h T) (hm : 0 < m) (hn : 0 < n) {x : Addr} (d : Nat)
    (hx : (T.obj x).isSome) (hfree : x ∉ T.nodes ++ T.expired) :
    ∃ h₁ h₂, h.attach (.bucket (T.hashOf x % m)) (.node x) = some h₁ ∧
      h₁.pushLink (.slot (slotOf n d)) (.node x) = some h₂ ∧
      HeapRep n m h₂ { T with held := ⟨x, d⟩ :: T.held } := by
  have hptr : T.hashOf x % m < m := Nat.mod_lt _ hm
  have htp : slotOf n d < n := Nat.mod_lt _ hn
  have hlive : Ptr.node x ∈ h.live := (r.node_live x).mpr hx
  rw [List.mem_append, not_or] at hfree
  have hhead : ∀ q, h.next (.bucket (T.hashOf x % m)) = some q → q ∈ h.live := by
    intro q hq
    obtain ⟨y, hy, rfl⟩ := r.bucket_head hptr hq
    exact r.chain_live hy
  -- what the writes leave alone
  have hnext : ∀ p, p ≠ .bucket (T.hashOf x % m) → p ≠ .node x →
      push h.next (.bucket (T.hashOf x % m)) (.node x) p = h.next p := fun p ↦ push_of_ne
  have hlink : ∀ p, p ≠ .slot (slotOf n d) → p ≠ .node x →
      push h.link (.slot (slotOf n d)) (.node x) p = h.link p := fun p ↦ push_of_ne
  refine ⟨_, _, Heap.attach_eq (r.bucket_live _ hptr) hlive hhead,
    Heap.pushLink_eq (r.slot_live _ htp) hlive, ?_⟩
  constructor
  case obj => exact r.obj
  case node_live => exact r.node_live
  case bucket_live => exact r.bucket_live
  case slot_live => exact r.slot_live
  case exp_live => exact r.exp_live
  case nodup =>
    rw [Table.nodes, List.map_cons, List.cons_append, List.nodup_cons, List.mem_append]
    exact ⟨by tauto, r.nodup⟩
  case owned =>
    intro y hy
    rw [Table.nodes, List.map_cons, List.cons_append, List.mem_cons] at hy
    rcases hy with rfl | hy
    · exact hx
    · exact r.owned y hy
  case bucket => exact fun i hi ↦ r.bucket_put hm d hfree.1 hi
  case slot => exact fun j hj ↦ r.slot_put d hfree.1 hj
  case exp => exact r.exp.push_frame (by simp) (by simpa using hfree.2)
  case clear =>
    intro y hy
    have hxy : Ptr.node y ≠ Ptr.node x := fun e ↦ hfree.2 (Ptr.node.inj e ▸ hy)
    have hyn : ∀ z ∈ T.nodes, Ptr.node y ≠ Ptr.node z := fun z hz e ↦
      r.disjoint hz hy (Ptr.node.inj e).symm
    exact ⟨(hnext (.node y) (by simp) hxy).trans (r.clear y hy).1,
      (r.insertPrev_frame hptr hxy hyn).trans (r.clear y hy).2⟩
  case bucket_root =>
    exact fun i hi ↦ ⟨(r.insertPrev_frame hptr (by simp) (by simp)).trans (r.bucket_root i hi).1,
      (hlink (.bucket i) (by simp) (by simp)).trans (r.bucket_root i hi).2⟩
  case slot_root =>
    exact fun j hj ↦ ⟨(hnext (.slot j) (by simp) (by simp)).trans (r.slot_root j hj).1,
      (r.insertPrev_frame hptr (by simp) (by simp)).trans (r.slot_root j hj).2⟩
  case exp_root =>
    exact ⟨(hnext .exp (by simp) (by simp)).trans r.exp_root.1,
      (r.insertPrev_frame hptr (by simp) (by simp)).trans r.exp_root.2⟩

/-! ## Expiring nodes -/

/-- `detach` writes no `next` but those of buckets' roots and of held nodes. -/
theorem unlink_next_frame (r : HeapRep n m h T) (hm : 0 < m) {x : Addr} (hx : x ∈ T.nodes)
    {p : Ptr} (hb : ∀ i, p ≠ .bucket i) (hp : ∀ y ∈ T.nodes, p ≠ .node y) :
    unlink h.next h.prev (.node x) p = h.next p := by
  have hxb : x ∈ T.chain m (T.hashOf x % m) := Table.mem_chain.mpr ⟨hx, rfl⟩
  exact (r.bucket _ (Nat.mod_lt _ hm)).unlink_next_of_notMem (List.mem_map_of_mem hxb)
    (List.not_mem_cons_of_ne_of_not_mem (hb _) (not_mem_chain hp))

/-- `detach` writes no `prev` but those of held nodes. -/
theorem unlink_prev_frame (r : HeapRep n m h T) (hm : 0 < m) {x : Addr} (hx : x ∈ T.nodes)
    {p : Ptr} (hp : ∀ y ∈ T.nodes, p ≠ .node y) :
    unlink h.prev h.next (.node x) p = h.prev p := by
  have hxb : x ∈ T.chain m (T.hashOf x % m) := Table.mem_chain.mpr ⟨hx, rfl⟩
  exact (r.bucket _ (Nat.mod_lt _ hm)).unlink_prev_of_notMem (List.mem_map_of_mem hxb)
    (not_mem_chain hp)

/-- The buckets after a held node has been detached from its own. -/
theorem bucket_expire (r : HeapRep n m h T) (hm : 0 < m) {x : Addr} (hx : x ∈ T.nodes) {i : Nat}
    (hi : i < m) :
    Doubly (unlink h.next h.prev (.node x)) (unlink h.prev h.next (.node x)) (.bucket i)
      (((T.expire x).chain m i).map .node) := by
  rw [Table.chain_expire]
  by_cases hxi : T.hashOf x % m = i
  · obtain ⟨ys, zs, hsplit⟩ := List.append_of_mem (Table.mem_chain.mpr ⟨hx, hxi⟩)
    have hnd : (T.chain m i).Nodup := r.nodes_nodup.filter _
    rw [hsplit] at hnd ⊢
    have hrest : (ys ++ x :: zs).filter (fun y ↦ y ≠ x) = ys ++ zs := by
      have hperm := List.nodup_cons.mp (List.nodup_middle.mp hnd)
      rw [List.filter_append, List.filter_cons_of_neg (by simp), ← List.filter_append,
        Table.filter_ne_self hperm.1]
    have hb := r.bucket i hi
    rw [hsplit, List.map_append, List.map_cons] at hb
    rw [hrest, List.map_append]
    exact hb.unlink
  · -- the neighbours of `x` are in the bucket of `x`, and so not in this one
    have hni : x ∉ T.chain m i := fun hmem ↦ hxi (Table.mem_chain.mp hmem).2
    have hother : ∀ y ∈ T.chain m (T.hashOf x % m), y ∉ T.chain m i := fun y hy hy' ↦
      hxi ((Table.mem_chain.mp hy).2.symm.trans (Table.mem_chain.mp hy').2)
    rw [Table.filter_ne_self hni]
    refine (r.bucket i hi).unlink_frame (by simpa using hni) (fun p hp hq ↦ ?_) fun p hp hq ↦ ?_
    · rcases r.prev_of_held hm hx hq with rfl | ⟨y, hy, rfl⟩
      · exact hxi (by simpa using hp)
      · exact hother y hy (by simpa using hp)
    · obtain ⟨y, hy, rfl⟩ := r.next_of_held hm hx hq
      exact hother y hy (by simpa using hp)

/-- The slots after the first node of the slot `j` has been moved to the expired queue. -/
theorem slot_expire (r : HeapRep n m h T) {j : Nat} (hj : j < n) {x : Addr} {rest : List Addr}
    (hs : T.slotNodes n j = x :: rest) {i : Nat} (hi : i < n) :
    Singly (push (pop h.link (.slot j) (.node x)) .exp (.node x)) (.slot i)
      (((T.expire x).slotNodes n i).map .node) := by
  have hxs : x ∈ T.slotNodes n j := by simp [hs]
  by_cases hij : i = j
  · subst hij
    have hslot := r.slot i hi
    have hnds := Table.slotNodes_nodup r.nodes_nodup (n := n) (j := i)
    rw [hs, List.map_cons] at hslot
    rw [hs, List.nodup_cons] at hnds
    rw [Table.slotNodes_expire_head r.nodes_nodup hs]
    exact hslot.pop.push_frame (by simp) (by simpa using hnds.1)
  · have hni : x ∉ T.slotNodes n i := fun hmem ↦
      hij (Table.slotNodes_disjoint r.nodes_nodup hmem hxs)
    rw [Table.slotNodes_expire, Table.filter_ne_self hni]
    exact ((r.slot i hi).pop_frame (by simpa using Ne.symm hij)).push_frame (by simp)
      (by simpa using hni)

theorem drain_step (r : HeapRep n m h T) (hm : 0 < m) {j : Nat} (hj : j < n) {x : Addr}
    {rest : List Addr} (hs : T.slotNodes n j = x :: rest) :
    ∃ h₁ h₂ h₃, h.popLink (.slot j) = some (some (.node x), h₁) ∧
      h₁.detach (.node x) = some h₂ ∧ h₂.pushLink .exp (.node x) = some h₃ ∧
      HeapRep n m h₃ (T.expire x) := by
  have hx : x ∈ T.nodes := Table.slotNodes_subset (n := n) (j := j) (by simp [hs])
  have hlive : Ptr.node x ∈ h.live := r.live_of_mem (List.mem_append_left _ hx)
  have hfirst : h.link (.slot j) = some (.node x) := by rw [(r.slot j hj).head, hs]; rfl
  have hxexp : x ∉ T.expired := fun hmem ↦ r.disjoint hx hmem rfl
  have hnext : ∀ q, h.next (.node x) = some q → q ∈ h.live := by
    intro q hq
    obtain ⟨y, hy, rfl⟩ := r.next_of_held hm hx hq
    exact r.chain_live hy
  have hprev : ∀ q, h.prev (.node x) = some q → q ∈ h.live := by
    intro q hq
    rcases r.prev_of_held hm hx hq with rfl | ⟨y, hy, rfl⟩
    · exact r.bucket_live _ (Nat.mod_lt _ hm)
    · exact r.chain_live hy
  refine ⟨_, _, _, Heap.popLink_some (r.slot_live j hj) hlive hfirst,
    Heap.detach_eq hlive hnext hprev, Heap.pushLink_eq r.exp_live hlive, ?_⟩
  constructor
  case obj => exact r.obj
  case node_live => exact r.node_live
  case bucket_live => exact r.bucket_live
  case slot_live => exact r.slot_live
  case exp_live => exact r.exp_live
  case nodup => exact Table.expire_nodup r.nodup hx
  case owned => exact fun y hy ↦ r.owned y (Table.expire_subset hx hy)
  case bucket => exact fun i hi ↦ r.bucket_expire hm hx hi
  case slot => exact fun i hi ↦ r.slot_expire hj hs hi
  case exp => exact (r.exp.pop_frame (by simp)).push (by simpa using hxexp)
  case clear =>
    intro y hy
    rcases List.mem_cons.mp hy with rfl | hy
    · exact ⟨unlink_self, unlink_self⟩
    · have hyn : ∀ z ∈ T.nodes, Ptr.node y ≠ Ptr.node z := fun z hz e ↦
        r.disjoint hz hy (Ptr.node.inj e).symm
      exact ⟨(r.unlink_next_frame hm hx (by simp) hyn).trans (r.clear y hy).1,
        (r.unlink_prev_frame hm hx hyn).trans (r.clear y hy).2⟩
  case bucket_root =>
    intro i hi
    refine ⟨(r.unlink_prev_frame hm hx (by simp)).trans (r.bucket_root i hi).1, ?_⟩
    show push (pop h.link (.slot j) (.node x)) .exp (.node x) (.bucket i) = none
    rw [push_of_ne (by simp) (by simp), pop_of_ne (by simp)]
    exact (r.bucket_root i hi).2
  case slot_root =>
    exact fun i hi ↦
      ⟨(r.unlink_next_frame hm hx (by simp) (by simp)).trans (r.slot_root i hi).1,
        (r.unlink_prev_frame hm hx (by simp)).trans (r.slot_root i hi).2⟩
  case exp_root =>
    exact ⟨(r.unlink_next_frame hm hx (by simp) (by simp)).trans r.exp_root.1,
      (r.unlink_prev_frame hm hx (by simp)).trans r.exp_root.2⟩

theorem drainSlot (r : HeapRep n m h T) (hm : 0 < m) {j : Nat} (hj : j < n) {fuel : Nat}
    (hf : (T.slotNodes n j).length < fuel) :
    ∃ h', LRUHash.drainSlot j fuel h = some h' ∧ HeapRep n m h' (T.drain n j) := by
  generalize hxs : T.slotNodes n j = xs at hf
  induction xs generalizing h T fuel with
  | nil =>
    obtain ⟨fuel, rfl⟩ : ∃ k, fuel = k + 1 := ⟨fuel - 1, by simp at hf; omega⟩
    have hnone : h.link (.slot j) = none := by
      have hslot := r.slot j hj
      rwa [hxs] at hslot
    refine ⟨h, by simp [LRUHash.drainSlot, Heap.popLink_none (r.slot_live j hj) hnone], ?_⟩
    have hsame : T.drain n j = T := by
      have hheld : (T.held.filter fun e ↦ slotOf n e.deadline ≠ j) = T.held := by
        rw [List.filter_eq_self]
        intro e he
        have hne : slotOf n e.deadline ≠ j := fun hej ↦ by
          have hmem : e.node ∈ T.slotNodes n j :=
            List.mem_map_of_mem (List.mem_filter.mpr ⟨he, by simpa using hej⟩)
          simp [hxs] at hmem
        simpa using hne
      rw [Table.drain, hheld, hxs]
      rfl
    rw [hsame]
    exact r
  | cons x xs ih =>
    obtain ⟨fuel, rfl⟩ : ∃ k, fuel = k + 1 := ⟨fuel - 1, by simp at hf; omega⟩
    obtain ⟨h₁, h₂, h₃, hpop, hdet, hpush, r₃⟩ := r.drain_step hm hj hxs
    have hrest := Table.slotNodes_expire_head r.nodes_nodup hxs
    obtain ⟨h', hloop, r'⟩ := ih r₃ hrest (by simpa using hf)
    refine ⟨h', by simp [LRUHash.drainSlot, hpop, hdet, hpush, hloop], ?_⟩
    rwa [← Table.drain_expire r.nodes_nodup hxs]

end HeapRep

end DnsHive
