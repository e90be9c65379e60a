import DnsHive.LRUHash.HeapRep

/-!
# The pointers simulate the wheel

`Refines n m s T` says that the state `s` of a table with `n` slots and `m` buckets stands for the
abstract table `T`: the sizes are these, the tick is the clock of `T` modulo `2^64`, and the heap
spells out `T` (`HeapRep`).  Every step of an admissible client keeps it, does not fault, and
returns what the wheel returns: `Refines.step`.

## Why the wheel

There are two abstract models.  The timed table (`Table.step`) is what the class is for: when the
clock goes on, everything that is due expires, by deadline.  The wheel (`Table.wheelStep`) is the
same table advanced tick by tick, and a tick expires what falls into the slot of the clock.  The
pointers are compared with the wheel.  Both count slots modulo `n` from a `size_t`, so that they
agree at every tick, also where the sum wraps and `2^64` is no multiple of `n`.  Nothing here bounds
the clock; the bound is needed only between the wheel and the timed table, in
`DnsHive.LRUHash.Refinement`, where no pointer occurs any more.

## What a step needs

Each operation has one lemma, which gives the resulting state together with the relation.

* `put` and `prog` rewrite chains, and rest on `HeapRep.put` and `HeapRep.drainSlot`.  What is left
  for `prog` is that the loop meets the slots in the order in which the wheel does (`progFrom`): in
  the turn `i` the clock of the wheel is that of `T` plus `i`, and the program reads `curr_tick_`
  plus `i`, which is the same modulo `2^64`.  The relation holds between two turns only if the clock
  of `T` is moved along with them, and the heap does not know the clock (`HeapRep.setClock`).
* `get` searches one bucket, and the abstract `get` all held nodes.  The first match is the same
  one, since a node whose hash is `hv` is in the bucket of `hv` and the nodes of a bucket are in the
  order of the table.
* `pop` takes the first node of the queue (`HeapRep.popExp`).
* The other steps are those of the client: it makes an object, writes to one, or deletes one.  They
  touch no chain.  An object may come or go, or change, as long as what the table owns stays and
  what it holds keeps its hash (`HeapRep.setObj`), which is what `Table.Admissible` asks for; and a
  node the table does not own may have anything in its fields (`HeapRep.scratch`), so that the
  constructor of a new one does no harm.

The fuel of a step bounds its walks through the chains.  No chain is longer than the number of the
nodes that are held, so that fuel for one more than these is enough, and the step is `some`: it
follows no null pointer and touches no node that has been deleted.
-/

set_option autoImplicit false

namespace DnsHive

open Intrusive

variable {α κ : Type} [NodeClass α κ] {n m : Nat}

/-! ## The operations that leave the chains alone -/

namespace HeapRep

variable {h : Heap Ptr α} {T : Table α}

theorem setClock (r : HeapRep n m h T) (c : Nat) : HeapRep n m h { T with clock := c } :=
  ⟨r.obj, r.node_live, r.bucket_live, r.slot_live, r.exp_live, r.nodup, r.owned, r.bucket, r.slot,
    r.exp, r.clear, r.bucket_root, r.slot_root, r.exp_root⟩

omit [NodeClass α κ] in
theorem node_ne {x : Addr} {l : List Addr} (hx : x ∉ l) {p : Ptr} (hp : p ∈ l.map Ptr.node) :
    p ≠ .node x := by
  obtain ⟨y, hy, rfl⟩ := List.mem_map.mp hp
  exact fun e ↦ hx (Ptr.node.inj e ▸ hy)

/-- The fields of a node the table does not own may hold anything. -/
theorem scratch (r : HeapRep n m h T) {x : Addr} (hx : x ∉ T.nodes ++ T.expired)
    (a b c : Option Ptr) :
    HeapRep n m
      { h with
        next := Function.update h.next (.node x) a
        prev := Function.update h.prev (.node x) b
        link := Function.update h.link (.node x) c } T := by
  rw [List.mem_append, not_or] at hx
  have hupd : ∀ (f : Ptr → Option Ptr) (v : Option Ptr) (p : Ptr), p ≠ .node x →
      Function.update f (.node x) v p = f p := fun f v p hp ↦ Function.update_of_ne hp v f
  refine ⟨r.obj, r.node_live, r.bucket_live, r.slot_live, r.exp_live, r.nodup, r.owned, ?_, ?_, ?_,
    ?_, ?_, ?_, ?_⟩
  case refine_1 =>
    intro i hi
    have hxi : x ∉ T.chain m i := fun hmem ↦ hx.1 (Table.mem_chain.mp hmem).1
    refine (r.bucket i hi).congr (fun p hp ↦ ?_) fun p hp ↦ hupd _ _ p (node_ne hxi hp)
    rcases List.mem_cons.mp hp with rfl | hp
    · exact hupd h.next a (.bucket i) (by simp)
    · exact hupd _ _ p (node_ne hxi hp)
  case refine_2 =>
    intro j hj
    have hxj : x ∉ T.slotNodes n j := fun hmem ↦ hx.1 (Table.slotNodes_subset hmem)
    refine (r.slot j hj).congr fun p hp ↦ ?_
    rcases List.mem_cons.mp hp with rfl | hp
    · exact hupd h.link c (.slot j) (by simp)
    · exact hupd _ _ p (node_ne hxj hp)
  case refine_3 =>
    refine r.exp.congr fun p hp ↦ ?_
    rcases List.mem_cons.mp hp with rfl | hp
    · exact hupd h.link c .exp (by simp)
    · exact hupd _ _ p (node_ne hx.2 hp)
  case refine_4 =>
    intro y hy
    have hyx : Ptr.node y ≠ .node x := fun e ↦ hx.2 (Ptr.node.inj e ▸ hy)
    simpa [Function.update_of_ne hyx] using r.clear y hy
  case refine_5 => simpa using r.bucket_root
  case refine_6 => simpa using r.slot_root
  case refine_7 => simpa using r.exp_root

/-- Objects may come and go, as long as those at owned nodes stay and those at held nodes keep
their hash. -/
theorem setObj (r : HeapRep n m h T) {x : Addr} {o : Option α} {live : Finset Ptr}
    (hlive : ∀ p, p ≠ .node x → (p ∈ live ↔ p ∈ h.live)) (hx : .node x ∈ live ↔ o.isSome)
    (howned : x ∈ T.nodes ++ T.expired → o.isSome)
    (hhash : x ∈ T.nodes → o.elim 0 NodeClass.hash = T.hashOf x) :
    HeapRep n m { h with live := live, obj := Function.update h.obj (.node x) o }
      { T with obj := Function.update T.obj x o } := by
  have hchain : ∀ i, Table.chain m { T with obj := Function.update T.obj x o } i = T.chain m i := by
    intro i
    have hsame : ∀ y ∈ T.nodes,
        Table.hashOf { T with obj := Function.update T.obj x o } y = T.hashOf y := fun y hy ↦ by
      by_cases hyx : y = x
      · subst hyx
        simpa [Table.hashOf] using hhash hy
      · simp [Table.hashOf, hyx]
    exact List.filter_congr fun y hy ↦ decide_eq_decide.mpr (by rw [hsame y hy])
  have hsome : ∀ y, (T.obj y).isSome → (y = x → o.isSome) →
      (Function.update T.obj x o y).isSome := by
    intro y hy hox
    by_cases hyx : y = x
    · subst hyx; simpa using hox rfl
    · simpa [hyx] using hy
  refine ⟨fun y ↦ ?_, fun y ↦ ?_, fun i hi ↦ ?_, fun j hj ↦ ?_, ?_, r.nodup, fun y hy ↦ ?_,
    fun i hi ↦ ?_, r.slot, r.exp, r.clear, r.bucket_root, r.slot_root, r.exp_root⟩
  · by_cases hyx : y = x
    · subst hyx; simp
    · simp [hyx, r.obj y]
  · by_cases hyx : y = x
    · subst hyx; simpa using hx
    · simpa [hyx, hlive (.node y) (by simpa using hyx)] using r.node_live y
  · exact (hlive _ (by simp)).mpr (r.bucket_live i hi)
  · exact (hlive _ (by simp)).mpr (r.slot_live j hj)
  · exact (hlive _ (by simp)).mpr r.exp_live
  · exact hsome y (r.owned y hy) fun e ↦ howned (e ▸ hy)
  · rw [hchain]; exact r.bucket i hi

/-- Taking the first node out of the expired queue. -/
theorem popExp (r : HeapRep n m h T) {x : Addr} {xs : List Addr} (hx : T.expired = x :: xs) :
    HeapRep n m { h with link := pop h.link .exp (.node x) } { T with expired := xs } := by
  have hexp := r.exp
  rw [hx, List.map_cons] at hexp
  have hnd := r.nodup
  rw [hx] at hnd
  have hsub : ∀ {y}, y ∈ T.nodes ++ xs → y ∈ T.nodes ++ T.expired := fun hy ↦ by
    rw [hx]
    exact List.mem_append.mpr ((List.mem_append.mp hy).imp id (List.mem_cons_of_mem _))
  refine ⟨r.obj, r.node_live, r.bucket_live, r.slot_live, r.exp_live,
    (List.nodup_cons.mp (List.nodup_middle.mp hnd)).2, fun y hy ↦ r.owned y (hsub hy), r.bucket,
    fun j hj ↦ (r.slot j hj).pop_frame (by simp), hexp.pop,
    fun y hy ↦ r.clear y (by simp [hx, hy]), fun i hi ↦ ⟨(r.bucket_root i hi).1, ?_⟩, r.slot_root,
    r.exp_root⟩
  show pop h.link .exp (.node x) (.bucket i) = none
  rw [pop_of_ne (by simp)]
  exact (r.bucket_root i hi).2

end HeapRep

/-! ## The relation -/

/-- The state `s` stands for the table `T`, in `m` buckets and `n` slots. -/
structure Refines (n m : Nat) (s : LRUHash α) (T : Table α) : Prop where
  timeslotSize : s.timeslotSize = n
  bucketSize : s.bucketSize = m
  tick : s.currTick = sizeT T.clock
  rep : HeapRep n m s.heap T

theorem sizeT_add_sizeT (a b : Nat) : sizeT (sizeT a + b) = sizeT (a + b) := Nat.mod_add_mod _ _ _

theorem modSize_of_pos {a size : Nat} (h : 0 < size) : LRUHash.modSize a size = some (a % size) :=
  if_neg h.ne'

namespace Refines

variable {s : LRUHash α} {T : Table α}

theorem bucket_pos (r : Refines n m s T) : 0 < m := r.bucketSize ▸ s.bucketSize_pos

/-- A freshly constructed table stands for the empty one. -/
theorem init (n b : Nat) :
    Refines n (LRUHash.init n b : LRUHash α).bucketSize (LRUHash.init n b)
      (Table.empty : Table α) := by
  refine ⟨rfl, rfl, rfl, ?_⟩
  constructor
  case bucket_live => intro i hi; simpa [LRUHash.init, LRUHash.rootHeap] using hi
  case slot_live => intro j hj; simpa [LRUHash.init, LRUHash.rootHeap] using hj
  all_goals
    simp [LRUHash.init, LRUHash.rootHeap, Table.empty, Table.nodes, Table.chain, Table.slotNodes]

theorem put (r : Refines n m s T) (hn : 0 < n) (tick : Nat) {x : Addr} (hx : (T.obj x).isSome)
    (hfree : x ∉ T.nodes ++ T.expired) :
    ∃ s', s.put tick (.node x) = some (s', (T.put n tick x).2) ∧
      Refines n m s' (T.put n tick x).1 := by
  by_cases ht : n ≤ tick
  · refine ⟨s, ?_, ?_⟩
    · simp [LRUHash.put, Table.put, r.timeslotSize, ht]
    · simpa [Table.put, ht] using r
  · obtain ⟨h₁, h₂, hatt, hpush, r'⟩ := r.rep.put r.bucket_pos hn (T.clock + tick) hx hfree
    have hslot : sizeT (tick + s.currTick) % n = slotOf n (T.clock + tick) := by
      rw [r.tick, Nat.add_comm, sizeT_add_sizeT]; rfl
    have hhash : s.heap.hash (.node x) = some (T.hashOf x) := by
      rw [Heap.hash_live ((r.rep.node_live x).mpr hx), r.rep.obj x]; rfl
    refine ⟨{ s with heap := h₂ }, ?_, ?_⟩
    · simp [LRUHash.put, Table.put, r.timeslotSize, r.bucketSize, ht, hhash,
        modSize_of_pos r.bucket_pos, modSize_of_pos hn, hslot, hatt, hpush]
    · simpa [Table.put, ht] using ⟨r.timeslotSize, r.bucketSize, r.tick, r'⟩

theorem get (r : Refines n m s T) {fuel : Nat} (hf : T.held.length < fuel) (hv : Nat) (key : κ) :
    s.get fuel hv key = some ((T.get hv key).map .node) := by
  have hi : hv % m < m := Nat.mod_lt _ r.bucket_pos
  have hlive : ∀ p ∈ (T.chain m (hv % m)).map Ptr.node, p ∈ s.heap.live := by
    intro p hp
    obtain ⟨x, hx, rfl⟩ := List.mem_map.mp hp
    exact r.rep.live_of_mem (List.mem_append_left _ (Table.mem_chain.mp hx).1)
  have hlen : ((T.chain m (hv % m)).map Ptr.node).length < fuel := by
    rw [List.length_map]
    refine lt_of_le_of_lt (List.length_filter_le _ _) ?_
    simpa [Table.nodes] using hf
  have hhit : ∀ x, s.heap.hit hv key (.node x) = T.hits hv key x := fun x ↦ by
    rw [Heap.hit, Table.hits, Table.hashOf, r.rep.obj x]
  -- a node with this hash is chained into this bucket, so no other bucket need be searched
  have hfind : (T.chain m (hv % m)).find? (T.hits hv key) = T.nodes.find? (T.hits hv key) := by
    rw [Table.chain, List.find?_filter]
    congr 1
    funext x
    by_cases hx : T.hashOf x = hv
    · simp [Table.hits, hx]
    · simp [Table.hits, hx]
  simp only [LRUHash.get, r.bucketSize, modSize_of_pos r.bucket_pos, Option.bind_eq_bind,
    Option.bind_some]
  rw [Heap.search_eq (r.rep.bucket_live _ hi) (r.rep.bucket _ hi).singly hlive hlen,
    List.find?_map]
  simp only [Function.comp_def, hhit]
  rw [hfind]; rfl

theorem progFrom (r : Refines n m s T) (hn : 0 < n) {fuel : Nat} (left i : Nat) {h : Heap Ptr α}
    {T' : Table α} (hr : HeapRep n m h T') (hclock : T'.clock = T.clock + i)
    (hf : T'.held.length < fuel) :
    ∃ h', LRUHash.progFrom fuel s i left h = some h' ∧ HeapRep n m h' (T'.advance n left) := by
  induction left generalizing i h T' with
  | zero => exact ⟨h, rfl, hr⟩
  | succ left ih =>
    have htp : sizeT (s.currTick + i) % n = slotOf n T'.clock := by
      rw [r.tick, sizeT_add_sizeT, hclock]; rfl
    obtain ⟨h₁, hdrain, r₁⟩ := hr.drainSlot r.bucket_pos (Nat.mod_lt (sizeT T'.clock) hn)
      (lt_of_le_of_lt Table.slotNodes_length_le hf)
    obtain ⟨h', hloop, r'⟩ := ih (i + 1) (r₁.setClock (T'.clock + 1))
      (by simp only [hclock]; omega)
      (lt_of_le_of_lt (List.length_filter_le _ _) hf)
    refine ⟨h', ?_, r'⟩
    have hdrain' : LRUHash.drainSlot (sizeT (s.currTick + i) % n) fuel h = some h₁ := htp ▸ hdrain
    simp [LRUHash.progFrom, r.timeslotSize, modSize_of_pos hn, hdrain', hloop]

omit [NodeClass α κ] in
theorem advance_clock (k : Nat) (T : Table α) : (T.advance n k).clock = T.clock + k := by
  induction k generalizing T with
  | zero => rfl
  | succ k ih => rw [Table.advance, ih]; simp only [Table.tick]; omega

theorem prog (r : Refines n m s T) (hn : 0 < n) {fuel : Nat} (hf : T.held.length < fuel)
    (k : Nat) : ∃ s', s.prog fuel k = some s' ∧ Refines n m s' (T.advance n k) := by
  obtain ⟨h', hloop, r'⟩ := r.progFrom hn k 0 r.rep rfl hf
  refine ⟨{ s with currTick := sizeT (s.currTick + k), heap := h' }, ?_, ?_⟩
  · simp [LRUHash.prog, hloop]
  · refine ⟨r.timeslotSize, r.bucketSize, ?_, r'⟩
    simp only [r.tick, sizeT_add_sizeT, advance_clock]

theorem pop (r : Refines n m s T) :
    ∃ s', s.pop = some (T.pop.1.map .node, s') ∧ Refines n m s' T.pop.2 := by
  cases hx : T.expired with
  | nil =>
    have hexp := r.rep.exp
    rw [hx] at hexp
    refine ⟨s, by simp [LRUHash.pop, Table.pop, hx, Heap.popLink_none r.rep.exp_live hexp], ?_⟩
    have hsame : T.pop.2 = T := by rw [Table.pop, hx, List.tail_nil, ← hx]
    rw [hsame]
    exact r
  | cons x xs =>
    have hexp := r.rep.exp
    rw [hx, List.map_cons] at hexp
    have hlive := r.rep.live_of_mem (x := x) (by simp [hx])
    have hpop := Heap.popLink_some r.rep.exp_live hlive hexp.1
    refine ⟨{ s with heap := { s.heap with link := Intrusive.pop s.heap.link .exp (.node x) } },
      ?_, r.timeslotSize, r.bucketSize, r.tick, ?_⟩
    · simp [LRUHash.pop, hpop, Table.pop, hx]
    · simpa [Table.pop, hx] using r.rep.popExp hx

theorem new (r : Refines n m s T) {x : Addr} (v : α) (hx : T.obj x = none) :
    ∃ h', s.heap.new (.node x) v = some h' ∧ Refines n m { s with heap := h' } (T.new x v) := by
  have hlive : Ptr.node x ∉ s.heap.live := fun hmem ↦ by
    have := (r.rep.node_live x).mp hmem
    simp [hx] at this
  have hfree : x ∉ T.nodes ++ T.expired := fun hmem ↦ by
    have := r.rep.owned x hmem
    simp [hx] at this
  refine ⟨_, if_neg hlive, r.timeslotSize, r.bucketSize, r.tick, ?_⟩
  refine (r.rep.scratch hfree none none none).setObj (o := some v) (fun p hp ↦ ?_) (by simp)
    (fun _ ↦ rfl) fun hmem ↦ absurd (List.mem_append_left _ hmem) hfree
  simp [hp]

theorem write (r : Refines n m s T) {x : Addr} (v : α) (hx : (T.obj x).isSome)
    (hhash : x ∈ T.nodes → NodeClass.hash v = T.hashOf x) :
    ∃ h', s.heap.write (.node x) v = some h' ∧ Refines n m { s with heap := h' } (T.new x v) := by
  have hlive : Ptr.node x ∈ s.heap.live := (r.rep.node_live x).mpr hx
  exact ⟨_, if_pos hlive, r.timeslotSize, r.bucketSize, r.tick,
    r.rep.setObj (o := some v) (fun _ _ ↦ Iff.rfl) (by simp [hlive]) (fun _ ↦ rfl) hhash⟩

theorem delete (r : Refines n m s T) {x : Addr} (hx : (T.obj x).isSome)
    (hfree : x ∉ T.nodes ++ T.expired) :
    ∃ h', s.heap.delete (.node x) = some h' ∧ Refines n m { s with heap := h' } (T.delete x) := by
  have hlive : Ptr.node x ∈ s.heap.live := (r.rep.node_live x).mpr hx
  refine ⟨_, if_pos hlive, r.timeslotSize, r.bucketSize, r.tick,
    r.rep.setObj (o := none) (fun p hp ↦ ?_) (by simp) (fun hmem ↦ absurd hmem hfree) fun hmem ↦
      absurd (List.mem_append_left _ hmem) hfree⟩
  simp [hp]

/-- **One step of the client**: the pointers do what the wheel does. -/
theorem step (r : Refines n m s T) (hn : 0 < n) {fuel : Nat} (hf : T.held.length < fuel)
    {op : LRUHash.Op α κ} (hadm : T.Admissible op) :
    ∃ s', s.step fuel op = some (s', (T.wheelStep n op).2) ∧
      Refines n m s' (T.wheelStep n op).1 := by
  cases op with
  | put tick x =>
    obtain ⟨s', hs, r'⟩ := r.put hn tick hadm.1 hadm.2
    exact ⟨s', by simp [LRUHash.step, hs, Table.wheelStep, Table.step], r'⟩
  | get hv key =>
    exact ⟨s, by simp [LRUHash.step, r.get hf, Table.wheelStep, Table.step], r⟩
  | prog k =>
    obtain ⟨s', hs, r'⟩ := r.prog hn hf k
    exact ⟨s', by simp [LRUHash.step, hs, Table.wheelStep], r'⟩
  | pop =>
    obtain ⟨s', hs, r'⟩ := r.pop
    exact ⟨s', by simp [LRUHash.step, hs, Table.wheelStep, Table.step], r'⟩
  | flush =>
    obtain ⟨s', hs, r'⟩ := r.prog hn hf n
    exact ⟨s', by simp [LRUHash.step, LRUHash.flush, r.timeslotSize, hs, Table.wheelStep], r'⟩
  | new x v =>
    obtain ⟨h', hs, r'⟩ := r.new v hadm
    exact ⟨_, by simp [LRUHash.step, hs, Table.wheelStep, Table.step], r'⟩
  | write x v =>
    obtain ⟨h', hs, r'⟩ := r.write v hadm.1 hadm.2
    exact ⟨_, by simp [LRUHash.step, hs, Table.wheelStep, Table.step], r'⟩
  | delete x =>
    obtain ⟨h', hs, r'⟩ := r.delete hadm.1 hadm.2
    exact ⟨_, by simp [LRUHash.step, hs, Table.wheelStep, Table.step], r'⟩

end Refines

end DnsHive
