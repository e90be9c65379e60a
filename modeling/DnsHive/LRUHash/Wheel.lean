import DnsHive.LRUHash.Table

/-!
# The timer wheel

Between the pointers and the timed table stands the wheel: the same table, advanced one tick at a
time, where a tick expires the nodes whose deadline falls into the slot of the current clock.  The
pointers follow the wheel exactly, for every number of ticks, also when `curr_tick_` wraps around;
only the step from the wheel to the timed table needs the clock to stay below `2^64`.

A tick takes the nodes of its slot out one by one (`expire`), so the lemmas here say what one of
these steps does to the buckets and slots and that they add up to `drain`.
-/

set_option autoImplicit false

namespace DnsHive

variable {α κ : Type}

/-- The slot of a deadline. -/
def slotOf (n d : Nat) : Nat := sizeT d % n

namespace Table

/-- The held nodes of the slot `j` of `n`, put last first. -/
def slotNodes (n : Nat) (T : Table α) (j : Nat) : List Addr :=
  (T.held.filter fun e ↦ slotOf n e.deadline = j).map Entry.node

/-- One held node expires. -/
def expire (T : Table α) (x : Addr) : Table α :=
  { T with held := T.held.filter fun e ↦ e.node ≠ x, expired := x :: T.expired }

/-- The held nodes of the slot `j` expire, put last first. -/
def drain (n : Nat) (T : Table α) (j : Nat) : Table α :=
  { T with
    held := T.held.filter fun e ↦ slotOf n e.deadline ≠ j
    expired := (T.slotNodes n j).reverse ++ T.expired }

/-- One tick of the wheel. -/
def tick (n : Nat) (T : Table α) : Table α :=
  { T.drain n (slotOf n T.clock) with clock := T.clock + 1 }

/-- `k` ticks of the wheel. -/
def advance (n : Nat) : Nat → Table α → Table α
  | 0, T => T
  | k + 1, T => advance n k (T.tick n)

/-- One step of the client against the wheel: as against the table, but `prog` and `flush` advance
slot by slot. -/
def wheelStep [NodeClass α κ] (n : Nat) (T : Table α) : LRUHash.Op α κ → Table α × LRUHash.Out
  | .prog k => (T.advance n k, .unit)
  | .flush => (T.advance n n, .unit)
  | op => T.step n op

/-- The held nodes of the bucket `i` of `m`, put last first. -/
def chain [NodeClass α κ] (m : Nat) (T : Table α) (i : Nat) : List Addr :=
  T.nodes.filter fun x ↦ T.hashOf x % m = i

end Table

namespace Table

variable [NodeClass α κ] {T : Table α} {m n : Nat}

theorem mem_chain {i : Nat} {x : Addr} : x ∈ T.chain m i ↔ x ∈ T.nodes ∧ T.hashOf x % m = i := by
  simp [chain]

theorem chain_put {x : Addr} {d i : Nat} :
    chain m { T with held := ⟨x, d⟩ :: T.held } i =
      if T.hashOf x % m = i then x :: T.chain m i else T.chain m i := by
  simp only [chain, nodes, List.map_cons, List.filter_cons, decide_eq_true_eq]
  rfl

omit [NodeClass α κ] in
theorem slotNodes_subset {j : Nat} {x : Addr} (hx : x ∈ T.slotNodes n j) : x ∈ T.nodes := by
  obtain ⟨e, he, rfl⟩ := List.mem_map.mp hx
  exact List.mem_map_of_mem (List.mem_filter.mp he).1

omit [NodeClass α κ] in
theorem slotNodes_length_le {j : Nat} : (T.slotNodes n j).length ≤ T.held.length := by
  simpa [slotNodes] using List.length_filter_le _ _

omit [NodeClass α κ] in
theorem slotNodes_put {x : Addr} {d j : Nat} :
    slotNodes n { T with held := ⟨x, d⟩ :: T.held } j =
      if slotOf n d = j then x :: T.slotNodes n j else T.slotNodes n j := by
  simp only [slotNodes, List.filter_cons, decide_eq_true_eq]
  split <;> rfl

/-! ### Expiring one node -/

theorem filter_ne_self {l : List Addr} {x : Addr} (hx : x ∉ l) : l.filter (fun y ↦ y ≠ x) = l := by
  rw [List.filter_eq_self]
  intro y hy
  have hyx : y ≠ x := fun e ↦ hx (e ▸ hy)
  simpa using hyx

omit [NodeClass α κ] in
theorem nodes_expire {x : Addr} : (T.expire x).nodes = T.nodes.filter fun y ↦ y ≠ x := by
  simp only [nodes, expire, List.filter_map]
  rfl

theorem chain_expire {x : Addr} {i : Nat} :
    (T.expire x).chain m i = (T.chain m i).filter fun y ↦ y ≠ x := by
  rw [chain, nodes_expire, List.filter_comm]
  rfl

omit [NodeClass α κ] in
theorem slotNodes_expire {x : Addr} {j : Nat} :
    (T.expire x).slotNodes n j = (T.slotNodes n j).filter fun y ↦ y ≠ x := by
  simp only [slotNodes, expire, List.filter_map]
  rw [List.filter_comm]
  rfl

omit [NodeClass α κ] in
/-- A node is held with one deadline, so the slots have no node in common. -/
theorem slot_of_mem (hnd : T.nodes.Nodup) {e : Entry} {j : Nat} (he : e ∈ T.held)
    (hj : e.node ∈ T.slotNodes n j) : slotOf n e.deadline = j := by
  obtain ⟨e', he', hee'⟩ := List.mem_map.mp hj
  rw [List.mem_filter, decide_eq_true_eq] at he'
  rw [List.inj_on_of_nodup_map hnd he he'.1 hee'.symm]
  exact he'.2

omit [NodeClass α κ] in
theorem slotNodes_disjoint (hnd : T.nodes.Nodup) {i j : Nat} {x : Addr}
    (hi : x ∈ T.slotNodes n i) (hj : x ∈ T.slotNodes n j) : i = j := by
  obtain ⟨e, he, rfl⟩ := List.mem_map.mp hi
  rw [List.mem_filter, decide_eq_true_eq] at he
  exact he.2.symm.trans (slot_of_mem hnd he.1 hj)

omit [NodeClass α κ] in
theorem slotNodes_nodup (hnd : T.nodes.Nodup) {j : Nat} : (T.slotNodes n j).Nodup :=
  hnd.sublist (List.filter_sublist.map _)

omit [NodeClass α κ] in
/-- Expiring the node put last leaves the rest of its slot. -/
theorem slotNodes_expire_head (hnd : T.nodes.Nodup) {j : Nat} {x : Addr} {rest : List Addr}
    (hs : T.slotNodes n j = x :: rest) : (T.expire x).slotNodes n j = rest := by
  have hnds := slotNodes_nodup hnd (n := n) (j := j)
  rw [hs, List.nodup_cons] at hnds
  rw [slotNodes_expire, hs, List.filter_cons_of_neg (by simp), filter_ne_self hnds.1]

omit [NodeClass α κ] in
/-- Expiring a held node neither doubles a node nor brings one in. -/
theorem expire_nodup {x : Addr} (hnd : (T.nodes ++ T.expired).Nodup) (hx : x ∈ T.nodes) :
    ((T.expire x).nodes ++ (T.expire x).expired).Nodup := by
  obtain ⟨hnodes, hexp, hdis⟩ := List.nodup_append.mp hnd
  rw [nodes_expire]
  refine List.nodup_append.mpr
    ⟨hnodes.filter _, List.nodup_cons.mpr ⟨fun hmem ↦ hdis x hx x hmem rfl, hexp⟩, ?_⟩
  intro y hy z hz
  obtain ⟨hy, hyx⟩ := List.mem_filter.mp hy
  rcases List.mem_cons.mp hz with rfl | hz
  · simpa using hyx
  · exact hdis y hy z hz

omit [NodeClass α κ] in
theorem expire_subset {x : Addr} (hx : x ∈ T.nodes) :
    (T.expire x).nodes ++ (T.expire x).expired ⊆ T.nodes ++ T.expired := by
  intro y hy
  rw [nodes_expire, List.mem_append, List.mem_filter] at hy
  rw [List.mem_append]
  rcases hy with hy | hy
  · exact .inl hy.1
  · rcases List.mem_cons.mp hy with rfl | hy
    · exact .inl hx
    · exact .inr hy

omit [NodeClass α κ] in
/-- Expiring a slot begins with the node put last. -/
theorem drain_expire (hnd : T.nodes.Nodup) {j : Nat} {x : Addr} {rest : List Addr}
    (hs : T.slotNodes n j = x :: rest) : (T.expire x).drain n j = T.drain n j := by
  have hx : ∀ e ∈ T.held, slotOf n e.deadline ≠ j → e.node ≠ x := fun e he hne hex ↦
    hne (slot_of_mem hnd he (by simp [hs, hex]))
  have hheld : ((T.expire x).held.filter fun e ↦ slotOf n e.deadline ≠ j) =
      T.held.filter fun e ↦ slotOf n e.deadline ≠ j := by
    rw [expire, List.filter_filter]
    refine List.filter_congr fun e he ↦ ?_
    by_cases hj : slotOf n e.deadline = j
    · simp [hj]
    · simp [hj, hx e he hj]
  have hexp : (((T.expire x).slotNodes n j).reverse ++ (T.expire x).expired) =
      (T.slotNodes n j).reverse ++ T.expired := by
    rw [slotNodes_expire_head hnd hs, hs, List.reverse_cons, List.append_assoc]
    rfl
  rw [drain, drain, hheld, hexp]
  rfl

end Table

end DnsHive
