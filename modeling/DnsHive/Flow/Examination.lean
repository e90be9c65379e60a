import DnsHive.Flow.Closing

/-!
# Examining the flows that are due

Before a packet is counted, the flows that have come due are examined: `prog` moves them to the
expired queue, and a loop takes them from there one by one and puts the active ones back, into the
structure it is emptying.  The loop ends all the same, in exactly as many turns as flows have come
due, since a flow that is put back goes to a slot; `Examined` says where each flow is then.

That a flow that is put back can be found under its label needs no assumption about the hashes: the
handler never opens a flow with the hash and the label of one it has (`Distinct`).
-/

set_option autoImplicit false

namespace DnsHive

open Intrusive Swarm FlowHandler

variable {output : Bool} {m fuel : Nat} {s : FlowHandler} {T : Table Flow} {keep : Flow → Bool}

/-! ## No two flows with one hash and one label -/

/-- No two flows of the table have the same hash and the same label. -/
def Distinct (T : Table Flow) : Prop :=
  ∀ x ∈ T.nodes, ∀ y ∈ T.nodes, ∀ f g, T.obj x = some f → T.obj y = some g →
    f.hash = g.hash → f.key = g.key → x = y

namespace Distinct

theorem empty : Distinct (Table.empty : Table Flow) := by
  intro x hx
  simp [Table.empty, Table.nodes] at hx

/-- A flow of the table is found under its label. -/
theorem get_eq (h : Distinct T) {x : Addr} {f : Flow} (hx : x ∈ T.nodes) (hobj : T.obj x = some f) :
    T.get f.hash f.key = some x := by
  have hhit : T.hits f.hash f.key x := by
    simp [Table.hits, Table.hashOf, hobj, NodeClass.hash, NodeClass.isMatch]
  have hsome : (T.get f.hash f.key).isSome := List.find?_isSome.mpr ⟨x, hx, hhit⟩
  obtain ⟨y, hy⟩ := Option.isSome_iff_exists.mp hsome
  obtain ⟨hyn, g, hg, hhash, hkey⟩ := Table.obj_of_get hy
  rw [hy, h x hx y hyn f g hobj hg hhash.symm hkey.symm]

/-- Ageing brings no flow. -/
theorem age (h : Distinct T) (hs : Sound m s T) (now : Int) (k : Nat) :
    Distinct (T.age now k) := by
  have hold : ∀ x ∈ (T.age now k).nodes, x ∈ T.nodes ∧ (T.age now k).obj x = T.obj x := by
    intro x hx
    refine ⟨hs.mem_advance.mp (Table.settle_nodes_subset hx), ?_⟩
    rw [Table.age, Table.settle_obj (Table.advance_nodup hs.nodup) hx, Table.advance_obj]
  intro x hx y hy f g hf hg
  rw [(hold x hx).2] at hf
  rw [(hold y hy).2] at hg
  exact h x (hold x hx).1 y (hold y hy).1 f g hf hg

/-- An update brings no flow either: the new values are of the same hash and the same key. -/
theorem new (h : Distinct T) {x : Addr} {f f' : Flow} (hx : T.obj x = some f)
    (hhash : f'.hash = f.hash) (hkey : f'.key = f.key) : Distinct (T.new x f') := by
  have hold : ∀ y g, (T.new x f').obj y = some g →
      ∃ g', T.obj y = some g' ∧ g'.hash = g.hash ∧ g'.key = g.key := by
    intro y g hg
    by_cases hyx : y = x
    · subst hyx
      obtain rfl : f' = g := by simpa [Table.new] using hg
      exact ⟨f, hx, hhash.symm, hkey.symm⟩
    · exact ⟨g, (Function.update_of_ne hyx _ _).symm.trans hg, rfl, rfl⟩
  intro y hy z hz g g' hg hg' hsame hlabel
  obtain ⟨g₁, hg₁, hhash₁, hkey₁⟩ := hold y g hg
  obtain ⟨g₂, hg₂, hhash₂, hkey₂⟩ := hold z g' hg'
  exact h y hy z hz g₁ g₂ hg₁ hg₂ (by rw [hhash₁, hhash₂, hsame]) (by rw [hkey₁, hkey₂, hlabel])

/-- A flow is opened only if there is none with its hash and label. -/
theorem opened (h : Distinct T) {x : Addr} {f : Flow} (hget : T.get f.hash f.key = none) :
    Distinct (T.opened x f) := by
  have hmiss : ∀ y ∈ T.nodes, ∀ g, T.obj y = some g → ¬ (g.hash = f.hash ∧ g.key = f.key) := by
    rintro y hy g hg ⟨hhash, hkey⟩
    rw [← hhash, ← hkey, h.get_eq hy hg] at hget
    simp at hget
  have hold : ∀ y ∈ (T.opened x f).nodes, y ≠ x → y ∈ T.nodes ∧ (T.opened x f).obj y = T.obj y :=
    fun y hy hyx ↦ ⟨(List.mem_cons.mp hy).resolve_left hyx, Function.update_of_ne hyx _ _⟩
  have hself : ∀ g, (T.opened x f).obj x = some g → g = f := fun g hg ↦ by
    simpa [Table.opened, eq_comm] using hg
  intro y hy z hz g g' hg hg' hhash hkey
  by_cases hyx : y = x
  · by_cases hzx : z = x
    · rw [hyx, hzx]
    · obtain ⟨hz', hobj⟩ := hold z hz hzx
      rw [hself g (hyx ▸ hg)] at hhash hkey
      exact absurd ⟨hhash.symm, hkey.symm⟩ (hmiss z hz' g' (hobj ▸ hg'))
  · obtain ⟨hy', hobj⟩ := hold y hy hyx
    by_cases hzx : z = x
    · rw [hself g' (hzx ▸ hg')] at hhash hkey
      exact absurd ⟨hhash, hkey⟩ (hmiss y hy' g (hobj ▸ hg))
    · obtain ⟨hz', hobj'⟩ := hold z hz hzx
      exact h y hy' z hz' g g' (hobj ▸ hg) (hobj' ▸ hg') hhash hkey

theorem accepts (h : Distinct T) {p : Property} {src dst : Bytes} {acts : List Action}
    {T' : Table Flow} (hacc : Accepts output p src dst T acts T') : Distinct T' := by
  cases hacc with
  | @joined x f hget hobj => exact h.new hobj (f.update_hash p) (f.update_key p)
  | @opened x hget hobj =>
    exact h.opened (by rwa [Flow.update_hash, Flow.update_key])

end Distinct

/-- The handler between two calls, after the calls `ins`. -/
structure Between (m : Nat) (output : Bool) (ins : List (DnsDB × Property)) (s : FlowHandler)
    (T : Table Flow) : Prop where
  sound : Sound m s T
  distinct : Distinct T
  output : s.output = output
  held_length : T.held.length ≤ ins.length

/-- Every run of the handler keeps the flows distinct. -/
theorem between_run (al : Allocator) (output : Bool) {ins : List (DnsDB × Property)}
    (haddr : ∀ i ∈ ins, i.2.HasAddrs) (hfuel : ins.length ≤ fuel) :
    ∃ s outs T, Machine.run (recv al fuel) (init output) ins = some (s, outs) ∧
      Between (LRUHash.init slots 0 : LRUHash Flow).bucketSize output ins s T := by
  have hstep : ∀ is i (outs : List (List Action)) s₁, is ++ [i] <+: ins →
      (∃ T₁, Between (LRUHash.init slots 0 : LRUHash Flow).bucketSize output is s₁ T₁) →
      ∃ s₂ acts, recv al fuel s₁ i = some (s₂, acts) ∧
        ∃ T₂, Between (LRUHash.init slots 0 : LRUHash Flow).bucketSize output (is ++ [i]) s₂
          T₂ := by
    rintro is i outs s₁ hpre ⟨T₁, hsound, hdistinct, hout, hlen⟩
    have hlt : is.length + 1 ≤ ins.length := by simpa using hpre.length_le
    obtain ⟨s₂, acts, src, dst, accepted, T₂, hrecv, -, hacc, -, -, hsound', hout', -⟩ :=
      recv_eq hsound al i.1 (haddr i (hpre.subset (by simp)))
        (show T₁.held.length < fuel by omega)
    refine ⟨s₂, acts, hrecv, T₂, hsound', (hdistinct.age hsound _ _).accepts hacc,
      hout'.trans hout, ?_⟩
    have hage : (T₁.age i.2.tvSec (elapsed s₁.lastTs i.2.tvSec)).held.length ≤ T₁.held.length :=
      Table.settle_held_length hsound.advance_length.le
    have hacclen := hacc.held_length
    rw [List.length_append, List.length_singleton]
    omega
  obtain ⟨s, outs, hrun, T, hbetween⟩ := Machine.run_history
    (P := fun is (_ : List (List Action)) s ↦
      ∃ T, Between (LRUHash.init slots 0 : LRUHash Flow).bucketSize output is s T)
    ⟨Table.empty, Sound.init output, .empty, rfl, Nat.zero_le _⟩ hstep ins List.prefix_rfl
  exact ⟨s, outs, T, hrun, hbetween⟩

/-! ## The flows that have not come due -/

/-- What is left of a list without repetition is what a filter leaves. -/
theorem sublist_eq_filter {l l' : List Addr} (h : l'.Sublist l) (hnd : l.Nodup) :
    l' = l.filter (· ∈ l') := by
  have hself : l'.filter (· ∈ l') = l' := List.filter_eq_self.mpr fun x hx ↦ by simpa using hx
  have hsub := h.filter (· ∈ l')
  rw [hself] at hsub
  refine hsub.eq_of_length_le ?_
  refine ((hnd.filter _).subperm fun x hx ↦ ?_).length_le
  simpa using (List.mem_filter.mp hx).2

namespace Table

theorem advance_nodes_sublist {n : Nat} (k : Nat) : (T.advance n k).nodes.Sublist T.nodes := by
  induction k generalizing T with
  | zero => exact .refl _
  | succ k ih => exact ih.trans (List.filter_sublist.map _)

end Table

namespace Sound

/-- The clock advances, and the flows that do not expire stay in their order. -/
theorem advance_nodes (h : Sound m s T) (k : Nat) :
    (T.advance slots k).nodes = T.nodes.filter (· ∉ (T.advance slots k).expired) := by
  have hnd := Table.advance_nodup (n := slots) (k := k) h.nodup
  rw [sublist_eq_filter (Table.advance_nodes_sublist k) (List.nodup_append.mp h.nodup).1]
  refine List.filter_congr fun x hx ↦ decide_eq_decide.mpr ?_
  have hmem := (h.mem_advance (n := slots) (k := k)).mpr hx
  exact ⟨fun hn he ↦ (List.nodup_append.mp hnd).2.2 x hn x he rfl, fun he ↦
    (List.mem_append.mp hmem).resolve_right he⟩

/-- A flow that does not come due stays as it is. -/
theorem age_rest (h : Sound m s T) (now : Int) {k : Nat} {e : Entry} (he : e ∈ T.held)
    (hdue : e.node ∉ (T.advance slots k).expired) :
    e ∈ (T.age now k).held ∧ (T.age now k).obj e.node = T.obj e.node := by
  have hnode : e.node ∈ (T.advance slots k).nodes := by
    rw [h.advance_nodes, List.mem_filter, decide_eq_true_eq]
    exact ⟨List.mem_map_of_mem he, hdue⟩
  obtain ⟨e', he', heq⟩ := List.mem_map.mp hnode
  have hsame := List.inj_on_of_nodup_map (List.nodup_append.mp h.nodup).1
    (Table.advance_held_subset k he') he heq
  refine ⟨List.mem_append_right _ (hsame ▸ he'), ?_⟩
  rw [Table.age, Table.settle, Table.advance_obj]
  exact if_neg fun hexp ↦ hdue hexp.1

/-- The flows of a bucket that do not come due stay in their order. -/
theorem age_chain (h : Sound m s T) (now : Int) (k i : Nat) :
    ((T.age now k).chain m i).filter (· ∉ (T.advance slots k).expired) =
      (T.chain m i).filter (· ∉ (T.advance slots k).expired) := by
  have hnodes : (T.age now k).nodes.filter (· ∉ (T.advance slots k).expired) =
      T.nodes.filter (· ∉ (T.advance slots k).expired) := by
    rw [Table.age, Table.settle_nodes, List.filter_append, h.advance_nodes, List.filter_filter]
    refine (congrArg (· ++ _) (List.filter_eq_nil_iff.mpr fun x hx ↦ ?_)).trans (by simp)
    simpa using (List.mem_filter.mp (List.mem_reverse.mp hx)).1
  rw [Table.chain, List.filter_comm, hnodes]
  refine (List.filter_congr fun x hx ↦ decide_eq_decide.mpr ?_).trans (List.filter_comm ..)
  obtain ⟨hx, hdue⟩ := List.mem_filter.mp hx
  obtain ⟨e, he, rfl⟩ := List.mem_map.mp hx
  rw [Table.hashOf, (h.age_rest now he (by simpa using hdue)).2]
  rfl

/-- Below the wrap of the clock, the flows that have expired are those whose deadline has
passed. -/
theorem expired_iff_due (h : Sound m s T) {k : Nat} (hwrap : T.clock + k + slots ≤ 2 ^ 64)
    {e : Entry} (he : e ∈ T.held) :
    e.node ∈ (T.advance slots k).expired ↔ e.deadline < T.clock + k := by
  refine ⟨fun hx ↦ h.expired_due hwrap hx he, fun hdue ↦ ?_⟩
  by_contra hx
  have hheld : e ∈ (T.advance slots k).held := by
    rcases List.mem_append.mp (h.age_rest 0 he hx).1 with hmem | hmem
    · obtain ⟨x, hx', rfl⟩ := List.mem_map.mp (List.mem_reverse.mp hmem)
      exact absurd (List.mem_filter.mp hx').1 hx
    · exact hmem
  have hlow := (h.window.advance k e hheld).1
  rw [Refines.advance_clock] at hlow
  omega

end Sound

/-! ## The flows that have -/

/-- The flow `f` at `x` is held again, from the new clock on, and can be found. -/
structure Rearmed (fuel : Nat) (x : Addr) (f : Flow) (acts : List Action) (s : FlowHandler)
    (T : Table Flow) : Prop where
  held : ⟨x, T.clock + timeout⟩ ∈ T.held
  slot : s.flowTable.InSlot (slotOf slots (T.clock + timeout)) (.node x)
  found : s.flowTable.get fuel f.hash f.key = some (some (.node x))
  obj : s.flowTable.heap.obj (.node x) = some f
  silent : acts.filter (Action.closes (.node x)) = []

/-- The end of the flow `f` at `x` has been reported, and it is gone. -/
structure Dropped (x : Addr) (f : Flow) (acts : List Action) (s : FlowHandler) : Prop where
  reported : acts.filter (Action.closes (.node x)) = report s.output (.expireFlow (.node x) f)
  bucket : ∀ i < s.flowTable.bucketSize, ¬ s.flowTable.InBucket i (.node x)
  slot : ∀ j < s.flowTable.timeslotSize, ¬ s.flowTable.InSlot j (.node x)
  deleted : Ptr.node x ∉ s.flowTable.heap.live

/-- The flows `due` of `s` have been examined at `now`, and the others left alone. -/
structure Examined (fuel : Nat) (now : Int) (due : List Addr) (s : FlowHandler) (T : Table Flow)
    (acts : List Action) (s' : FlowHandler) (T' : Table Flow) : Prop where
  queue : ∀ p, ¬ s'.flowTable.InQueue p
  clock : T'.clock = T.clock + (now - s.lastTs).toNat
  due_iff : T'.clock + slots ≤ 2 ^ 64 → ∀ e ∈ T.held, e.node ∈ due ↔ e.deadline < T'.clock
  judged : ∀ x ∈ due, ∃ f last, s.flowTable.Holds (.node x) f ∧ f.lastTs = some last ∧
    if now < last + timeout then Rearmed fuel x f acts s' T' else Dropped x f acts s'
  /-- The deadlines and counters of the others are what they were. -/
  rest : ∀ e ∈ T.held, e.node ∉ due → e ∈ T'.held ∧
    s'.flowTable.heap.obj (.node e.node) = s.flowTable.heap.obj (.node e.node)
  /-- The order of the others in the buckets is what it was. -/
  order : ∀ i < s.flowTable.bucketSize, ∃ xs ys : List Addr,
    Doubly s.flowTable.heap.next s.flowTable.heap.prev (.bucket i) (xs.map .node) ∧
    Doubly s'.flowTable.heap.next s'.flowTable.heap.prev (.bucket i) (ys.map .node) ∧
    ys.filter (· ∉ due) = xs.filter (· ∉ due)

/-- The reports of the ends of a flow belong to its history. -/
theorem closes_history (x : Ptr) (acts : List Action) :
    (history (.object x) acts).filter (Action.closes x) = acts.filter (Action.closes x) := by
  rw [history, List.filter_filter]
  refine List.filter_congr fun a _ ↦ ?_
  cases a <;> simp [Action.closes, Action.subject, Selector.sees]

theorem closes_closing (output : Bool) (x : Ptr) (f : Flow) :
    (closing output x f).filter (Action.closes x) = report output (.expireFlow x f) := by
  cases output <;> simp [closing, report, Action.closes]

namespace Sound

/-- What is reported of a flow that has come due. -/
theorem closes_age (h : Sound m s T) {now : Int} {k : Nat} {x : Addr} {f : Flow}
    (hx : x ∈ (T.advance slots k).expired) (hobj : T.obj x = some f) {acts : List Action}
    (hacts : acts.filter Action.isEvent = T.ageActions output now k) :
    acts.filter (Action.closes (.node x)) =
      if activeAt now f then [] else report output (.expireFlow (.node x) f) := by
  have hnd := Table.advance_nodup (n := slots) (k := k) h.nodup
  have hobj' : (T.advance slots k).obj x = some f := by rw [Table.advance_obj, hobj]
  have hone : history (.object (.node x)) (T.ageActions output now k) =
      (T.advance slots k).verdict output (activeAt now) x := by
    refine history_settle_one (List.nodup_append.mp hnd).2.1 hx hobj' (by simp [Selector.sees]) ?_
    intro y hy hyx
    obtain ⟨g, hg, -⟩ := h.advance_dated (List.mem_append_right _ hy)
    exact ⟨g, hg, by simpa [Selector.sees] using hyx⟩
  rw [← closes_history, ← history_isEvent, hacts, hone, Table.verdict, hobj']
  by_cases hact : activeAt now f
  · simp [hact]
  · simp [hact, closes_closing]

end Sound

namespace Refines

variable {t : LRUHash Flow}

/-- A node that the table does not have is on none of its chains. -/
theorem no_chain (r : Refines slots m t T) {x : Addr} (hx : x ∉ T.nodes) :
    (∀ i < t.bucketSize, ¬ t.InBucket i (.node x)) ∧
      ∀ j < t.timeslotSize, ¬ t.InSlot j (.node x) := by
  rw [r.bucketSize, r.timeslotSize]
  exact ⟨fun i hi hin ↦ hx (Table.mem_chain.mp ((r.inBucket_iff hi).mp hin)).1, fun j hj hin ↦
    hx (Table.slotNodes_subset ((r.inSlot_iff hj).mp hin))⟩

/-- A flow of the table can be found in its bucket. -/
theorem holds_of_mem (r : Refines slots m t T) {x : Addr} {f : Flow} (hx : x ∈ T.nodes)
    (hobj : T.obj x = some f) : t.Holds (.node x) f := by
  have hlt : T.hashOf x % m < m := Nat.mod_lt _ r.bucket_pos
  refine ⟨⟨T.hashOf x % m, r.bucketSize ▸ hlt, ?_⟩, (r.rep.obj x).trans hobj⟩
  exact (r.inBucket_iff hlt).mpr (Table.mem_chain.mpr ⟨hx, rfl⟩)

theorem not_inQueue (r : Refines slots m t T) (hexp : T.expired = []) (p : Ptr) :
    ¬ t.InQueue p := by
  intro hp
  rw [LRUHash.InQueue, r.rep.exp.transGen_iff, hexp] at hp
  simp at hp

end Refines

/-! ## The loop -/

section Loop

variable {s' : FlowHandler} {now : Int} {k : Nat} {acts : List Action} {x : Addr} {f : Flow}

/-- A flow that is active goes back. -/
theorem Sound.rearmed (h : Sound m s T) (hd : Distinct T) (hf : T.held.length < fuel)
    (h' : Sound m s' (T.age now k)) (hx : x ∈ (T.advance slots k).expired)
    (hobj : T.obj x = some f) (hact : activeAt now f)
    (hacts : acts.filter Action.isEvent = T.ageActions output now k) :
    Rearmed fuel x f acts s' (T.age now k) := by
  have hkept : (T.advance slots k).kept (activeAt now) x := by
    rw [Table.kept, Table.advance_obj, hobj]
    exact hact
  have hheld : ⟨x, (T.age now k).clock + timeout⟩ ∈ (T.age now k).held := by
    refine List.mem_append_left _ (List.mem_reverse.mpr ?_)
    exact List.mem_map.mpr ⟨x, List.mem_filter.mpr ⟨hx, hkept⟩, rfl⟩
  have hnode : x ∈ (T.age now k).nodes := List.mem_map_of_mem hheld
  have hsame : (T.age now k).obj x = some f := by
    rw [Table.age, Table.settle_obj (Table.advance_nodup h.nodup) hnode, Table.advance_obj, hobj]
  have hlen : (T.age now k).held.length < fuel :=
    (Table.settle_held_length h.advance_length.le).trans_lt hf
  refine ⟨hheld, ?_, ?_, (h'.refines.rep.obj x).trans hsame, ?_⟩
  · refine (h'.refines.inSlot_iff (Nat.mod_lt _ slots_pos)).mpr ?_
    exact List.mem_map_of_mem (List.mem_filter.mpr ⟨hheld, by simp [slotOf]⟩)
  · rw [h'.refines.get hlen, (hd.age h now k).get_eq hnode hsame]
    rfl
  · rw [h.closes_age hx hobj hacts, if_pos hact]

/-- One that is not is dropped. -/
theorem Sound.dropped (h : Sound m s T) (hout : s'.output = output)
    (h' : Sound m s' (T.age now k)) (hx : x ∈ (T.advance slots k).expired)
    (hobj : T.obj x = some f) (hact : ¬ activeAt now f)
    (hacts : acts.filter Action.isEvent = T.ageActions output now k) : Dropped x f acts s' := by
  have hkept : ¬ (T.advance slots k).kept (activeAt now) x := by
    rw [Table.kept, Table.advance_obj, hobj]
    exact hact
  have hnone : (T.age now k).obj x = none := if_pos ⟨hx, hkept⟩
  have hnode : x ∉ (T.age now k).nodes := fun hmem ↦ by
    have hsome := h'.refines.rep.owned x (List.mem_append_left _ hmem)
    simp [hnone] at hsome
  obtain ⟨hbucket, hslot⟩ := h'.refines.no_chain hnode
  refine ⟨?_, hbucket, hslot, ?_⟩
  · rw [h.closes_age hx hobj hacts, if_neg hact, hout]
  · rw [h'.refines.rep.node_live, hnone]
    exact Bool.false_ne_true

theorem Sound.examined (h : Sound m s T) (hd : Distinct T) (hf : T.held.length < fuel)
    (hout : s'.output = s.output) (h' : Sound m s' (T.age now (now - s.lastTs).toNat))
    (hacts : acts.filter Action.isEvent = T.ageActions s.output now (now - s.lastTs).toNat) :
    Examined fuel now (T.advance slots (now - s.lastTs).toNat).expired s T acts s'
      (T.age now (now - s.lastTs).toNat) where
  queue := h'.refines.not_inQueue h'.settled
  clock := Table.age_clock now _
  due_iff hwrap e he := by
    rw [Table.age_clock] at hwrap ⊢
    exact h.expired_iff_due hwrap he
  judged x hx := by
    have hnode := h.mem_advance.mp (List.mem_append_right _ hx)
    obtain ⟨f, hobj, hdate⟩ := h.dated x hnode
    obtain ⟨last, hlast⟩ := Option.isSome_iff_exists.mp hdate
    have hactive : activeAt now f ↔ now < last + timeout := by simp [activeAt, hlast]
    refine ⟨f, last, h.refines.holds_of_mem hnode hobj, hlast, ?_⟩
    split
    next hlt => exact h.rearmed hd hf h' hx hobj (hactive.mpr hlt) hacts
    next hlt => exact h.dropped hout h' hx hobj (fun hact ↦ hlt (hactive.mp hact)) hacts
  rest e he hdue := by
    obtain ⟨hheld, hobj⟩ := h.age_rest now he hdue
    exact ⟨hheld, by rw [h'.refines.rep.obj, h.refines.rep.obj, hobj]⟩
  order i hi := by
    rw [h.refines.bucketSize] at hi
    exact ⟨_, _, h.refines.rep.bucket i hi, h'.refines.rep.bucket i hi, h.age_chain now _ i⟩

end Loop

/-- **The loop ends and sorts the flows that are due.**  After any packets, and for any later time:
`prog` succeeds and queues some flows; the loop ends after exactly as many turns, and one more in
which it finds the queue empty; the flows in the queue have been put back or closed, and all others
are where they were. -/
theorem expiry_loop (al : Allocator) (output : Bool) (fuel : Nat) (ins : List (DnsDB × Property))
    (haddr : ∀ i ∈ ins, i.2.HasAddrs) (hfuel : ins.length < fuel) :
    ∃ s outs T, Machine.run (recv al fuel) (init output) ins = some (s, outs) ∧
      s.output = output ∧ TimedRefines slots s.flowTable.bucketSize s.flowTable T ∧
      ∀ now, 0 < s.lastTs → s.lastTs < now → ∃ t due s' acts T',
        s.flowTable.prog fuel (now - s.lastTs).toNat = some t ∧
        Singly t.heap.link .exp (due.map .node) ∧
        (∀ turns, popLoop (active now) turns { s with flowTable := t } =
          if due.length < turns then some (s', acts) else none) ∧
        s.checkTimeout fuel now = some (s', acts) ∧
        TimedRefines slots s'.flowTable.bucketSize s'.flowTable T' ∧ s'.output = output ∧
        Examined fuel now due s T acts s' T' := by
  obtain ⟨s, outs, T, hrun, h, hd, hout, hlen⟩ := between_run al output haddr hfuel.le
  have hf : T.held.length < fuel := hlen.trans_lt hfuel
  refine ⟨s, outs, T, hrun, hout, ⟨h.refines.bucketSize.symm ▸ h.refines, h.window⟩,
    fun now hpos hlt ↦ ?_⟩
  have hk : elapsed s.lastTs now = (now - s.lastTs).toNat := if_pos ⟨hpos, hlt⟩
  obtain ⟨t, ht, r⟩ := h.refines.prog slots_pos hf (now - s.lastTs).toNat
  obtain ⟨t', acts, hloop, -, hacts, -⟩ :=
    popLoop_exact (s := { s with flowTable := t }) (active now) (activeAt now) r fun x hx ↦ by
      obtain ⟨f, hobj, hdate⟩ := h.advance_dated (List.mem_append_right _ hx)
      exact ⟨f, hobj, activeAt_of_dated hdate⟩
  -- the timeout handling runs this loop with fuel enough
  have hadvance := h.advance_length (n := slots) (k := (now - s.lastTs).toNat)
  have hcheck : s.checkTimeout fuel now = some ({ s with flowTable := t' }, acts) := by
    rw [checkTimeout, if_pos ⟨hpos, hlt⟩, ht, Option.bind_eq_bind, Option.bind_some, hloop,
      if_pos (show _ < fuel by omega)]
  obtain ⟨t₁, acts₁, hcheck₁, h', -⟩ := checkTimeout_eq h hf now
  obtain ⟨hs, rfl⟩ := Prod.mk.inj (Option.some.inj (hcheck.symm.trans hcheck₁))
  rw [← hs, hk] at h'
  exact ⟨t, _, _, _, _, ht, r.rep.exp, hloop, hcheck,
    ⟨h'.refines.bucketSize.symm ▸ h'.refines, h'.window⟩, hout, h.examined hd hf rfl h' hacts⟩

/-- Two sessions with one hash, of which one has become idle. -/
theorem expiry_loop_sample :
    ∃ s outs T, Machine.run (recv .above 20) (init true) sampleCalls = some (s, outs) ∧
      s.output = true ∧ TimedRefines slots s.flowTable.bucketSize s.flowTable T ∧
      ∀ now, 0 < s.lastTs → s.lastTs < now → ∃ t due s' acts T',
        s.flowTable.prog 20 (now - s.lastTs).toNat = some t ∧
        Singly t.heap.link .exp (due.map .node) ∧
        (∀ turns, popLoop (active now) turns { s with flowTable := t } =
          if due.length < turns then some (s', acts) else none) ∧
        s.checkTimeout 20 now = some (s', acts) ∧
        TimedRefines slots s'.flowTable.bucketSize s'.flowTable T' ∧ s'.output = true ∧
        Examined 20 now due s T acts s' T' :=
  expiry_loop .above true 20 sampleCalls (by decide) (by decide)

end DnsHive
