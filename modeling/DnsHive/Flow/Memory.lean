import DnsHive.Flow.Examination
import DnsHive.Flow.Ledger

/-!
# The memory of the handler

The handler allocates a `Flow` for every session it has not got one of, and deletes it when it is
reported to have ended.

* `flows_deleted` — no `Flow` is lost: what is allocated is in the table, and in the end nothing is.
* `flows_bounded` — there are never more `Flow`s than sessions with a recent packet.

Both count the objects of the class `Flow`, which are the live nodes of the heap, and nothing else.
Each of them has a copy of the key of its session that the constructor gets from `malloc`, and the
destructor is empty: this copy, `key_`, is never freed.  In the model a key is a value, so that what
is lost with every flow that ends is not seen here.

What carries both results is the ledger of the handler (`Booked`): the flow at a live node is the
total of a block of packets that belongs to it (`Booked.live`).  Two flows of one session would be
two places for the machine that follows the session (`holds_unique`).
-/

set_option autoImplicit false

namespace DnsHive

open Swarm FlowHandler

variable {al : Allocator} {fuel : Nat} {s : FlowHandler} {ins : List (DnsDB × Property)}
  {acts : List Action} {T : Table Flow} {g : Addr → Block} {closed : List Block}
  {i : DnsDB × Property} {outs : List (List Action)}

/-- A flow that exists is in the table, and is the total of its block. -/
theorem Booked.live (h : Booked s ins acts T g closed) {x : Addr}
    (hx : .node x ∈ s.flowTable.heap.live) :
    s.flowTable.Holds (.node x) (g x).total ∧ (g x).Whole ∧ (g x).inputs.Sublist ins := by
  rw [h.sound.refines.rep.node_live, h.ledger.obj] at hx
  have hmem : x ∈ T.owned := by
    by_contra hmem
    simp [hmem] at hx
  have hnode : x ∈ T.nodes := by rwa [Table.owned, h.sound.settled, List.append_nil] at hmem
  have hblock : g x ∈ closed ++ T.owned.map g :=
    List.mem_append_right _ (List.mem_map_of_mem hmem)
  exact ⟨h.sound.refines.holds_of_mem hnode (by rw [h.ledger.obj, if_pos hmem]),
    h.ledger.counted.whole _ hblock, h.ledger.counted.sublist _ hblock⟩

/-- **No flow is lost, and none outlives the handler.**  After any packets, every `Flow` that has
been allocated and not deleted can be found in the table; and when the handler is destroyed, all of
them are deleted.  Their keys are not counted, since nothing frees them. -/
theorem flows_deleted (al : Allocator) (fuel : Nat) (ins : List (DnsDB × Property))
    (haddr : ∀ i ∈ ins, i.2.HasAddrs) (hfuel : ins.length < fuel) :
    ∃ s outs s' acts, Machine.run (recv al fuel) (init true) ins = some (s, outs) ∧
      destroy fuel s = some (s', acts) ∧
      (∀ x, .node x ∈ s.flowTable.heap.live → ∃ f, s.flowTable.Holds (.node x) f) ∧
      ∀ x, .node x ∉ s'.flowTable.heap.live := by
  obtain ⟨s, outs, T, g, closed, hrun, h⟩ := Booked.of_run al haddr hfuel.le
  obtain ⟨s', o, T', blocks, hdestroy, r, hnone, hledger⟩ := h.destroy hfuel
  refine ⟨s, outs, s', o, hrun, hdestroy, fun x hx ↦ ⟨_, (h.live hx).1⟩, fun x hx ↦ ?_⟩
  rw [r.rep.node_live, hledger.obj, hnone] at hx
  simp at hx

theorem flows_deleted_sample :
    ∃ s outs s' acts, Machine.run (recv .above 20) (init true) sampleCalls = some (s, outs) ∧
      destroy 20 s = some (s', acts) ∧
      (∀ x, .node x ∈ s.flowTable.heap.live → ∃ f, s.flowTable.Holds (.node x) f) ∧
      ∀ x, .node x ∉ s'.flowTable.heap.live :=
  flows_deleted .above 20 _ (by decide) (by decide)

/-- The address of a flow. -/
def Ptr.isNode : Ptr → Bool
  | .node _ => true
  | _ => false

/-- The sessions that have had a packet within the last `2 * TIMEOUT` seconds. -/
def recent (now : Int) (ins : List (DnsDB × Property)) : Finset Bytes :=
  ((ins.filter fun i ↦ now < i.2.tvSec + 2 * timeout).map fun i ↦ i.2.ssnLabel).toFinset

/-- A flow that is held has had a packet recently. -/
theorem lastTs_of_holds (haddr : ∀ j ∈ ins ++ [i], j.2.HasAddrs)
    (hpos : ∀ j ∈ ins ++ [i], 0 < j.2.tvSec) (hfuel : (ins ++ [i]).length ≤ fuel)
    (hrun : Machine.run (recv al fuel) (init true) (ins ++ [i]) = some (s, outs)) {x : Ptr}
    {f : Flow} (hx : s.flowTable.Holds x f) {t : Int} (ht : f.lastTs = some t) :
    i.2.tvSec < t + 2 * timeout := by
  obtain ⟨s', outs', T, hrun', h, -, -, -, hw⟩ := watch_init al true haddr hfuel
  obtain ⟨rfl, rfl⟩ := Prod.mk.inj (Option.some.inj (hrun.symm.trans hrun'))
  obtain ⟨w, hruns, hwx⟩ := hw (.object x) (fun _ ↦ 0) fun _ _ ↦ trivial
  obtain ⟨_, _, _, _, _, hstep⟩ := hruns.last
  obtain ⟨hpunct, -⟩ := Watch.punctual_of_runs hruns hpos (by simp [Watch.Punctual, Watch.init])
  obtain ⟨y, d, -, hsession⟩ := hwx.holds h hx
  exact hstep.1 ▸ (hpunct _ hsession).2.lt ht

/-- No two flows that are held are of one session. -/
theorem holds_unique {H : Bytes → Nat} (haddr : ∀ j ∈ ins, j.2.HasAddrs)
    (hhash : ∀ j ∈ ins, j.2.hashValue = H j.2.ssnLabel) (hfuel : ins.length ≤ fuel)
    (hrun : Machine.run (recv al fuel) (init true) ins = some (s, outs)) {x y : Ptr}
    {f k : Flow} (hx : s.flowTable.Holds x f) (hy : s.flowTable.Holds y k) (hkey : f.key = k.key) :
    x = y := by
  obtain ⟨s', outs', T, hrun', h, -, -, -, hw⟩ := watch_init al true haddr hfuel
  obtain ⟨rfl, rfl⟩ := Prod.mk.inj (Option.some.inj (hrun.symm.trans hrun'))
  obtain ⟨w, -, hw⟩ := hw (.session f.key) H hhash
  obtain ⟨a, rfl, ha, hf⟩ := h.refines.holds hx
  obtain ⟨b, rfl, hb, hk⟩ := h.refines.holds hy
  -- both are the flow that the session's machine is at
  obtain ⟨d, hd⟩ := hw.view.eq_of_node ha hf (by simp [Selector.sees])
  obtain ⟨e, he⟩ := hw.view.eq_of_node hb hk (by simp [Selector.sees, hkey])
  rw [(Session.mk.inj (Option.some.inj (hd.symm.trans he))).1]

/-- **The flows are bounded by the recent sessions.**  Whether the times increase, repeat or go
back, as long as they are positive and the hash is a function of the label: after every packet there
are no more `Flow`s than sessions that have had a packet within twice `TIMEOUT`.  Their keys are not
counted, since nothing frees them. -/
theorem flows_bounded (al : Allocator) (H : Bytes → Nat) (fuel : Nat)
    (ins : List (DnsDB × Property)) (i : DnsDB × Property)
    (haddr : ∀ j ∈ ins ++ [i], j.2.HasAddrs)
    (hhash : ∀ j ∈ ins ++ [i], j.2.hashValue = H j.2.ssnLabel)
    (hpos : ∀ j ∈ ins ++ [i], 0 < j.2.tvSec) (hfuel : ins.length + 1 ≤ fuel) :
    ∃ s outs, Machine.run (recv al fuel) (init true) (ins ++ [i]) = some (s, outs) ∧
      (s.flowTable.heap.live.filter fun x ↦ x.isNode).card ≤
        (recent i.2.tvSec (ins ++ [i])).card := by
  have hlen : (ins ++ [i]).length ≤ fuel := by simpa using hfuel
  obtain ⟨s, outs, T, g, closed, hrun, h⟩ := Booked.of_run al haddr hlen
  have hlive : ∀ x ∈ s.flowTable.heap.live.filter fun x ↦ x.isNode, ∃ b : Block,
      s.flowTable.Holds x b.total ∧ b.Whole ∧ b.inputs.Sublist (ins ++ [i]) := by
    intro x hx
    obtain ⟨hx, hnode⟩ := Finset.mem_filter.mp hx
    cases x with
    | node y => exact ⟨g y, h.live hx⟩
    | _ => cases hnode
  refine ⟨s, outs, hrun, Finset.card_le_card_of_injOn
    (fun x ↦ (s.flowTable.heap.obj x).elim [] Flow.key) (fun x hx ↦ ?_) fun x hx y hy hkey ↦ ?_⟩
  · -- the last packet of a flow is recent
    obtain ⟨b, hholds, hwhole, hsub⟩ := hlive x hx
    have hlate := lastTs_of_holds haddr hpos hlen hrun hholds b.total_lastTs
    have hlast : b.last ∈ b.inputs := List.mem_of_getLast? b.inputs_getLast?
    have hkey : b.total.key = b.last.2.ssnLabel := by rw [b.total_key, hwhole.label _ hlast]
    show (s.flowTable.heap.obj x).elim [] Flow.key ∈ recent i.2.tvSec (ins ++ [i])
    rw [hholds.2, Option.elim_some, hkey, recent, List.mem_toFinset]
    exact List.mem_map_of_mem (List.mem_filter.mpr ⟨hsub.subset hlast, decide_eq_true hlate⟩)
  · obtain ⟨b, hholds, -⟩ := hlive x hx
    obtain ⟨b', hholds', -⟩ := hlive y hy
    refine holds_unique haddr hhash hlen hrun hholds hholds' ?_
    simpa only [hholds.2, hholds'.2, Option.elim_some] using hkey

theorem flows_bounded_sample :
    ∃ s outs, Machine.run (recv .above 20) (init true)
        ([(DnsDB.init, samplePacket [1] 100), (DnsDB.init, samplePacket [2] 40),
          (DnsDB.init, samplePacket [1] 41)] ++ [(DnsDB.init, samplePacket [2] 700)]) =
          some (s, outs) ∧
      (s.flowTable.heap.live.filter fun x ↦ x.isNode).card ≤
        (recent 700 ([(DnsDB.init, samplePacket [1] 100), (DnsDB.init, samplePacket [2] 40),
          (DnsDB.init, samplePacket [1] 41)] ++ [(DnsDB.init, samplePacket [2] 700)])).card :=
  flows_bounded .above List.length 20 _ _ (by decide) (by decide) (by decide) (by decide)

end DnsHive
