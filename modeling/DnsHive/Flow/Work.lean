import DnsHive.Flow.Memory
import DnsHive.Lib.Amortized

/-!
# The work of the loop

A flow is examined whenever it comes due, also if it is active and goes back.  That happens once in
`TIMEOUT` seconds, since this is how long it waits after it has been put.  So over a whole run, the
loop makes at most one turn for every `TIMEOUT` seconds that a flow has been open, summed up over
all flows (`turns_amortized`).
-/

set_option autoImplicit false

namespace DnsHive

open Swarm FlowHandler Machine

/-- A flow is put or deleted. -/
def Action.isTurn : Action → Bool
  | put .. | delete .. => true
  | _ => false

/-- A flow is reported as new. -/
def Action.isNewFlow : Action → Bool
  | newFlow .. => true
  | _ => false

/-- The turns of the loop: each one puts a flow back or deletes it.  Only new flows are put without
a turn. -/
def turns (acts : List Action) : Nat :=
  acts.countP Action.isTurn - acts.countP Action.isNewFlow

/-- The flows that exist. -/
def FlowHandler.flows (s : FlowHandler) : Nat :=
  (s.flowTable.heap.live.filter fun x ↦ x.isNode).card

/-- What one packet grants: the time that it brings, for each flow. -/
def grant (s : FlowHandler) (i : DnsDB × Property) : Nat := elapsed s.lastTs i.2.tvSec * s.flows

/-- The time that all packets bring. -/
def timeSpan : Int → List (DnsDB × Property) → Nat
  | _, [] => 0
  | last, i :: is => elapsed last i.2.tvSec + timeSpan i.2.tvSec is

variable {m fuel : Nat} {s s' : FlowHandler} {T T' : Table Flow} {acts : List Action}

/-! ## Savings -/

/-- How long the flows have waited since they were put. -/
def Table.waited (T : Table Flow) : Nat := (T.held.map fun e ↦ T.clock + timeout - e.deadline).sum

/-- Each entry that comes due has waited for `TIMEOUT`. -/
theorem waited_filter (clock k : Nat) (held : List Entry) :
    timeout * (held.filter fun e ↦ e.deadline < clock + k).length +
        ((held.filter fun e ↦ clock + k ≤ e.deadline).map fun e ↦
          clock + k + timeout - e.deadline).sum ≤
      k * held.length + (held.map fun e ↦ clock + timeout - e.deadline).sum := by
  induction held with
  | nil => simp
  | cons e held ih =>
    rw [List.length_cons, Nat.mul_succ, List.map_cons, List.sum_cons]
    by_cases hdue : e.deadline < clock + k
    · have hstays : ¬ clock + k ≤ e.deadline := by omega
      rw [List.filter_cons_of_pos (by simpa using hdue), List.length_cons, Nat.mul_succ,
        List.filter_cons_of_neg (by simpa using hstays)]
      omega
    · have hstays : clock + k ≤ e.deadline := by omega
      rw [List.filter_cons_of_neg (by simpa using hdue),
        List.filter_cons_of_pos (by simpa using hstays), List.map_cons, List.sum_cons]
      omega

/-- Flows that are put back begin to wait anew. -/
theorem waited_settle (T : Table Flow) (keep : Flow → Bool) :
    (T.settle keep).waited = T.waited := by
  have hback : (((T.expired.filter (T.kept keep)).map fun x ↦
      (⟨x, T.clock + timeout⟩ : Entry)).reverse.map fun e ↦
        T.clock + timeout - e.deadline).sum = 0 := by
    apply List.sum_eq_zero
    intro n hn
    obtain ⟨e, he, rfl⟩ := List.mem_map.mp hn
    obtain ⟨x, -, rfl⟩ := List.mem_map.mp (List.mem_reverse.mp he)
    exact Nat.sub_self _
  simp only [Table.waited, Table.settle, List.map_append, List.sum_append, hback, Nat.zero_add]

/-- Ageing pays for the turns of the loop. -/
theorem waited_age (h : Sound m s T) (now : Int) {k : Nat}
    (hwrap : T.clock + k + slots ≤ 2 ^ 64) :
    timeout * (T.advance slots k).expired.length + (T.age now k).waited ≤
      k * T.held.length + T.waited := by
  have hdue : (T.prog k).expired.length =
      (T.held.filter fun e ↦ e.deadline < T.clock + k).length := by
    rw [Table.prog, h.settled, List.append_nil, List.length_map, Table.batch,
      StableSort.descending, List.length_insertionSort, List.length_reverse]
  rw [Table.age, waited_settle, Table.advance_eq_prog h.window k hwrap, hdue]
  exact waited_filter T.clock k T.held

/-- A packet that is accepted saves nothing. -/
theorem waited_accepts {output : Bool} {p : Property} {src dst : Bytes}
    (h : Accepts output p src dst T acts T') : T'.waited = T.waited := by
  cases h with
  | joined => rfl
  | opened => simp [Table.waited, Table.opened]

/-! ## Turns -/

/-- What is done with a flow that has been popped is one turn. -/
theorem turn_counted (r : Refines slots m s.flowTable T) {x : Addr} (hx : (T.obj x).isSome)
    (hfree : x ∉ T.nodes ++ T.expired) (f : Flow) (keep : Bool) :
    ∃ t acts T', (if keep then s.putFlow (.node x) else s.closeFlow (.node x) f) =
        some ({ s with flowTable := t }, acts) ∧
      Refines slots m t T' ∧ T'.expired = T.expired ∧ acts.countP Action.isTurn = 1 ∧
      acts.countP Action.isNewFlow = 0 := by
  cases keep with
  | true =>
    obtain ⟨t, hput, r'⟩ := putFlow_eq r hx hfree
    exact ⟨t, _, _, hput, r', rfl, rfl, rfl⟩
  | false =>
    obtain ⟨t, hclose, r'⟩ := closeFlow_eq (f := f) r hx hfree
    refine ⟨t, _, _, hclose, r', rfl, ?_⟩
    cases s.output <;> exact ⟨rfl, rfl⟩

/-- The loop makes a turn for each flow that has expired. -/
theorem popLoop_turns {active : Flow → Option Bool} (r : Refines slots m s.flowTable T)
    (h : popLoop active fuel s = some (s', acts)) :
    acts.countP Action.isTurn = T.expired.length ∧ acts.countP Action.isNewFlow = 0 ∧
      s'.output = s.output := by
  induction fuel generalizing s T acts with
  | zero => cases h
  | succ fuel ih =>
    cases hx : T.expired with
    | nil =>
      obtain ⟨t, ht, -⟩ := r.pop_nil hx
      simp only [popLoop, ht, castFlow, Option.bind_eq_bind, Option.bind_some, Option.pure_def,
        Option.some_inj, Prod.mk.injEq] at h
      obtain ⟨rfl, rfl⟩ := h
      exact ⟨rfl, rfl, rfl⟩
    | cons x xs =>
      have hsome : (T.obj x).isSome := r.rep.owned x (by simp [hx])
      obtain ⟨f, hobj⟩ := Option.isSome_iff_exists.mp hsome
      obtain ⟨t, ht, hcast, rpop, hfree⟩ := r.pop_flow hx hobj
      simp only [popLoop, ht, Option.bind_eq_bind, Option.bind_some, hcast] at h
      obtain ⟨keep, -, h⟩ := Option.bind_eq_some_iff.mp h
      obtain ⟨t₁, acts₁, T₁, hturn, r₁, hexp, hone, hnone⟩ :=
        turn_counted (s := { s with flowTable := t }) rpop hsome hfree f keep
      have h : (popLoop active fuel { s with flowTable := t₁ }).bind
          (fun r ↦ some (r.1, acts₁ ++ r.2)) = some (s', acts) := by
        cases keep <;> simp only [if_true, Bool.false_eq_true, if_false] at hturn h <;>
          rwa [hturn] at h
      obtain ⟨⟨s₂, rest⟩, hrest, h⟩ := Option.bind_eq_some_iff.mp h
      obtain ⟨rfl, rfl⟩ := Prod.mk.inj (Option.some.inj h)
      obtain ⟨hturns, hnew, hout⟩ := ih r₁ hrest
      rw [List.countP_append, List.countP_append, hturns, hnew, hone, hnone, hexp, List.length_cons]
      exact ⟨Nat.add_comm 1 _, rfl, hout⟩

/-- The handling of the timeouts makes a turn for each flow that has expired when the clock has gone
on. -/
theorem checkTimeout_turns (h : Sound m s T) (hf : T.held.length < fuel) {now : Int}
    (hcall : s.checkTimeout fuel now = some (s', acts)) :
    acts.countP Action.isTurn = (T.advance slots (elapsed s.lastTs now)).expired.length ∧
      acts.countP Action.isNewFlow = 0 ∧ s'.output = s.output := by
  rw [checkTimeout] at hcall
  rw [elapsed]
  split_ifs at hcall ⊢ with hk
  · obtain ⟨t, ht, r⟩ := h.refines.prog slots_pos hf (now - s.lastTs).toNat
    rw [ht] at hcall
    exact popLoop_turns (s := { s with flowTable := t }) r hcall
  · obtain ⟨rfl, rfl⟩ := Prod.mk.inj (Option.some.inj hcall)
    refine ⟨?_, rfl, rfl⟩
    rw [Table.advance, h.settled]
    rfl

/-- A new flow is put once and reported once. -/
theorem openFlow_turns {al : Allocator} {p : Property} {src dst : Bytes} {x : Ptr × Flow}
    (hout : s.output = true) (h : s.openFlow al p src dst = some (s', x, acts)) :
    acts.countP Action.isTurn = 1 ∧ acts.countP Action.isNewFlow = 1 := by
  obtain ⟨heap, -, h⟩ := Option.bind_eq_some_iff.mp h
  obtain ⟨⟨s₁, acts₁⟩, hput, h⟩ := Option.bind_eq_some_iff.mp h
  obtain ⟨⟨t, rc⟩, -, hput⟩ := Option.bind_eq_some_iff.mp hput
  obtain ⟨rfl, rfl⟩ := Prod.mk.inj (Option.some.inj hput)
  obtain ⟨-, hrest⟩ := Prod.mk.inj (Option.some.inj h)
  obtain ⟨-, rfl⟩ := Prod.mk.inj hrest
  simp only [hout, report, if_true]
  exact ⟨rfl, rfl⟩

/-- Between the timeouts and the update, a flow is opened or not. -/
theorem recv_acts {al : Allocator} {i : DnsDB × Property} (hout : s.output = true)
    (hrecv : recv al fuel s i = some (s', acts)) :
    ∃ s₁ due opened x f, s.checkTimeout fuel i.2.tvSec = some (s₁, due) ∧
      acts = due ++ opened ++ [.update x f i.2] ∧
      (s₁.output = s.output →
        opened.countP Action.isTurn = opened.countP Action.isNewFlow) := by
  obtain ⟨⟨s₁, due⟩, hdue, hrecv⟩ := Option.bind_eq_some_iff.mp hrecv
  obtain ⟨⟨src, dst⟩, -, hrecv⟩ := Option.bind_eq_some_iff.mp hrecv
  obtain ⟨node, -, hrecv⟩ := Option.bind_eq_some_iff.mp hrecv
  obtain ⟨flow, -, hrecv⟩ := Option.bind_eq_some_iff.mp hrecv
  cases flow with
  | some flow =>
    obtain ⟨_, hflow, hrecv⟩ := Option.bind_eq_some_iff.mp hrecv
    obtain rfl := Option.some.inj hflow
    obtain ⟨heap, -, hrecv⟩ := Option.bind_eq_some_iff.mp hrecv
    obtain ⟨-, rfl⟩ := Prod.mk.inj (Option.some.inj hrecv)
    exact ⟨s₁, due, [], flow.1, flow.2, hdue, rfl, fun _ ↦ rfl⟩
  | none =>
    obtain ⟨⟨s₂, x, opened⟩, hopen, hrecv⟩ := Option.bind_eq_some_iff.mp hrecv
    obtain ⟨heap, -, hrecv⟩ := Option.bind_eq_some_iff.mp hrecv
    obtain ⟨-, rfl⟩ := Prod.mk.inj (Option.some.inj hrecv)
    refine ⟨s₁, due, opened, x.1, x.2, hdue, rfl, ?_⟩
    intro hsame
    obtain ⟨hput, hreport⟩ :=
      openFlow_turns (s := { s₁ with lastTs := i.2.tvSec }) (hsame.trans hout) hopen
    rw [hput, hreport]

/-- **The turns of a call** are those for the flows that its time makes come due. -/
theorem recv_turns (h : Sound m s T) (hf : T.held.length < fuel) (hout : s.output = true)
    {al : Allocator} {i : DnsDB × Property} (hrecv : recv al fuel s i = some (s', acts)) :
    turns acts = (T.advance slots (elapsed s.lastTs i.2.tvSec)).expired.length := by
  obtain ⟨s₁, due, opened, x, f, hdue, rfl, hopened⟩ := recv_acts hout hrecv
  obtain ⟨hturns, hnew, hsame⟩ := checkTimeout_turns h hf hdue
  simp only [turns, List.countP_append, hturns, hnew, hopened hsame]
  simp [Action.isTurn, Action.isNewFlow]

/-! ## Runs -/

/-- The flows of the table exist. -/
theorem Sound.held_le_flows (h : Sound m s T) : T.held.length ≤ s.flows := by
  have hnodup : (T.nodes.map Ptr.node).Nodup :=
    (List.nodup_append.mp h.nodup).1.map Ptr.node_injective
  have hsub : (T.nodes.map Ptr.node).toFinset ⊆
      s.flowTable.heap.live.filter fun x ↦ x.isNode := by
    intro x hx
    obtain ⟨y, hy, rfl⟩ := List.mem_map.mp (List.mem_toFinset.mp hx)
    have hlive := (h.refines.rep.node_live y).mpr
      (h.refines.rep.owned y (List.mem_append_left _ hy))
    exact Finset.mem_filter.mpr ⟨hlive, rfl⟩
  have hcard := Finset.card_le_card hsub
  rwa [List.toFinset_card_of_nodup hnodup, List.length_map, Table.nodes, List.length_map] at hcard

/-- The handler can take the packets `ins`, and its flows have waited for `n` seconds. -/
structure Waiting (m fuel : Nat) (ins : List (DnsDB × Property)) (s : FlowHandler) (n : Nat) :
    Prop where
  table : ∃ T, Sound m s T ∧ T.waited = n ∧ T.held.length + ins.length ≤ fuel ∧
    T.clock + timeSpan s.lastTs ins + slots ≤ 2 ^ 64
  output : s.output = true
  addrs : ∀ i ∈ ins, i.2.HasAddrs

/-- One packet. -/
theorem Waiting.recv {ins : List (DnsDB × Property)} {n : Nat} {i : DnsDB × Property}
    (h : Waiting m fuel (i :: ins) s n) (al : Allocator) :
    ∃ s' acts n', FlowHandler.recv al fuel s i = some (s', acts) ∧ Waiting m fuel ins s' n' ∧
      timeout * turns acts + n' ≤ grant s i + n := by
  obtain ⟨⟨T, hsound, rfl, hlen, hclock⟩, hout, haddr⟩ := h
  rw [List.length_cons] at hlen
  rw [timeSpan] at hclock
  have hf : T.held.length < fuel := by omega
  obtain ⟨s', acts, src, dst, accepted, T', hrecv, -, hacc, -, -, hsound', hout', hts⟩ :=
    recv_eq hsound al i.1 (haddr i (List.mem_cons_self ..)) hf
  have hage : (T.age i.2.tvSec (elapsed s.lastTs i.2.tvSec)).held.length ≤ T.held.length :=
    Table.settle_held_length hsound.advance_length.le
  have hheld := hacc.held_length
  refine ⟨s', acts, T'.waited, hrecv, ⟨⟨T', hsound', rfl, by omega, ?_⟩, hout'.trans hout,
    fun j hj ↦ haddr j (List.mem_cons_of_mem _ hj)⟩, ?_⟩
  · rw [hacc.clock, Table.age_clock, hts]
    omega
  · rw [recv_turns (i := i) hsound hf hout hrecv, waited_accepts hacc, grant]
    have hwait := waited_age hsound i.2.tvSec (k := elapsed s.lastTs i.2.tvSec) (by omega)
    have hflows := Nat.mul_le_mul_left (elapsed s.lastTs i.2.tvSec) hsound.held_le_flows
    omega

/-- **The loop makes one turn in `TIMEOUT` seconds of a flow.**  Whatever the packets and their
times, as long as the clock of the table does not wrap: over the whole run, the turns of the loop
take no more than the time that the packets bring, counted once for each flow there is when it
passes. -/
theorem turns_amortized (al : Allocator) (fuel : Nat) (ins : List (DnsDB × Property))
    (haddr : ∀ i ∈ ins, i.2.HasAddrs) (hfuel : ins.length ≤ fuel)
    (hclock : timeSpan 0 ins + slots ≤ 2 ^ 64) :
    ∃ s outs, Machine.run (recv al fuel) (init true) ins = some (s, outs) ∧
      timeout * (outs.map turns).sum ≤ credits (recv al fuel) grant (init true) ins := by
  have hbegin : Waiting (LRUHash.init slots 0 : LRUHash Flow).bucketSize fuel ins (init true) 0 :=
    ⟨⟨Table.empty, .init true, rfl, by simpa [Table.empty] using hfuel,
      by simpa [Table.empty, init] using hclock⟩, rfl, haddr⟩
  exact run_amortized (fun s i is n h ↦ h.recv al) ins (init true) 0 hbegin

theorem turns_amortized_sample :
    ∃ s outs, Machine.run (recv .above 20) (init true) sampleCalls = some (s, outs) ∧
      timeout * (outs.map turns).sum ≤
        credits (recv .above 20) grant (init true) sampleCalls :=
  turns_amortized .above 20 sampleCalls (by decide) (by decide) (by decide)

end DnsHive
