import DnsHive.Flow.Accounting

/-!
# The ledger of the handler

The machine of a session follows one flow, and that a session has no more than one at a time rests
on the hash.  Here all flows are accounted for together, and nothing is assumed of the hash: a
`Ledger` has an open block for every flow that has been allocated and not deleted, and the blocks of
those that have been reported to end.

* `packets_partitioned` — at the end of the handler, the packets are those of the closed blocks.
* `packets_conserved` — so what the reports of the ends count is what came.
-/

set_option autoImplicit false

namespace DnsHive

open Swarm FlowHandler

/-- The flow that is reported as new, if it is such a report. -/
def Action.begun : Action → Option (Ptr × Flow)
  | newFlow x f => some (x, f)
  | _ => none

/-- The flow that is reported to have ended, if it is such a report. -/
def Action.ended : Action → Option (Ptr × Flow)
  | expireFlow x f => some (x, f)
  | _ => none

namespace Block

/-- What the report of the new flow is about. -/
def beginning (b : Block) : Ptr × Flow := (.node b.node, b.opened)

/-- What the report of its end is about. -/
def ending (b : Block) : Ptr × Flow := (.node b.node, b.total)

/-- All packets are of one session, and the names are those known at the first one. -/
structure Whole (b : Block) : Prop where
  named : hosts b.first.1 b.first.2 = some (b.src, b.dst)
  label : ∀ i ∈ b.inputs, i.2.ssnLabel = b.first.2.ssnLabel
  hash : ∀ i ∈ b.inputs, i.2.hashValue = b.first.2.hashValue

theorem total_key (b : Block) : b.total.key = b.first.2.ssnLabel := by
  rw [b.total_eq]
  rfl

theorem total_hash (b : Block) : b.total.hash = b.first.2.hashValue := by
  rw [b.total_eq]
  rfl

end Block

/-! ## Counting -/

/-- The packets `ins` are in these blocks, and the actions report these blocks as new. -/
structure Counted (blocks : List Block) (ins : List (DnsDB × Property)) (acts : List Action) :
    Prop where
  inputs : (blocks.flatMap Block.inputs).Perm ins
  begun : (acts.filterMap Action.begun).Perm (blocks.map Block.beginning)
  whole : ∀ b ∈ blocks, b.Whole
  /-- In a block the packets are in the order in which they came. -/
  sublist : ∀ b ∈ blocks, b.inputs.Sublist ins

namespace Counted

variable {blocks blocks' : List Block} {ins : List (DnsDB × Property)} {acts o : List Action}
  {b : Block} {i : DnsDB × Property}

theorem nil : Counted [] [] [] := ⟨.rfl, .rfl, by simp, by simp⟩

theorem perm (h : Counted blocks ins acts) (hperm : blocks'.Perm blocks) :
    Counted blocks' ins acts where
  inputs := (hperm.flatMap_right _).trans h.inputs
  begun := h.begun.trans (hperm.map _).symm
  whole b hb := h.whole b (hperm.mem_iff.mp hb)
  sublist b hb := h.sublist b (hperm.mem_iff.mp hb)

/-- Actions that report no new flow. -/
theorem quiet (h : Counted blocks ins acts) (ho : o.filterMap Action.begun = []) :
    Counted blocks ins (acts ++ o) :=
  ⟨h.inputs, by rw [List.filterMap_append, ho, List.append_nil]; exact h.begun, h.whole, h.sublist⟩

/-- One more packet in a block. -/
theorem push (h : Counted (b :: blocks) ins acts) (hkey : b.total.key = i.2.ssnLabel)
    (hhash : b.total.hash = i.2.hashValue) (ho : o.filterMap Action.begun = []) :
    Counted (b.push i :: blocks) (ins ++ [i]) (acts ++ o) := by
  obtain ⟨hinputs, hbegun, hwhole, hsub⟩ := h.quiet ho
  obtain ⟨hb, hblocks⟩ := List.forall_mem_cons.mp hwhole
  obtain ⟨hbsub, hsub⟩ := List.forall_mem_cons.mp hsub
  refine ⟨?_, hbegun, List.forall_mem_cons.mpr ⟨⟨hb.named, ?_, ?_⟩, hblocks⟩,
    List.forall_mem_cons.mpr ⟨?_, fun b' hb' ↦ (hsub b' hb').trans (List.sublist_append_left ..)⟩⟩
  · have hswap : ((b.push i :: blocks).flatMap Block.inputs).Perm
        ((b :: blocks).flatMap Block.inputs ++ [i]) := by
      rw [List.flatMap_cons, List.flatMap_cons, b.push_inputs, List.append_assoc, List.append_assoc]
      exact List.perm_append_comm.append_left _
    exact hswap.trans (hinputs.append_right _)
  · rw [b.push_inputs]
    exact List.forall_mem_append.mpr
      ⟨hb.label, List.forall_mem_singleton.mpr (hkey.symm.trans b.total_key)⟩
  · rw [b.push_inputs]
    exact List.forall_mem_append.mpr
      ⟨hb.hash, List.forall_mem_singleton.mpr (hhash.symm.trans b.total_hash)⟩
  · rw [b.push_inputs]
    exact hbsub.append_right _

/-- One more block. -/
theorem openBlock (h : Counted blocks ins acts) {x : Addr} {src dst : Bytes}
    (hhosts : hosts i.1 i.2 = some (src, dst))
    (ho : o.filterMap Action.begun = [(.node x, .new i.2 src dst)]) :
    Counted (⟨x, src, dst, i, []⟩ :: blocks) (ins ++ [i]) (acts ++ o) := by
  refine ⟨?_, ?_, List.forall_mem_cons.mpr ⟨⟨hhosts, ?_, ?_⟩, h.whole⟩,
    List.forall_mem_cons.mpr ⟨List.sublist_append_right ..,
      fun b hb ↦ (h.sublist b hb).trans (List.sublist_append_left ..)⟩⟩
  · exact (h.inputs.cons i).trans (List.perm_append_singleton i ins).symm
  · rw [List.filterMap_append, ho]
    exact (List.perm_append_singleton _ _).trans (h.begun.cons _)
  · simp [Block.inputs]
  · simp [Block.inputs]

end Counted

/-! ## The ledger -/

/-- The flows that the table has, be they held or expired. -/
def Table.owned (T : Table Flow) : List Addr := T.nodes ++ T.expired

/-- The flows that exist are those of the table, and `g` has the open block of each; every packet is
in an open block or a closed one. -/
structure Ledger (T : Table Flow) (g : Addr → Block) (ins : List (DnsDB × Property))
    (acts : List Action) (closed : List Block) : Prop where
  obj (x : Addr) : T.obj x = if x ∈ T.owned then some (g x).total else none
  node : ∀ x ∈ T.owned, (g x).node = x
  counted : Counted (closed ++ T.owned.map g) ins acts
  ended : acts.filterMap Action.ended = closed.map Block.ending

namespace Ledger

variable {T T' : Table Flow} {g : Addr → Block} {ins : List (DnsDB × Property)}
  {acts o : List Action} {closed : List Block} {keep : Flow → Bool}

theorem empty (g : Addr → Block) : Ledger Table.empty g [] [] [] :=
  ⟨fun _ ↦ rfl, by simp [Table.owned, Table.empty, Table.nodes], .nil, rfl⟩

/-- Only the flows matter, and not where in the table they are. -/
theorem reorder (h : Ledger T g ins acts closed) (hobj : T'.obj = T.obj)
    (hperm : T'.owned.Perm T.owned) : Ledger T' g ins acts closed where
  obj x := by simp only [hobj, h.obj, hperm.mem_iff]
  node x hx := h.node x (hperm.mem_iff.mp hx)
  counted := h.counted.perm ((hperm.map g).append_left closed)
  ended := h.ended

/-! ### Settling -/

/-- The expired flows that are dropped. -/
def dropped (keep : Flow → Bool) (T : Table Flow) : List Addr :=
  T.expired.filter fun x ↦ !T.kept keep x

theorem owned_settle (keep : Flow → Bool) (T : Table Flow) :
    T.owned.Perm (dropped keep T ++ (T.settle keep).owned) := by
  have hsettle : (T.settle keep).owned = (T.expired.filter (T.kept keep)).reverse ++ T.nodes := by
    rw [Table.owned, Table.settle_nodes]
    exact List.append_nil _
  rw [hsettle, ← List.append_assoc]
  have hexpired : (dropped keep T ++ (T.expired.filter (T.kept keep)).reverse).Perm T.expired :=
    ((List.reverse_perm _).append_left _).trans
      (List.perm_append_comm.trans (List.filter_append_perm ..))
  exact List.perm_append_comm.trans (hexpired.symm.append_right _)

theorem mem_owned_settle (hnd : T.owned.Nodup) {x : Addr} :
    x ∈ (T.settle keep).owned ↔ x ∈ T.owned ∧ ¬ (x ∈ T.expired ∧ ¬ T.kept keep x) := by
  have hperm := owned_settle keep T
  have hnd' := List.nodup_append.mp (hperm.nodup_iff.mp hnd)
  have hdropped : x ∈ dropped keep T ↔ x ∈ T.expired ∧ ¬ T.kept keep x := by
    simp [dropped]
  rw [hperm.mem_iff, List.mem_append, ← hdropped]
  constructor
  · exact fun hx ↦ ⟨.inr hx, fun hx' ↦ hnd'.2.2 x hx' x hx rfl⟩
  · rintro ⟨hx | hx, hne⟩
    · exact absurd hx hne
    · exact hx

/-- Settling reports the end of each flow that is dropped. -/
theorem ended_verdicts (xs : List Addr)
    (h : ∀ x ∈ xs, T.obj x = some (g x).total ∧ (g x).node = x) :
    (xs.flatMap (T.verdict true keep)).filterMap Action.ended =
      ((xs.filter fun x ↦ !T.kept keep x).map g).map Block.ending := by
  induction xs with
  | nil => rfl
  | cons x xs ih =>
    obtain ⟨⟨hobj, hnode⟩, hxs⟩ := List.forall_mem_cons.mp h
    rw [List.flatMap_cons, List.filterMap_append, ih hxs]
    cases hk : keep (g x).total with
    | true => simp [Table.verdict, Table.kept, hobj, hk]
    | false =>
      simp [Table.verdict, Table.kept, hobj, hk, closing, report, Action.ended, Block.ending, hnode]

/-- Settling reports no flow as new. -/
theorem begun_settle (output : Bool) (T : Table Flow) :
    (T.settleActions output keep).filterMap Action.begun = [] := by
  refine List.filterMap_eq_nil_iff.mpr fun a ha ↦ ?_
  have hquiet := (settleActions_quiet ha).2
  cases a with
  | newFlow x f => exact absurd rfl (hquiet x f)
  | _ => rfl

/-- **Settling** closes the blocks of the flows that are dropped. -/
theorem settle (h : Ledger T g ins acts closed) (keep : Flow → Bool) (hnd : T.owned.Nodup) :
    Ledger (T.settle keep) g ins (acts ++ T.settleActions true keep)
      (closed ++ (dropped keep T).map g) := by
  refine ⟨fun x ↦ ?_, fun x hx ↦ h.node x ((mem_owned_settle hnd).mp hx).1, ?_, ?_⟩
  · have hobj : (T.settle keep).obj x =
        if x ∈ T.expired ∧ ¬ T.kept keep x then none else T.obj x := rfl
    rw [hobj, h.obj]
    by_cases hx : x ∈ T.expired ∧ ¬ T.kept keep x
    · rw [if_pos hx, if_neg fun hmem ↦ ((mem_owned_settle hnd).mp hmem).2 hx]
    · rw [if_neg hx]
      exact if_congr ⟨fun hmem ↦ (mem_owned_settle hnd).mpr ⟨hmem, hx⟩,
        fun hmem ↦ ((mem_owned_settle hnd).mp hmem).1⟩ rfl rfl
  · refine (h.counted.perm ?_).quiet (begun_settle true T)
    rw [List.append_assoc, ← List.map_append]
    exact ((owned_settle keep T).symm.map g).append_left closed
  · have hexpired : ∀ x ∈ T.expired, T.obj x = some (g x).total ∧ (g x).node = x := fun x hx ↦
      have hmem : x ∈ T.owned := List.mem_append_right _ hx
      ⟨by rw [h.obj, if_pos hmem], h.node x hmem⟩
    rw [List.filterMap_append, h.ended, Table.settleActions, ended_verdicts _ hexpired,
      List.map_append]
    rfl

/-! ### Accepting -/

/-- A packet that joins a flow. -/
theorem joined (h : Ledger T g ins acts closed) (hnd : T.owned.Nodup) {x : Addr} {f : Flow}
    {db : DnsDB} {p : Property} (hget : T.get p.hashValue p.ssnLabel = some x)
    (hobj : T.obj x = some f) :
    Ledger (T.new x (f.update p)) (Function.update g x ((g x).push (db, p))) (ins ++ [(db, p)])
      (acts ++ [.update (.node x) f p]) closed := by
  obtain ⟨hnode, f', hobj', hhash, hkey⟩ := Table.obj_of_get hget
  obtain rfl : f' = f := Option.some.inj (hobj'.symm.trans hobj)
  have hx : x ∈ T.owned := List.mem_append_left _ hnode
  have htotal : (g x).total = f' := by simpa [h.obj, hx] using hobj
  have herase : (T.owned.erase x).map (Function.update g x ((g x).push (db, p))) =
      (T.owned.erase x).map g :=
    List.map_congr_left fun y hy ↦ Function.update_of_ne ((hnd.mem_erase_iff.mp hy).1) _ _
  have hblocks {k : Addr → Block} : (closed ++ T.owned.map k).Perm
      (k x :: (closed ++ (T.owned.erase x).map k)) :=
    (((List.perm_cons_erase hx).map k).append_left closed).trans List.perm_middle
  refine ⟨fun y ↦ ?_, fun y hy ↦ ?_, ?_, ?_⟩
  · show Function.update T.obj x (some (f'.update p)) y = if y ∈ T.owned then _ else _
    by_cases hyx : y = x
    · subst hyx
      rw [Function.update_self, Function.update_self, if_pos hx, Block.push_total, htotal]
    · rw [Function.update_of_ne hyx, Function.update_of_ne hyx, h.obj]
  · by_cases hyx : y = x
    · subst hyx
      rw [Function.update_self]
      exact h.node y hx
    · rw [Function.update_of_ne hyx]
      exact h.node y hy
  · have hpush := (h.counted.perm hblocks.symm).push (i := (db, p)) (o := [.update (.node x) f' p])
      (by rw [htotal]; exact hkey) (by rw [htotal]; exact hhash) rfl
    refine hpush.perm (hblocks.trans ?_)
    rw [herase, Function.update_self]
  · rw [List.filterMap_append, h.ended]
    exact List.append_nil _

/-- A packet that opens one. -/
theorem opened (h : Ledger T g ins acts closed) {x : Addr} {db : DnsDB} {p : Property}
    {src dst : Bytes} (hhosts : hosts db p = some (src, dst)) (hobj : T.obj x = none) :
    Ledger (T.opened x ((Flow.new p src dst).update p))
      (Function.update g x ⟨x, src, dst, (db, p), []⟩) (ins ++ [(db, p)])
      (acts ++ (report true (.newFlow (.node x) (.new p src dst)) ++
        [.update (.node x) (.new p src dst) p])) closed := by
  have hx : x ∉ T.owned := fun hx ↦ by simp [h.obj, hx] at hobj
  have howned : (T.opened x ((Flow.new p src dst).update p)).owned = x :: T.owned := rfl
  refine ⟨fun y ↦ ?_, fun y hy ↦ ?_, ?_, ?_⟩
  · rw [howned]
    show Function.update T.obj x _ y = _
    by_cases hyx : y = x
    · subst hyx
      rw [Function.update_self, Function.update_self, if_pos (List.mem_cons_self ..)]
      rfl
    · rw [Function.update_of_ne hyx, Function.update_of_ne hyx, h.obj]
      exact if_congr (by simp [hyx]) rfl rfl
  · by_cases hyx : y = x
    · subst hyx
      rw [Function.update_self]
    · rw [Function.update_of_ne hyx]
      exact h.node y ((List.mem_cons.mp (howned ▸ hy)).resolve_left hyx)
  · have hmap : T.owned.map (Function.update g x ⟨x, src, dst, (db, p), []⟩) = T.owned.map g :=
      List.map_congr_left fun y hy ↦ Function.update_of_ne (fun e : y = x ↦ hx (e ▸ hy)) _ _
    rw [howned, List.map_cons, hmap, Function.update_self]
    exact (h.counted.openBlock hhosts rfl).perm List.perm_middle
  · rw [List.filterMap_append, h.ended]
    exact List.append_nil _

theorem accepts (h : Ledger T g ins acts closed) (hnd : T.owned.Nodup) {db : DnsDB} {p : Property}
    {src dst : Bytes} (hhosts : hosts db p = some (src, dst))
    (hacc : Accepts true p src dst T o T') :
    ∃ g', Ledger T' g' (ins ++ [(db, p)]) (acts ++ o) closed := by
  cases hacc with
  | joined hget hobj => exact ⟨_, h.joined hnd hget hobj⟩
  | opened _ hobj => exact ⟨_, h.opened hhosts hobj⟩

/-- The bookkeeping of the table is not in the ledger. -/
theorem of_isEvent (h : Ledger T g ins (acts ++ o.filter Action.isEvent) closed) :
    Ledger T g ins (acts ++ o) closed := by
  have hbegun : (o.filter Action.isEvent).filterMap Action.begun = o.filterMap Action.begun := by
    rw [List.filterMap_filter]
    exact List.filterMap_congr fun a _ ↦ by cases a <;> rfl
  have hended : (o.filter Action.isEvent).filterMap Action.ended = o.filterMap Action.ended := by
    rw [List.filterMap_filter]
    exact List.filterMap_congr fun a _ ↦ by cases a <;> rfl
  refine ⟨h.obj, h.node, ⟨h.counted.inputs, ?_, h.counted.whole, h.counted.sublist⟩, ?_⟩
  · have hperm := h.counted.begun
    rwa [List.filterMap_append, hbegun, ← List.filterMap_append] at hperm
  · have heq := h.ended
    rwa [List.filterMap_append, hended, ← List.filterMap_append] at heq

end Ledger

/-! ## Runs -/

/-- The handler stands at this table, with a ledger of what it has done for the packets `ins`. -/
structure Booked (s : FlowHandler) (ins : List (DnsDB × Property)) (acts : List Action)
    (T : Table Flow) (g : Addr → Block) (closed : List Block) : Prop where
  sound : Sound (LRUHash.init slots 0 : LRUHash Flow).bucketSize s T
  output : s.output = true
  held_length : T.held.length ≤ ins.length
  ledger : Ledger T g ins acts closed

variable {al : Allocator} {fuel : Nat} {s : FlowHandler} {ins : List (DnsDB × Property)}
  {acts : List Action} {T : Table Flow} {g : Addr → Block} {closed : List Block}

namespace Booked

/-- One packet. -/
theorem recv (h : Booked s ins acts T g closed) (al : Allocator) {i : DnsDB × Property}
    (hp : i.2.HasAddrs) (hf : ins.length < fuel) :
    ∃ s' o T' g' closed', FlowHandler.recv al fuel s i = some (s', o) ∧
      Booked s' (ins ++ [i]) (acts ++ o) T' g' closed' := by
  obtain ⟨hsound, hout, hlen, hledger⟩ := h
  obtain ⟨s', o, src, dst, accepted, T', hrecv, hhosts, hacc, hev, -, hsound', hout', -⟩ :=
    recv_eq hsound al i.1 hp (hlen.trans_lt hf)
  rw [hout] at hacc hev hout'
  have hnd := Table.advance_nodup (n := slots) (k := elapsed s.lastTs i.2.tvSec) hsound.nodup
  have haged := (hledger.reorder (Table.advance_obj _) (Table.advance_perm _)).settle
    (activeAt i.2.tvSec) hnd
  have hnd' : (T.age i.2.tvSec (elapsed s.lastTs i.2.tvSec)).owned.Nodup :=
    (List.nodup_append.mp ((Ledger.owned_settle _ _).nodup_iff.mp hnd)).2.1
  obtain ⟨g', hledger'⟩ := haged.accepts hnd' hhosts hacc
  rw [List.append_assoc] at hledger'
  refine ⟨s', o, T', g', _, hrecv, hsound', hout', ?_, Ledger.of_isEvent (hev ▸ hledger')⟩
  have hheld : (T.age i.2.tvSec (elapsed s.lastTs i.2.tvSec)).held.length ≤ T.held.length :=
    Table.settle_held_length hsound.advance_length.le
  rw [List.length_append, List.length_singleton]
  exact hacc.held_length.trans (Nat.succ_le_succ (hheld.trans hlen))

/-- **Every run has a ledger.** -/
theorem of_run (al : Allocator) {ins : List (DnsDB × Property)} (haddr : ∀ i ∈ ins, i.2.HasAddrs)
    (hfuel : ins.length ≤ fuel) :
    ∃ s outs T g closed, Machine.run (FlowHandler.recv al fuel) (init true) ins = some (s, outs) ∧
      Booked s ins outs.flatten T g closed := by
  have hstep : ∀ is i (outs : List (List Action)) s₁, is ++ [i] <+: ins →
      (∃ T g closed, Booked s₁ is outs.flatten T g closed) →
      ∃ s₂ o, FlowHandler.recv al fuel s₁ i = some (s₂, o) ∧
        ∃ T g closed, Booked s₂ (is ++ [i]) (outs ++ [o]).flatten T g closed := by
    rintro is i outs s₁ hpre ⟨T, g, closed, h⟩
    have hlt : is.length + 1 ≤ ins.length := by simpa using hpre.length_le
    obtain ⟨s₂, o, T', g', closed', hrecv, h'⟩ :=
      h.recv al (haddr i (hpre.subset (by simp))) (show is.length < fuel by omega)
    exact ⟨s₂, o, hrecv, T', g', closed', by simpa using h'⟩
  obtain ⟨s, outs, hrun, T, g, closed, h⟩ :=
    Machine.run_history (P := fun is outs s ↦ ∃ T g closed,
      Booked s is outs.flatten T g closed)
      ⟨Table.empty, fun x ↦ ⟨x, [], [], (DnsDB.init, samplePacket [] 0), []⟩, [], .init true, rfl,
        Nat.zero_le _, .empty _⟩ hstep ins List.prefix_rfl
  exact ⟨s, outs, T, g, closed, hrun, h⟩

/-- **The end of the handler** closes all blocks, and no flow is left. -/
theorem destroy (h : Booked s ins acts T g closed) (hf : ins.length < fuel) :
    ∃ s' o T' blocks, FlowHandler.destroy fuel s = some (s', o) ∧
      Refines slots (LRUHash.init slots 0 : LRUHash Flow).bucketSize s'.flowTable T' ∧
      T'.owned = [] ∧ Ledger T' g ins (acts ++ o) blocks := by
  obtain ⟨s', o, T', hdestroy, r, hheld, hobj, hperm, hev⟩ :=
    destroy_eq h.sound (h.held_length.trans_lt hf)
  have howned : T'.owned.Perm T.owned := by
    rw [Table.owned, Table.owned, Table.nodes, hheld, h.sound.settled, List.append_nil]
    exact hperm
  have hledger := (h.ledger.reorder hobj howned).settle (fun _ ↦ false)
    (howned.nodup_iff.mpr h.sound.nodup)
  rw [h.output] at hev
  refine ⟨s', o, _, _, hdestroy, r, ?_, Ledger.of_isEvent (hev ▸ hledger)⟩
  have hnone : T'.expired.filter (T'.kept fun _ ↦ false) = [] :=
    List.filter_eq_nil_iff.mpr fun x _ ↦ by cases hx : T'.obj x <;> simp [Table.kept, hx]
  rw [Table.owned, Table.settle_nodes, hnone, Table.nodes, hheld]
  rfl

end Booked

/-- The accounts at the end, when no flow is left. -/
theorem booked_of_lifetime (al : Allocator) {fuel : Nat} {ins : List (DnsDB × Property)}
    (haddr : ∀ i ∈ ins, i.2.HasAddrs) (hfuel : ins.length < fuel) :
    ∃ trace blocks, lifetime al fuel true ins = some trace ∧ Counted blocks ins trace ∧
      trace.filterMap Action.ended = blocks.map Block.ending := by
  obtain ⟨s, outs, T, g, closed, hrun, h⟩ := Booked.of_run al haddr hfuel.le
  obtain ⟨s', o, T', blocks, hdestroy, -, hnone, hledger⟩ := h.destroy hfuel
  have hcounted := hledger.counted
  rw [hnone, List.map_nil, List.append_nil] at hcounted
  exact ⟨outs.flatten ++ o, blocks, by simp [lifetime, hrun, hdestroy], hcounted, hledger.ended⟩

/-- **Every packet is in one flow that is reported to end.**  For any packets at any times, and any
hashes: cut into the blocks of the flows that were reported to end, the packets are all there once;
those of a block are of one session and in their order, and there is one report of each flow as
new. -/
theorem packets_partitioned (al : Allocator) (fuel : Nat) (ins : List (DnsDB × Property))
    (haddr : ∀ i ∈ ins, i.2.HasAddrs) (hfuel : ins.length < fuel) :
    ∃ trace, ∃ blocks : List Block, lifetime al fuel true ins = some trace ∧
      (blocks.flatMap Block.inputs).Perm ins ∧ (∀ b ∈ blocks, b.inputs.Sublist ins ∧ b.Whole) ∧
      (trace.filterMap Action.begun).Perm (blocks.map Block.beginning) ∧
      trace.filterMap Action.ended = blocks.map Block.ending := by
  obtain ⟨trace, blocks, hlife, hcounted, hended⟩ := booked_of_lifetime al haddr hfuel
  exact ⟨trace, blocks, hlife, hcounted.inputs,
    fun b hb ↦ ⟨hcounted.sublist b hb, hcounted.whole b hb⟩, hcounted.begun, hended⟩

theorem packets_partitioned_sample :
    ∃ trace, ∃ blocks : List Block, lifetime .above 20 true sampleCalls = some trace ∧
      (blocks.flatMap Block.inputs).Perm sampleCalls ∧
      (∀ b ∈ blocks, b.inputs.Sublist sampleCalls ∧ b.Whole) ∧
      (trace.filterMap Action.begun).Perm (blocks.map Block.beginning) ∧
      trace.filterMap Action.ended = blocks.map Block.ending :=
  packets_partitioned .above 20 _ (by decide) (by decide)

/-! ## What the reports add up to -/

/-- `a` is `b`, unless a counter has wrapped on the way. -/
structure Wraps (a b : Nat) : Prop where
  mod : a % 2 ^ 64 = b % 2 ^ 64
  eq_of_lt : b < 2 ^ 64 → a = b

namespace Wraps

theorem sizeT (n : Nat) : Wraps (sizeT n) n := ⟨Nat.mod_mod _ _, Nat.mod_eq_of_lt⟩

theorem add {a b a' b' : Nat} (h : Wraps a b) (h' : Wraps a' b') : Wraps (a + a') (b + b') where
  mod := by rw [Nat.add_mod, h.mod, h'.mod, ← Nat.add_mod]
  eq_of_lt hlt := by rw [h.eq_of_lt (by omega), h'.eq_of_lt (by omega)]

theorem sum {α : Type} {f k : α → Nat} {l : List α} (h : ∀ a ∈ l, Wraps (f a) (k a)) :
    Wraps (l.map f).sum (l.map k).sum := by
  induction l with
  | nil => exact ⟨rfl, fun _ ↦ rfl⟩
  | cons a l ih =>
    obtain ⟨ha, hl⟩ := List.forall_mem_cons.mp h
    simpa using ha.add (ih hl)

end Wraps

theorem bytes_append (is js : List (DnsDB × Property)) :
    bytes (is ++ js) = bytes is + bytes js := by
  simp [bytes]

theorem bytes_perm {is js : List (DnsDB × Property)} (h : is.Perm js) : bytes is = bytes js :=
  (h.map _).sum_nat

theorem bytes_flatMap {α : Type} (f : α → List (DnsDB × Property)) (l : List α) :
    bytes (l.flatMap f) = (l.map fun a ↦ bytes (f a)).sum := by
  induction l with
  | nil => rfl
  | cons a l ih => rw [List.flatMap_cons, bytes_append, ih, List.map_cons, List.sum_cons]

namespace Block

variable (b : Block)

/-- The packets go one way or the other. -/
theorem client_server : (b.client ++ b.server).Perm b.inputs := by
  have hserver : b.server = b.inputs.filter fun i ↦ !decide (i.2.dir = b.first.2.dir) :=
    List.filter_congr fun i _ ↦ by simp
  rw [hserver]
  exact List.filter_append_perm ..

theorem wraps_pkt : Wraps (b.total.cPkt + b.total.sPkt) b.inputs.length := by
  rw [b.total_eq, ← b.client_server.length_eq, List.length_append]
  exact (Wraps.sizeT _).add (.sizeT _)

theorem wraps_size : Wraps (b.total.cSize + b.total.sSize) (bytes b.inputs) := by
  rw [b.total_eq, ← bytes_perm b.client_server, bytes_append]
  exact (Wraps.sizeT _).add (.sizeT _)

end Block

/-- The counters of the ends of the blocks. -/
theorem ended_packets {blocks : List Block} {ins : List (DnsDB × Property)}
    (h : (blocks.flatMap Block.inputs).Perm ins) :
    Wraps ((blocks.map Block.ending).map fun e ↦ e.2.cPkt + e.2.sPkt).sum ins.length := by
  rw [List.map_map, ← h.length_eq, List.length_flatMap]
  exact Wraps.sum fun b _ ↦ b.wraps_pkt

theorem ended_bytes {blocks : List Block} {ins : List (DnsDB × Property)}
    (h : (blocks.flatMap Block.inputs).Perm ins) :
    Wraps ((blocks.map Block.ending).map fun e ↦ e.2.cSize + e.2.sSize).sum (bytes ins) := by
  rw [List.map_map, ← bytes_perm h, bytes_flatMap]
  exact Wraps.sum fun b _ ↦ b.wraps_size

/-- **What is reported is what came.**  The packets and the bytes that the reports of the ends count
add up to those that were received, modulo `2^64`, and exactly if there are fewer than that. -/
theorem packets_conserved (al : Allocator) (fuel : Nat) (ins : List (DnsDB × Property))
    (haddr : ∀ i ∈ ins, i.2.HasAddrs) (hfuel : ins.length < fuel) :
    ∃ trace, lifetime al fuel true ins = some trace ∧
      Wraps ((trace.filterMap Action.ended).map fun e ↦ e.2.cPkt + e.2.sPkt).sum ins.length ∧
      Wraps ((trace.filterMap Action.ended).map fun e ↦ e.2.cSize + e.2.sSize).sum
        (bytes ins) := by
  obtain ⟨trace, blocks, hlife, hcounted, hended⟩ := booked_of_lifetime al haddr hfuel
  exact ⟨trace, hlife, hended ▸ ended_packets hcounted.inputs, hended ▸ ended_bytes hcounted.inputs⟩

theorem packets_conserved_sample :
    ∃ trace, lifetime .above 20 true sampleCalls = some trace ∧
      Wraps ((trace.filterMap Action.ended).map fun e ↦ e.2.cPkt + e.2.sPkt).sum
        sampleCalls.length ∧
      Wraps ((trace.filterMap Action.ended).map fun e ↦ e.2.cSize + e.2.sSize).sum
        (bytes sampleCalls) :=
  packets_conserved .above 20 _ (by decide) (by decide)

end DnsHive
