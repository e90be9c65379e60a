import DnsHive.Flow.Expiry
import DnsHive.LRUHash.Refinement

/-!
# One packet

What `FlowHandler::recv` does, in terms of the table behind the pointers: the table ages
(`Table.age`), and then the packet joins the flow of its session or opens one (`Accepts`).  The
lemma `recv_eq` says once what a call can do and that it does not fault; everything about runs of
the handler rests on it, and on `destroy_eq` for the end of the handler.
-/

set_option autoImplicit false

namespace DnsHive

open Swarm FlowHandler

/-! ## Ageing -/

/-- By how much a packet at `now` advances the table, after one at `last`. -/
def elapsed (last now : Int) : Nat := if 0 < last ∧ last < now then (now - last).toNat else 0

/-- The flow has been active within the last `TIMEOUT` seconds. -/
def activeAt (now : Int) (f : Flow) : Bool := f.lastTs.any fun last ↦ now < last + timeout

namespace Table

variable {T : Table Flow} {keep : Flow → Bool}

/-- `k` seconds pass, up to `now`. -/
def age (now : Int) (k : Nat) (T : Table Flow) : Table Flow :=
  (T.advance slots k).settle (activeAt now)

/-- What is done to the flows that have expired by then. -/
def ageActions (output : Bool) (now : Int) (k : Nat) (T : Table Flow) : List Action :=
  (T.advance slots k).settleActions output (activeAt now)

theorem settle_nodes :
    (T.settle keep).nodes = (T.expired.filter (T.kept keep)).reverse ++ T.nodes := by
  simp [nodes, settle, Function.comp_def]

theorem settle_nodes_subset {x : Addr} (hx : x ∈ (T.settle keep).nodes) :
    x ∈ T.nodes ++ T.expired := by
  rw [settle_nodes, List.mem_append, List.mem_reverse, List.mem_filter] at hx
  exact List.mem_append.mpr (hx.symm.imp_right And.left)

/-- Settling does not touch the flows that stay. -/
theorem settle_obj (hnd : (T.nodes ++ T.expired).Nodup) {x : Addr}
    (hx : x ∈ (T.settle keep).nodes) : (T.settle keep).obj x = T.obj x := by
  refine if_neg fun ⟨hxe, hk⟩ ↦ ?_
  rw [settle_nodes, List.mem_append, List.mem_reverse, List.mem_filter] at hx
  rcases hx with hx | hx
  · exact hk hx.2
  · exact (List.nodup_append.mp hnd).2.2 x hx x hxe rfl

theorem settle_held_length {n : Nat} (h : T.nodes.length + T.expired.length ≤ n) :
    (T.settle keep).held.length ≤ n := by
  have hlen := List.length_filter_le (T.kept keep) T.expired
  simp only [nodes, List.length_map] at h
  simp only [settle, List.length_append, List.length_reverse, List.length_map]
  omega

theorem Window.settle (hw : T.Window slots) : (T.settle keep).Window slots := by
  intro e he
  rcases List.mem_append.mp he with he | he
  · obtain ⟨x, -, rfl⟩ := List.mem_map.mp (List.mem_reverse.mp he)
    simp only [Table.settle, timeout, slots]
    omega
  · exact hw e he

theorem advance_nodup {n k : Nat} (hnd : (T.nodes ++ T.expired).Nodup) :
    ((T.advance n k).nodes ++ (T.advance n k).expired).Nodup :=
  (advance_perm k).nodup_iff.mpr hnd

end Table

/-! ## Accepting the packet -/

namespace Table

variable {T : Table Flow}

/-- A new flow at `x`. -/
def opened (T : Table Flow) (x : Addr) (f : Flow) : Table Flow :=
  { T with
    held := ⟨x, T.clock + timeout⟩ :: T.held
    obj := Function.update T.obj x (some f) }

theorem obj_of_get {hv : Nat} {key : Bytes} {x : Addr} (hx : T.get hv key = some x) :
    x ∈ T.nodes ∧ ∃ f, T.obj x = some f ∧ f.hash = hv ∧ f.key = key := by
  have hhit := List.find?_some hx
  refine ⟨List.mem_of_find?_eq_some hx, ?_⟩
  rw [hits, Bool.and_eq_true, decide_eq_true_eq, hashOf] at hhit
  cases hobj : T.obj x with
  | none => simp [hobj] at hhit
  | some f => exact ⟨f, rfl, by simpa [hobj, NodeClass.hash, NodeClass.isMatch] using hhit⟩

end Table

/-- The packet joins a flow of the table, or opens one at a free address. -/
inductive Accepts (output : Bool) (p : Property) (src dst : Bytes) (T : Table Flow) :
    List Action → Table Flow → Prop
  | joined {x : Addr} {f : Flow} :
    T.get p.hashValue p.ssnLabel = some x → T.obj x = some f →
    Accepts output p src dst T [.update (.node x) f p] (T.new x (f.update p))
  | opened {x : Addr} :
    T.get p.hashValue p.ssnLabel = none → T.obj x = none →
    Accepts output p src dst T
      (report output (.newFlow (.node x) (.new p src dst)) ++
        [.update (.node x) (.new p src dst) p])
      (T.opened x ((Flow.new p src dst).update p))

/-- The state of the handler between two calls, and the table it stands for. -/
structure Sound (m : Nat) (s : FlowHandler) (T : Table Flow) : Prop where
  refines : Refines slots m s.flowTable T
  window : T.Window slots
  /-- Nothing waits in the expired queue. -/
  settled : T.expired = []
  /-- Every held flow has been updated. -/
  dated : ∀ x ∈ T.nodes, ∃ f, T.obj x = some f ∧ f.lastTs.isSome

namespace Sound

variable {m fuel : Nat} {s : FlowHandler} {T : Table Flow}

theorem init (output : Bool) :
    Sound (LRUHash.init slots 0 : LRUHash Flow).bucketSize (init output) Table.empty :=
  ⟨Refines.init slots 0, Table.window_empty, rfl, by simp [Table.empty, Table.nodes]⟩

theorem nodup (h : Sound m s T) : (T.nodes ++ T.expired).Nodup := h.refines.rep.nodup

/-- The members of `nodes ++ expired` are still the same after the table has advanced. -/
theorem mem_advance (h : Sound m s T) {n k : Nat} {x : Addr} :
    x ∈ (T.advance n k).nodes ++ (T.advance n k).expired ↔ x ∈ T.nodes := by
  rw [(Table.advance_perm k).mem_iff, h.settled, List.append_nil]

theorem advance_dated (h : Sound m s T) {n k : Nat} {x : Addr}
    (hx : x ∈ (T.advance n k).nodes ++ (T.advance n k).expired) :
    ∃ f, (T.advance n k).obj x = some f ∧ f.lastTs.isSome := by
  rw [Table.advance_obj]
  exact h.dated x (h.mem_advance.mp hx)

theorem advance_length (h : Sound m s T) {n k : Nat} :
    (T.advance n k).nodes.length + (T.advance n k).expired.length = T.held.length := by
  rw [← List.length_append, (Table.advance_perm k).length_eq, h.settled, List.append_nil,
    Table.nodes, List.length_map]

end Sound

namespace FlowHandler

variable {m fuel : Nat} {s : FlowHandler} {T : Table Flow}

theorem activeAt_of_dated {now : Int} {f : Flow} (hf : f.lastTs.isSome) :
    active now f = some (activeAt now f) := by
  obtain ⟨t, ht⟩ := Option.isSome_iff_exists.mp hf
  simp [active, activeAt, ht]

/-- Timeout handling ages the table. -/
theorem checkTimeout_eq (h : Sound m s T) (hf : T.held.length < fuel) (now : Int) :
    ∃ t acts, s.checkTimeout fuel now = some ({ s with flowTable := t }, acts) ∧
      Sound m { s with flowTable := t } (T.age now (elapsed s.lastTs now)) ∧
      acts.filter Action.isEvent = T.ageActions s.output now (elapsed s.lastTs now) ∧
      ∀ a ∈ acts, a.PutOk := by
  by_cases hk : 0 < s.lastTs ∧ s.lastTs < now
  · obtain ⟨t, ht, r⟩ := h.refines.prog slots_pos hf (now - s.lastTs).toNat
    have hlen := h.advance_length (n := slots) (k := (now - s.lastTs).toNat)
    obtain ⟨t', acts, hloop, r', hacts, hok⟩ :=
      popLoop_eq (s := { s with flowTable := t }) (active now) (activeAt now) r
        (fun x hx ↦ by
          obtain ⟨f, hobj, hdate⟩ := h.advance_dated (List.mem_append_right _ hx)
          exact ⟨f, hobj, activeAt_of_dated hdate⟩)
        (show _ < fuel by omega)
    rw [elapsed, if_pos hk]
    refine ⟨t', acts, by simp [checkTimeout, hk, ht, hloop], ⟨r', ?_, rfl, fun x hx ↦ ?_⟩,
      hacts, hok⟩
    · exact (h.window.advance _).settle
    · rw [Table.age, Table.settle_obj (Table.advance_nodup h.nodup) hx]
      exact h.advance_dated (Table.settle_nodes_subset hx)
  · have hage : T.age now 0 = T := Table.settle_nil h.settled
    rw [elapsed, if_neg hk, hage]
    refine ⟨s.flowTable, [], by simp [checkTimeout, hk], h, ?_, by simp⟩
    simp [Table.ageActions, Table.settleActions, Table.advance, h.settled]

theorem hosts_eq (db : DnsDB) {p : Property} (hp : p.HasAddrs) :
    ∃ src dst, hosts db p = some (src, dst) := by
  obtain ⟨hs, hd⟩ := hp
  obtain ⟨sAddr, hs⟩ := Option.isSome_iff_exists.mp hs
  obtain ⟨dAddr, hd⟩ := Option.isSome_iff_exists.mp hd
  exact ⟨(db.lookup sAddr p.srcLen).getD p.srcAddr, (db.lookup dAddr p.srcLen).getD p.dstAddr,
    by simp [hosts, hs, hd]⟩

/-- A packet whose session has a flow. -/
theorem join (h : Sound m s T) {p : Property} {x : Addr} {f : Flow} (hx : x ∈ T.nodes)
    (hobj : T.obj x = some f) :
    ∃ h', s.flowTable.heap.write (.node x) (f.update p) = some h' ∧
      Sound m { s with flowTable.heap := h' } (T.new x (f.update p)) := by
  obtain ⟨h', hw, r'⟩ := h.refines.write (f.update p) (by rw [hobj]; rfl)
    fun _ ↦ by rw [Table.hashOf, hobj]; exact f.update_hash p
  refine ⟨h', hw, r', h.window, h.settled, fun y hy ↦ ?_⟩
  by_cases hyx : y = x
  · subst hyx
    exact ⟨f.update p, Function.update_self .., by simp⟩
  · obtain ⟨g, hg, hdate⟩ := h.dated y hy
    exact ⟨g, (Function.update_of_ne hyx _ _).trans hg, hdate⟩

/-- A new flow for a session that has none. -/
theorem openFlow_eq (h : Sound m s T) (al : Allocator) (p : Property) (src dst : Bytes) :
    ∃ x t acts, s.openFlow al p src dst = some
        ({ s with flowTable := t, allocated := s.allocated + 1 }, (.node x, .new p src dst),
          acts ++ report s.output (.newFlow (.node x) (.new p src dst))) ∧
      T.obj x = none ∧ Refines slots m t (T.opened x (.new p src dst)) ∧
      acts.filter Action.isEvent = [] ∧ ∀ a ∈ acts, a.PutOk := by
  let x := al.addr s.allocated s.flowTable.heap.live
  have hx : T.obj x = none := by
    have hlive := al.fresh s.allocated s.flowTable.heap.live
    rw [h.refines.rep.node_live] at hlive
    simpa using hlive
  have hfree : x ∉ T.nodes ++ T.expired := fun hmem ↦ by
    have hsome := h.refines.rep.owned x hmem
    simp [hx] at hsome
  obtain ⟨h₁, hnew, r₁⟩ := h.refines.new (.new p src dst) hx
  obtain ⟨t, hput, r₂⟩ := putFlow_eq
    (s := { s with flowTable.heap := h₁, allocated := s.allocated + 1 }) r₁ (x := x)
    (by simp [Table.new]) hfree
  refine ⟨x, t, [.put { s.flowTable with heap := h₁ } timeout (.node x) true], ?_, hx, r₂, ?_, ?_⟩
  · simp [openFlow, hnew, hput, x]
  · simp [Action.isEvent]
  · intro a ha
    rw [List.mem_singleton.mp ha]
    exact r₁.putOk (by simp [Table.new]) hfree

/-- The update of the new flow. -/
theorem update_opened (h : Sound m s T) {x : Addr} (hx : T.obj x = none) {t : LRUHash Flow}
    {f : Flow} (r : Refines slots m t (T.opened x f)) (p : Property) :
    ∃ h', t.heap.write (.node x) (f.update p) = some h' ∧
      Sound m { s with flowTable := { t with heap := h' } } (T.opened x (f.update p)) := by
  obtain ⟨h', hw, r'⟩ := r.write (x := x) (f.update p) (by simp [Table.opened])
    fun _ ↦ by simp [Table.hashOf, Table.opened, NodeClass.hash]
  have hT : (T.opened x f).new x (f.update p) = T.opened x (f.update p) := by
    simp [Table.new, Table.opened]
  rw [hT] at r'
  refine ⟨h', hw, r', ?_, h.settled, fun y hy ↦ ?_⟩
  · exact h.window.put timeout x
  · by_cases hyx : y = x
    · subst hyx
      exact ⟨f.update p, by simp [Table.opened], by simp⟩
    · have hyT : y ∈ T.nodes := (List.mem_cons.mp hy).resolve_left hyx
      obtain ⟨g, hg, hdate⟩ := h.dated y hyT
      exact ⟨g, (Function.update_of_ne hyx _ _).trans hg, hdate⟩

section Accept

variable {t : LRUHash Flow} {p : Property} {due : List Action} {db : DnsDB} {src dst : Bytes}

/-- The rest of a call, when the session of the packet has a flow. -/
theorem recv_joined (h : Sound m { s with flowTable := t, lastTs := p.tvSec } T) (al : Allocator)
    (hdue : s.checkTimeout fuel p.tvSec = some ({ s with flowTable := t }, due))
    (hhosts : hosts db p = some (src, dst)) (hf : T.held.length < fuel) {x : Addr} {f : Flow}
    (hx : T.get p.hashValue p.ssnLabel = some x) (hobj : T.obj x = some f) :
    ∃ s', recv al fuel s (db, p) = some (s', due ++ [.update (.node x) f p]) ∧
      Sound m s' (T.new x (f.update p)) ∧ s'.output = s.output ∧ s'.lastTs = p.tvSec := by
  have hget := h.refines.get hf p.hashValue p.ssnLabel
  have hcast := h.refines.castFlow x (by rw [hobj]; rfl)
  rw [hx] at hget
  rw [hobj] at hcast
  obtain ⟨h', hw, hs⟩ := join h (p := p) (Table.obj_of_get hx).1 hobj
  exact ⟨_, by simp [recv, hdue, hhosts, hget, hcast, hw], hs, rfl, rfl⟩

/-- The rest of a call, when it has none. -/
theorem recv_opened (h : Sound m { s with flowTable := t, lastTs := p.tvSec } T) (al : Allocator)
    (hdue : s.checkTimeout fuel p.tvSec = some ({ s with flowTable := t }, due))
    (hhosts : hosts db p = some (src, dst)) (hf : T.held.length < fuel)
    (hx : T.get p.hashValue p.ssnLabel = none) :
    ∃ s' x acts, recv al fuel s (db, p) = some (s', due ++ acts ++
        (report s.output (.newFlow (.node x) (.new p src dst)) ++
          [.update (.node x) (.new p src dst) p])) ∧
      T.obj x = none ∧ acts.filter Action.isEvent = [] ∧ (∀ a ∈ acts, a.PutOk) ∧
      Sound m s' (T.opened x ((Flow.new p src dst).update p)) ∧ s'.output = s.output ∧
      s'.lastTs = p.tvSec := by
  have hget := h.refines.get hf p.hashValue p.ssnLabel
  rw [hx] at hget
  obtain ⟨x, t', acts, hopen, hfree, r, hev, hok⟩ := openFlow_eq h al p src dst
  obtain ⟨h', hw, hs⟩ := update_opened h hfree r p
  refine ⟨{ s with flowTable := { t' with heap := h' }, lastTs := p.tvSec,
                   allocated := s.allocated + 1 }, x, acts,
    ?_, hfree, hev, hok, ⟨hs.1, hs.2, hs.3, hs.4⟩, rfl, rfl⟩
  simp [recv, hdue, hhosts, hget, castFlow, hopen, hw]

end Accept

/-- **One packet.**  The call succeeds: the table ages and accepts the packet. -/
theorem recv_eq (h : Sound m s T) (al : Allocator) (db : DnsDB) {p : Property}
    (hp : p.HasAddrs) (hf : T.held.length < fuel) :
    ∃ s' acts src dst accepted T', recv al fuel s (db, p) = some (s', acts) ∧
      hosts db p = some (src, dst) ∧
      Accepts s.output p src dst (T.age p.tvSec (elapsed s.lastTs p.tvSec)) accepted T' ∧
      acts.filter Action.isEvent =
        T.ageActions s.output p.tvSec (elapsed s.lastTs p.tvSec) ++ accepted ∧
      (∀ a ∈ acts, a.PutOk) ∧ Sound m s' T' ∧ s'.output = s.output ∧ s'.lastTs = p.tvSec := by
  obtain ⟨t, due, hdue, h₁, hev, hok⟩ := checkTimeout_eq h hf p.tvSec
  obtain ⟨src, dst, hhosts⟩ := hosts_eq db hp
  generalize hT₁ : T.age p.tvSec (elapsed s.lastTs p.tvSec) = T₁ at h₁ ⊢
  have hf₁ : T₁.held.length < fuel := by
    subst hT₁
    exact (Table.settle_held_length h.advance_length.le).trans_lt hf
  have h₂ : Sound m { s with flowTable := t, lastTs := p.tvSec } T₁ := ⟨h₁.1, h₁.2, h₁.3, h₁.4⟩
  cases hx : T₁.get p.hashValue p.ssnLabel with
  | some x =>
    obtain ⟨-, f, hobj, -, -⟩ := Table.obj_of_get hx
    obtain ⟨s', hrecv, hs, hout, hts⟩ := recv_joined h₂ al hdue hhosts hf₁ hx hobj
    refine ⟨s', _, src, dst, _, _, hrecv, hhosts, .joined hx hobj, ?_, ?_, hs, hout, hts⟩
    · rw [List.filter_append, hev]
      rfl
    · exact List.forall_mem_append.mpr ⟨hok, by simp [Action.PutOk]⟩
  | none =>
    obtain ⟨s', x, acts, hrecv, hfree, hev', hok', hs, hout, hts⟩ :=
      recv_opened h₂ al hdue hhosts hf₁ hx
    refine ⟨s', _, src, dst, _, _, hrecv, hhosts, .opened hx hfree, ?_, ?_, hs, hout, hts⟩
    · rw [List.filter_append, List.filter_append, hev, hev', List.append_nil, List.filter_append,
        report_isEvent rfl]
      rfl
    · have hreport : ∀ a ∈ report s.output (.newFlow (.node x) (.new p src dst)), a.PutOk :=
        report_putOk trivial
      exact List.forall_mem_append.mpr ⟨List.forall_mem_append.mpr ⟨hok, hok'⟩,
        List.forall_mem_append.mpr ⟨hreport, by simp [Action.PutOk]⟩⟩

/-- The destructor advances the table by a full turn of the wheel, and drops what has expired. -/
theorem destroy_advance (h : Sound m s T) (hf : T.held.length < fuel) :
    ∃ s' acts, destroy fuel s = some (s', acts) ∧
      Refines slots m s'.flowTable ((T.advance slots slots).settle fun _ ↦ false) ∧
      acts.filter Action.isEvent =
        (T.advance slots slots).settleActions s.output fun _ ↦ false := by
  obtain ⟨t, ht, r⟩ := h.refines.prog slots_pos hf slots
  have hlen := h.advance_length (n := slots) (k := slots)
  obtain ⟨t', acts, hloop, r', hacts, -⟩ :=
    popLoop_eq (s := { s with flowTable := t }) (fun _ ↦ some false) (fun _ ↦ false) r
      (fun x hx ↦ by
        obtain ⟨f, hobj, -⟩ := h.advance_dated (List.mem_append_right _ hx)
        exact ⟨f, hobj, rfl⟩)
      (show _ < fuel by omega)
  refine ⟨{ s with flowTable := t' }, acts, ?_, r', hacts⟩
  simp [destroy, LRUHash.flush, h.refines.timeslotSize, ht, hloop]

/-- **The end of the handler.**  A full turn of the wheel expires every flow, and every one of them
is dropped. -/
theorem destroy_eq (h : Sound m s T) (hf : T.held.length < fuel) :
    ∃ s' acts, ∃ T' : Table Flow, destroy fuel s = some (s', acts) ∧
      Refines slots m s'.flowTable (T'.settle fun _ ↦ false) ∧ T'.held = [] ∧ T'.obj = T.obj ∧
      T'.expired.Perm T.nodes ∧
      acts.filter Action.isEvent = T'.settleActions s.output fun _ ↦ false := by
  obtain ⟨s', acts, hdestroy, r, hacts⟩ := destroy_advance h hf
  have hheld := h.window.advance_turn
  have hperm := Table.advance_perm (T := T) (n := slots) slots
  rw [h.settled, List.append_nil, Table.nodes, hheld, List.map_nil, List.nil_append] at hperm
  exact ⟨s', acts, T.advance slots slots, hdestroy, r, hheld, Table.advance_obj slots, hperm, hacts⟩

end FlowHandler

end DnsHive
