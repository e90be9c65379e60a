import DnsHive.Flow.Handler
import DnsHive.LRUHash.Ownership

/-!
# The expired flows

What the loop of `FlowHandler` does to the expired flows, in terms of the table behind the
pointers.  `Table.settle` puts the active ones back and drops the others, and `settleActions` are
the reports it makes on the way; `popLoop_exact` says that the loop does just that, in as many turns
as there are expired flows and one more.

`Action.PutOk` is what the loop has to respect whenever it puts a flow: the table must not have it
already.
-/

set_option autoImplicit false

namespace DnsHive

open Swarm FlowHandler

/-! ## Actions -/

namespace Action

/-- Everything but the bookkeeping of the table. -/
def isEvent : Action → Bool
  | put .. => false
  | _ => true

/-- The packet is counted. -/
def isUpdate : Action → Bool
  | update .. => true
  | _ => false

/-- A `put` is accepted, of a flow that exists and is on no chain of the table. -/
def PutOk : Action → Prop
  | put t _ x rc => rc = true ∧ x ∈ t.heap.live ∧ (∀ i < t.bucketSize, ¬ t.InBucket i x) ∧
      (∀ j < t.timeslotSize, ¬ t.InSlot j x) ∧ ¬ t.InQueue x
  | _ => True

end Action

/-- The reports of an expired flow, and its end. -/
def closing (output : Bool) (x : Ptr) (f : Flow) : List Action :=
  report output (.expireFlow x f) ++ [.delete x f]

theorem report_isEvent {output : Bool} {a : Action} (ha : a.isEvent) :
    (report output a).filter Action.isEvent = report output a := by
  cases output <;> simp [report, ha]

theorem closing_isEvent (output : Bool) (x : Ptr) (f : Flow) :
    (closing output x f).filter Action.isEvent = closing output x f := by
  rw [closing, List.filter_append, report_isEvent rfl]
  rfl

theorem report_putOk {output : Bool} {a : Action} (ha : a.PutOk) :
    ∀ b ∈ report output a, b.PutOk := by
  cases output <;> simp [report, ha]

theorem closing_putOk (output : Bool) (x : Ptr) (f : Flow) :
    ∀ a ∈ closing output x f, a.PutOk := by
  intro a ha
  rcases List.mem_append.mp ha with ha | ha
  · exact report_putOk (a := .expireFlow x f) trivial a ha
  · rw [List.mem_singleton.mp ha]
    trivial

namespace Table

variable {T : Table Flow} {keep : Flow → Bool}

/-- The flow at `x` is to be put back. -/
def kept (keep : Flow → Bool) (T : Table Flow) (x : Addr) : Bool := (T.obj x).any keep

/-- The expired flows are put back or dropped. -/
def settle (keep : Flow → Bool) (T : Table Flow) : Table Flow where
  clock := T.clock
  held := ((T.expired.filter (T.kept keep)).map fun x ↦ ⟨x, T.clock + timeout⟩).reverse ++ T.held
  expired := []
  obj x := if x ∈ T.expired ∧ ¬ T.kept keep x then none else T.obj x

/-- What is reported of the expired flow at `x`. -/
def verdict (output : Bool) (keep : Flow → Bool) (T : Table Flow) (x : Addr) : List Action :=
  match T.obj x with
  | some f => if keep f then [] else closing output (.node x) f
  | none => []

/-- What is reported of all of them. -/
def settleActions (output : Bool) (keep : Flow → Bool) (T : Table Flow) : List Action :=
  T.expired.flatMap (T.verdict output keep)

theorem settle_nil (h : T.expired = []) : T.settle keep = T := by
  obtain ⟨clock, held, expired, obj⟩ := T
  simp only at h
  subst h
  simp [settle]

/-- Settling begins with the flow popped first, here one that is put back. -/
theorem settle_put {x : Addr} {xs : List Addr} (hx : T.expired = x :: xs) (hk : T.kept keep x) :
    (({ T with expired := xs }.put slots timeout x).1).settle keep = T.settle keep := by
  rw [settle, settle, Table.mk.injEq]
  refine ⟨rfl, ?_, rfl, ?_⟩
  · show ((xs.filter (T.kept keep)).map _).reverse ++ ⟨x, T.clock + timeout⟩ :: T.held = _
    rw [hx, List.filter_cons_of_pos hk, List.map_cons, List.reverse_cons, List.append_assoc]
    rfl
  · funext y
    show (if y ∈ xs ∧ ¬ T.kept keep y then none else T.obj y) = _
    by_cases hyx : y = x
    · subst hyx; simp [hk]
    · simp [hx, hyx]

/-- Settling begins with the flow popped first, here one that is dropped. -/
theorem settle_delete {x : Addr} {xs : List Addr} (hx : T.expired = x :: xs) (hnd : x ∉ xs)
    (hk : ¬ T.kept keep x) :
    ({ T with expired := xs }.delete x).settle keep = T.settle keep := by
  have hne : ∀ y, y ≠ x → ({ T with expired := xs }.delete x).kept keep y = T.kept keep y :=
    fun y hy ↦ by simp [kept, delete, hy]
  rw [settle, settle, Table.mk.injEq]
  refine ⟨rfl, ?_, rfl, ?_⟩
  · have hfilter : xs.filter (({ T with expired := xs }.delete x).kept keep) =
        xs.filter (T.kept keep) :=
      List.filter_congr fun y hy ↦ hne y fun e ↦ hnd (e ▸ hy)
    rw [hx, List.filter_cons_of_neg hk, ← hfilter]
    rfl
  · funext y
    by_cases hyx : y = x
    · subst hyx; simp [hx, hk, delete]
    · have hy : ({ T with expired := xs }.delete x).obj y = T.obj y := Function.update_of_ne hyx _ _
      rw [hne y hyx, hy, hx]
      simp [delete, hyx]

theorem delete_obj {x y : Addr} {xs : List Addr} (hnd : x ∉ xs) (hy : y ∈ xs) :
    ({ T with expired := xs }.delete x).obj y = T.obj y := by
  have hyx : y ≠ x := fun e ↦ hnd (e ▸ hy)
  exact Function.update_of_ne hyx _ _

/-- Nothing is reported of a flow that is put back. -/
theorem settleActions_put {output : Bool} {x : Addr} {xs : List Addr} {f : Flow}
    (hx : T.expired = x :: xs) (hobj : T.obj x = some f) (hk : keep f) :
    (({ T with expired := xs }.put slots timeout x).1).settleActions output keep =
      T.settleActions output keep := by
  rw [settleActions, settleActions, hx, List.flatMap_cons, verdict, hobj]
  simp only [hk, if_true, List.nil_append]
  rfl

/-- A flow that is dropped is reported before all others. -/
theorem settleActions_delete {output : Bool} {x : Addr} {xs : List Addr} {f : Flow}
    (hx : T.expired = x :: xs) (hnd : x ∉ xs) (hobj : T.obj x = some f) (hk : ¬ keep f) :
    closing output (.node x) f ++ ({ T with expired := xs }.delete x).settleActions output keep =
      T.settleActions output keep := by
  have hrest : ({ T with expired := xs }.delete x).settleActions output keep =
      xs.flatMap (T.verdict output keep) :=
    List.flatMap_congr fun y hy ↦ by rw [verdict, verdict, delete_obj hnd hy]
  rw [hrest, settleActions, hx, List.flatMap_cons, verdict, hobj]
  simp only [hk]
  rfl

end Table

/-! ## The loop -/

namespace Refines

variable {m : Nat} {t : LRUHash Flow} {T : Table Flow}

/-- A flow that the table does not have may be put. -/
theorem putOk (r : Refines slots m t T) {x : Addr} (hx : (T.obj x).isSome)
    (hfree : x ∉ T.nodes ++ T.expired) : (Action.put t timeout (.node x) true).PutOk := by
  rw [List.mem_append, not_or] at hfree
  refine ⟨rfl, (r.rep.node_live x).mpr hx, ?_, ?_, ?_⟩
  · rw [r.bucketSize]
    exact fun i hi h ↦ hfree.1 (Table.mem_chain.mp ((r.inBucket_iff hi).mp h)).1
  · rw [r.timeslotSize]
    exact fun j hj h ↦ hfree.1 (Table.slotNodes_subset ((r.inSlot_iff hj).mp h))
  · exact fun h ↦ hfree.2 (r.inQueue_iff.mp h)

/-- Popping the next of the expired flows. -/
theorem pop_cons (r : Refines slots m t T) {x : Addr} {xs : List Addr} (hx : T.expired = x :: xs) :
    ∃ t', t.pop = some (some (.node x), t') ∧ Refines slots m t' { T with expired := xs } := by
  obtain ⟨t', ht, r'⟩ := r.pop
  simp only [Table.pop, hx, List.head?_cons, Option.map_some, List.tail_cons] at ht r'
  exact ⟨t', ht, r'⟩

/-- Popping when there is none. -/
theorem pop_nil (r : Refines slots m t T) (hx : T.expired = []) :
    ∃ t', t.pop = some (none, t') ∧ Refines slots m t' T := by
  obtain ⟨t', ht, r'⟩ := r.pop
  simp only [Table.pop, hx, List.head?_nil, Option.map_none, List.tail_nil] at ht r'
  rw [← hx] at r'
  exact ⟨t', ht, r'⟩

theorem castFlow (r : Refines slots m t T) (x : Addr) (hx : (T.obj x).isSome) :
    castFlow t.heap (some (.node x)) = some ((T.obj x).map fun f ↦ (.node x, f)) := by
  rw [FlowHandler.castFlow, if_pos ((r.rep.node_live x).mpr hx), r.rep.obj x]

/-- Popping the next of the expired flows and looking at it. -/
theorem pop_flow (r : Refines slots m t T) {x : Addr} {xs : List Addr} {f : Flow}
    (hx : T.expired = x :: xs) (hobj : T.obj x = some f) :
    ∃ t', t.pop = some (some (.node x), t') ∧
      FlowHandler.castFlow t'.heap (some (.node x)) = some (some (.node x, f)) ∧
      Refines slots m t' { T with expired := xs } ∧ x ∉ T.nodes ++ xs := by
  have hnd := r.rep.nodup
  rw [hx] at hnd
  obtain ⟨t', ht, r'⟩ := r.pop_cons hx
  refine ⟨t', ht, ?_, r', (List.nodup_cons.mp (List.nodup_middle.mp hnd)).1⟩
  rw [r'.castFlow x (by simp [hobj])]
  simp [hobj]

end Refines

namespace FlowHandler

variable {m : Nat} {T : Table Flow} {keep : Flow → Bool}

theorem slots_pos : 0 < slots := by decide

theorem timeout_lt_slots : ¬ slots ≤ timeout := by decide

/-- Putting a flow back. -/
theorem putFlow_eq {s : FlowHandler} (r : Refines slots m s.flowTable T) {x : Addr}
    (hx : (T.obj x).isSome) (hfree : x ∉ T.nodes ++ T.expired) :
    ∃ t, s.putFlow (.node x) =
        some ({ s with flowTable := t }, [.put s.flowTable timeout (.node x) true]) ∧
      Refines slots m t (T.put slots timeout x).1 := by
  obtain ⟨t, ht, r'⟩ := r.put slots_pos timeout hx hfree
  have hrc : (T.put slots timeout x).2 = true := by simp [Table.put, timeout_lt_slots]
  rw [hrc] at ht
  exact ⟨t, by simp [putFlow, ht], r'⟩

/-- Reporting and deleting a flow. -/
theorem closeFlow_eq {s : FlowHandler} (r : Refines slots m s.flowTable T) {x : Addr} {f : Flow}
    (hx : (T.obj x).isSome) (hfree : x ∉ T.nodes ++ T.expired) :
    ∃ t, s.closeFlow (.node x) f =
        some ({ s with flowTable := t }, closing s.output (.node x) f) ∧
      Refines slots m t (T.delete x) := by
  obtain ⟨h, hdel, r'⟩ := r.delete hx hfree
  exact ⟨_, by simp [closeFlow, hdel, closing], r'⟩

/-- One turn of the loop, with the flow popped next. -/
theorem popLoop_turn {active : Flow → Option Bool} {keep : Flow → Bool} {s : FlowHandler}
    (r : Refines slots m s.flowTable T) {x : Addr} {xs : List Addr} {f : Flow}
    (hx : T.expired = x :: xs) (hobj : T.obj x = some f) (hdec : active f = some (keep f)) :
    ∃ t acts T₁, (∀ fuel, popLoop active (fuel + 1) s =
        (popLoop active fuel { s with flowTable := t }).map fun r ↦ (r.1, acts ++ r.2)) ∧
      Refines slots m t T₁ ∧ T₁.expired = xs ∧ (∀ y ∈ xs, T₁.obj y = T.obj y) ∧
      T₁.settle keep = T.settle keep ∧
      acts.filter Action.isEvent ++ T₁.settleActions s.output keep =
        T.settleActions s.output keep ∧
      ∀ a ∈ acts, a.PutOk := by
  have hsome : (T.obj x).isSome := by rw [hobj]; rfl
  obtain ⟨t, ht, hcast, rpop, hfree⟩ := r.pop_flow hx hobj
  have hnd : x ∉ xs := fun h ↦ hfree (List.mem_append_right _ h)
  by_cases hk : keep f
  · -- it is active: put it back
    obtain ⟨t₁, hput, r₁⟩ := putFlow_eq (s := { s with flowTable := t }) rpop hsome hfree
    refine ⟨t₁, [.put t timeout (.node x) true], _, fun fuel ↦ ?_, r₁, rfl, fun _ _ ↦ rfl,
      Table.settle_put hx (by simpa [Table.kept, hobj] using hk), ?_, ?_⟩
    · simp only [popLoop, ht, Option.bind_eq_bind, Option.bind_some, hcast, hdec, hk, if_true, hput]
      cases popLoop active fuel { s with flowTable := t₁ } <;> rfl
    · rw [← Table.settleActions_put hx hobj hk]
      rfl
    · intro a ha
      rw [List.mem_singleton.mp ha]
      exact rpop.putOk hsome hfree
  · -- it is not: report and delete it
    obtain ⟨t₁, hclose, r₁⟩ :=
      closeFlow_eq (s := { s with flowTable := t }) (f := f) rpop hsome hfree
    refine ⟨t₁, closing s.output (.node x) f, _, fun fuel ↦ ?_, r₁, rfl,
      fun y hy ↦ Table.delete_obj hnd hy,
      Table.settle_delete hx hnd (by simpa [Table.kept, hobj] using hk), ?_,
      closing_putOk _ _ _⟩
    · simp only [popLoop, ht, Option.bind_eq_bind, Option.bind_some, hcast, hdec, hk, hclose,
        Bool.false_eq_true, if_false]
      cases popLoop active fuel { s with flowTable := t₁ } <;> rfl
    · rw [closing_isEvent]
      exact Table.settleActions_delete hx hnd hobj hk

/-- **The loop settles the expired flows**, in as many turns as there are, and one more to see that
there are no others. -/
theorem popLoop_exact (active : Flow → Option Bool) (keep : Flow → Bool) {s : FlowHandler}
    (r : Refines slots m s.flowTable T)
    (hact : ∀ x ∈ T.expired, ∃ f, T.obj x = some f ∧ active f = some (keep f)) :
    ∃ t acts, (∀ fuel, popLoop active fuel s =
        if T.expired.length < fuel then some ({ s with flowTable := t }, acts) else none) ∧
      Refines slots m t (T.settle keep) ∧
      acts.filter Action.isEvent = T.settleActions s.output keep ∧ ∀ a ∈ acts, a.PutOk := by
  induction hxs : T.expired generalizing T s with
  | nil =>
    obtain ⟨t, ht, r'⟩ := r.pop_nil hxs
    refine ⟨t, [], fun fuel ↦ ?_, ?_, by simp [Table.settleActions, hxs], by simp⟩
    · cases fuel <;> simp [popLoop, ht, castFlow]
    · rwa [Table.settle_nil hxs]
  | cons x xs ih =>
    rw [hxs] at hact
    obtain ⟨f, hobj, hdec⟩ := hact x (List.mem_cons_self ..)
    obtain ⟨t₁, acts₁, T₁, hturn, r₁, hexp, hsame, hsettle, hacts₁, hok₁⟩ :=
      popLoop_turn r hxs hobj hdec
    obtain ⟨t, acts, hloop, r', hacts, hok⟩ := ih (s := { s with flowTable := t₁ }) r₁
      (fun y hy ↦ by
        rw [hexp] at hy
        rw [hsame y hy]
        exact hact y (List.mem_cons_of_mem _ hy)) hexp
    rw [hsettle] at r'
    refine ⟨t, acts₁ ++ acts, fun fuel ↦ ?_, r', ?_, List.forall_mem_append.mpr ⟨hok₁, hok⟩⟩
    · cases fuel with
      | zero => rfl
      | succ fuel =>
        rw [hturn, hloop, List.length_cons]
        by_cases hf : xs.length < fuel <;> simp [hf]
    · rw [List.filter_append, hacts]
      exact hacts₁

/-- With enough turns, the loop ends. -/
theorem popLoop_eq (active : Flow → Option Bool) (keep : Flow → Bool) {s : FlowHandler}
    {fuel : Nat} (r : Refines slots m s.flowTable T)
    (hact : ∀ x ∈ T.expired, ∃ f, T.obj x = some f ∧ active f = some (keep f))
    (hf : T.expired.length < fuel) :
    ∃ t acts, popLoop active fuel s = some ({ s with flowTable := t }, acts) ∧
      Refines slots m t (T.settle keep) ∧
      acts.filter Action.isEvent = T.settleActions s.output keep ∧ ∀ a ∈ acts, a.PutOk := by
  obtain ⟨t, acts, hloop, h⟩ := popLoop_exact active keep r hact
  exact ⟨t, acts, by rw [hloop, if_pos hf], h⟩

end FlowHandler

end DnsHive
