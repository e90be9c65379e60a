import DnsHive.Flow.Examination
import DnsHive.Lib.Lockstep

/-!
# The handler without its memory

Where the flows are in memory, how they are chained and in which buckets, does not show in what the
handler reports.  A `Roster` is what is left of the table without it: the flows with their
deadlines, in the order in which they were put.

* `recv_roster` — a packet does to the handler what it does to its roster.
* `lifetime_roster` — so what the handler reports is a function of its packets: `Roster.lifetime`.
-/

set_option autoImplicit false

namespace DnsHive

open Swarm FlowHandler Machine

/-- What the output is told. -/
inductive Notice where
  | opened (f : Flow)
  | closed (f : Flow)
  deriving DecidableEq

/-- The flow that it is about. -/
def Notice.flow : Notice → Flow
  | opened f | closed f => f

/-- What an action tells the output, if it does. -/
def Action.notice : Action → Option Notice
  | newFlow _ f => some (.opened f)
  | expireFlow _ f => some (.closed f)
  | _ => none

/-- The flows of a handler. -/
structure Roster where
  /-- The time of the last packet. -/
  lastTs : Int
  clock : Nat
  /-- The flows that are held, with their deadlines, put last first. -/
  held : List (Nat × Flow)
  expired : List Flow
  deriving DecidableEq

/-- The packet is of the session of this flow. -/
def Flow.joins (p : Property) (f : Flow) : Bool := f.hash = p.hashValue && f.key = p.ssnLabel

namespace Roster

def init : Roster := ⟨0, 0, [], []⟩

/-- One tick of the wheel. -/
def tick (R : Roster) : Roster :=
  let due (e : Nat × Flow) : Bool := slotOf slots e.1 = slotOf slots R.clock
  { R with
    clock := R.clock + 1
    held := R.held.filter fun e ↦ !due e
    expired := ((R.held.filter due).map Prod.snd).reverse ++ R.expired }

/-- So many ticks. -/
def advance : Nat → Roster → Roster
  | 0, R => R
  | k + 1, R => advance k R.tick

/-- The expired flows are put back or dropped. -/
def settle (keep : Flow → Bool) (R : Roster) : Roster :=
  { R with
    held := ((R.expired.filter keep).map fun f ↦ (R.clock + timeout, f)).reverse ++ R.held
    expired := [] }

/-- What is told of those that are dropped. -/
def dropped (keep : Flow → Bool) (R : Roster) : List Notice :=
  (R.expired.filter fun f ↦ !keep f).map .closed

/-- A packet at `now` may close flows before it joins one. -/
def age (now : Int) (R : Roster) : Roster × List Notice :=
  let R := R.advance (elapsed R.lastTs now)
  ({ R.settle (activeAt now) with lastTs := now }, R.dropped (activeAt now))

/-- The packet joins the flow of its session, or opens one. -/
def accept (p : Property) (names : Bytes × Bytes) (R : Roster) : Roster × List Notice :=
  let f := Flow.new p names.1 names.2
  if R.held.any fun e ↦ e.2.joins p then
    ({ R with held := R.held.map fun e ↦ (e.1, if e.2.joins p then e.2.update p else e.2) }, [])
  else ({ R with held := (R.clock + timeout, f.update p) :: R.held }, [.opened f])

/-- A packet between hosts with these names. -/
def observe (p : Property) (R : Roster) (names : Bytes × Bytes) : Roster × List Notice :=
  let (R, closed) := R.age p.tvSec
  let (R, opened) := R.accept p names
  (R, closed ++ opened)

/-- A packet between the hosts that the database names. -/
def recv (R : Roster) (i : DnsDB × Property) : Option (Roster × List Notice) :=
  (hosts i.1 i.2).map (R.observe i.2)

/-- What is told when the handler ends: a whole turn passes, and nothing is kept. -/
def destroy (R : Roster) : List Notice := (R.advance slots).dropped fun _ ↦ false

/-- What is told from the construction of the handler to its end. -/
def lifetime (ins : List (DnsDB × Property)) : Option (List Notice) :=
  (Machine.run recv init ins).map fun r ↦ r.2.flatten ++ r.1.destroy

end Roster

/-- The roster of a table. -/
def Table.roster (last : Int) (T : Table Flow) : Roster where
  lastTs := last
  clock := T.clock
  held := T.held.filterMap fun e ↦ (T.obj e.node).map fun f ↦ (e.deadline, f)
  expired := T.expired.filterMap T.obj

variable {T T' : Table Flow} {keep : Flow → Bool} {last : Int}

/-! ## Ageing -/

/-- A filter that looks at what is mapped. -/
theorem filterMap_filter_comm {α β : Type} {f : α → Option β} {q : α → Bool} {r : β → Bool}
    (h : ∀ a b, f a = some b → r b = q a) (l : List α) :
    (l.filter q).filterMap f = (l.filterMap f).filter r := by
  induction l with
  | nil => rfl
  | cons a l ih =>
    cases hf : f a with
    | none => cases hq : q a <;> simp [hf, hq, ih]
    | some b =>
      have hr := h a b hf
      cases hq : q a <;> simp [hf, hq, hr, ih]

namespace Table

theorem roster_tick (T : Table Flow) : (T.tick slots).roster last = (T.roster last).tick := by
  have hnode (e : Entry) : T.obj e.node =
      ((T.obj e.node).map fun f ↦ (e.deadline, f)).map Prod.snd := by
    cases T.obj e.node <;> rfl
  rw [roster, Roster.tick, Roster.mk.injEq]
  refine ⟨rfl, rfl, filterMap_filter_comm (fun e b hb ↦ ?_) _, ?_⟩
  · obtain ⟨f, -, rfl⟩ := Option.map_eq_some_iff.mp hb
    exact (decide_not ..).symm
  · show ((T.slotNodes slots (slotOf slots T.clock)).reverse ++ T.expired).filterMap T.obj = _
    rw [List.filterMap_append, List.filterMap_reverse, slotNodes, List.filterMap_map,
      roster, ← filterMap_filter_comm (q := fun e ↦ slotOf slots e.deadline = slotOf slots T.clock),
      List.map_filterMap]
    · congr 2
      exact List.filterMap_congr fun e _ ↦ hnode e
    · intro e b hb
      obtain ⟨f, -, rfl⟩ := Option.map_eq_some_iff.mp hb
      rfl

theorem roster_advance (k : Nat) (T : Table Flow) :
    (T.advance slots k).roster last = (T.roster last).advance k := by
  induction k generalizing T with
  | zero => rfl
  | succ k ih => rw [advance, ih, roster_tick]; rfl

theorem roster_settle (hnd : (T.nodes ++ T.expired).Nodup) :
    (T.settle keep).roster last = (T.roster last).settle keep := by
  have hkept : (T.expired.filter (T.kept keep)).filterMap T.obj =
      (T.expired.filterMap T.obj).filter keep :=
    filterMap_filter_comm (fun x f hf ↦ by rw [kept, hf]; rfl) _
  have hobj : (T.settle keep).held.filterMap (fun e ↦
        ((T.settle keep).obj e.node).map fun f ↦ (e.deadline, f)) =
      (T.settle keep).held.filterMap fun e ↦ (T.obj e.node).map fun f ↦ (e.deadline, f) :=
    List.filterMap_congr fun e he ↦ by rw [settle_obj hnd (List.mem_map_of_mem he)]
  rw [roster, Roster.settle, Roster.mk.injEq]
  refine ⟨rfl, rfl, hobj.trans ?_, rfl⟩
  show (((T.expired.filter (T.kept keep)).map fun x ↦ (⟨x, T.clock + timeout⟩ : Entry)).reverse ++
    T.held).filterMap _ = _
  rw [List.filterMap_append, List.filterMap_reverse, List.filterMap_map]
  show _ = (((T.expired.filterMap T.obj).filter keep).map _).reverse ++ _
  rw [← hkept, List.map_filterMap]
  rfl

theorem notice_settle (last : Int) (keep : Flow → Bool) (T : Table Flow) :
    (T.settleActions true keep).filterMap Action.notice = (T.roster last).dropped keep := by
  show (T.expired.flatMap (T.verdict true keep)).filterMap Action.notice =
    ((T.expired.filterMap T.obj).filter fun f ↦ !keep f).map .closed
  induction T.expired with
  | nil => rfl
  | cons x xs ih =>
    rw [List.flatMap_cons, List.filterMap_append, ih, List.filterMap_cons, verdict]
    cases T.obj x with
    | none => rfl
    | some f => cases hk : keep f <;> simp [hk, closing, report, Action.notice]

theorem roster_age (hnd : (T.nodes ++ T.expired).Nodup) (now : Int) :
    (T.roster last).age now = ((T.age now (elapsed last now)).roster now,
      (T.ageActions true now (elapsed last now)).filterMap Action.notice) := by
  have hsettle : (T.age now (elapsed last now)).roster last =
      ((T.roster last).advance (elapsed last now)).settle (activeAt now) := by
    rw [age, roster_settle (advance_nodup hnd), roster_advance]
  rw [ageActions, notice_settle last, roster_advance]
  exact congrArg (fun R : Roster ↦ ({ R with lastTs := now }, _)) hsettle.symm

/-! ## Accepting -/

/-- The flow that the packet finds is the only one that it joins. -/
theorem joins_iff (hd : Distinct T) {p : Property} {x y : Addr} {f k : Flow}
    (hget : T.get p.hashValue p.ssnLabel = some x) (hx : T.obj x = some f) (hy : y ∈ T.nodes)
    (hk : T.obj y = some k) : k.joins p ↔ y = x := by
  obtain ⟨hnode, f', hf', hhash, hkey⟩ := obj_of_get hget
  obtain rfl : f' = f := Option.some.inj (hf'.symm.trans hx)
  rw [Flow.joins, Bool.and_eq_true, decide_eq_true_eq, decide_eq_true_eq]
  constructor
  · rintro ⟨hhash', hkey'⟩
    exact hd y hy x hnode k f' hk hx (hhash'.trans hhash.symm) (hkey'.trans hkey.symm)
  · rintro rfl
    obtain rfl : f' = k := Option.some.inj (hx.symm.trans hk)
    exact ⟨hhash, hkey⟩

theorem mem_roster_held {b : Nat × Flow} :
    b ∈ (T.roster last).held ↔ ∃ e ∈ T.held, T.obj e.node = some b.2 ∧ e.deadline = b.1 := by
  refine List.mem_filterMap.trans (exists_congr fun e ↦ and_congr_right fun _ ↦ ?_)
  rw [Option.map_eq_some_iff]
  constructor
  · rintro ⟨f, hf, rfl⟩
    exact ⟨hf, rfl⟩
  · rintro ⟨hf, hd⟩
    exact ⟨b.2, hf, Prod.ext hd rfl⟩

theorem roster_joined (hexp : T.expired = []) (hd : Distinct T)
    (howned : ∀ x ∈ T.nodes, (T.obj x).isSome) {p : Property} {x : Addr} {f : Flow}
    (hget : T.get p.hashValue p.ssnLabel = some x) (hobj : T.obj x = some f)
    (names : Bytes × Bytes) :
    (T.roster last).accept p names = ((T.new x (f.update p)).roster last, []) := by
  obtain ⟨e, he, rfl⟩ := List.mem_map.mp (obj_of_get hget).1
  have hany : (T.roster last).held.any fun e ↦ e.2.joins p :=
    List.any_eq_true.mpr ⟨(e.deadline, f), mem_roster_held.mpr ⟨e, he, hobj, rfl⟩,
      (joins_iff hd hget hobj (List.mem_map_of_mem he) hobj).mpr rfl⟩
  simp only [Roster.accept, hany, if_true]
  rw [Prod.mk.injEq, roster, Roster.mk.injEq]
  refine ⟨⟨rfl, rfl, ?_, ?_⟩, rfl⟩
  · show (T.held.filterMap _).map _ = T.held.filterMap fun e' ↦
      (Function.update T.obj e.node (some (f.update p)) e'.node).map _
    rw [List.map_filterMap]
    refine List.filterMap_congr fun e' he' ↦ ?_
    have hnode' : e'.node ∈ T.nodes := List.mem_map_of_mem he'
    obtain ⟨k, hk⟩ := Option.isSome_iff_exists.mp (howned _ hnode')
    have hjoins := joins_iff hd hget hobj hnode' hk
    by_cases hx : e'.node = e.node
    · rw [hx, Function.update_self, hobj]
      rw [hx, hobj] at hk
      obtain rfl := Option.some.inj hk
      simp [hjoins.mpr hx]
    · rw [Function.update_of_ne hx, hk]
      simp [mt hjoins.mp hx]
  · show T.expired.filterMap T.obj = T.expired.filterMap _
    rw [hexp]
    rfl

theorem roster_opened (hexp : T.expired = []) (howned : ∀ x ∈ T.nodes, (T.obj x).isSome)
    {p : Property} {x : Addr} (hget : T.get p.hashValue p.ssnLabel = none) (hobj : T.obj x = none)
    (names : Bytes × Bytes) :
    (T.roster last).accept p names =
      ((T.opened x ((Flow.new p names.1 names.2).update p)).roster last,
        [.opened (.new p names.1 names.2)]) := by
  have hany : ¬ (T.roster last).held.any fun e ↦ e.2.joins p := fun hany ↦ by
    obtain ⟨b, hb, hjoins⟩ := List.any_eq_true.mp hany
    obtain ⟨e, he, hf, -⟩ := mem_roster_held.mp hb
    refine absurd ?_ (List.find?_eq_none.mp hget e.node (List.mem_map_of_mem he))
    simpa [hits, hashOf, hf, Flow.joins, NodeClass.hash, NodeClass.isMatch] using hjoins
  have hne : ∀ e ∈ T.held, e.node ≠ x := fun e he hx ↦ by
    have hsome := howned e.node (List.mem_map_of_mem he)
    simp [hx, hobj] at hsome
  simp only [Roster.accept, hany, Bool.false_eq_true, if_false]
  rw [Prod.mk.injEq, roster, Roster.mk.injEq]
  refine ⟨⟨rfl, rfl, ?_, ?_⟩, rfl⟩
  · show _ = List.filterMap (fun e ↦ (Function.update T.obj x
        (some ((Flow.new p names.1 names.2).update p)) e.node).map fun f ↦ (e.deadline, f))
      (⟨x, T.clock + timeout⟩ :: T.held)
    rw [List.filterMap_cons, Function.update_self]
    show _ :: _ = _ :: _
    congr 1
    exact List.filterMap_congr fun e he ↦ by rw [Function.update_of_ne (hne e he)]
  · show T.expired.filterMap T.obj = T.expired.filterMap _
    rw [hexp]
    rfl

theorem roster_accept (last : Int) (hexp : T.expired = []) (hd : Distinct T)
    (howned : ∀ x ∈ T.nodes, (T.obj x).isSome) {p : Property} {src dst : Bytes}
    {accepted : List Action} (hacc : Accepts true p src dst T accepted T') :
    (T.roster last).accept p (src, dst) =
      (T'.roster last, accepted.filterMap Action.notice) := by
  cases hacc with
  | joined hget hobj => exact roster_joined hexp hd howned hget hobj (src, dst)
  | opened hget hobj => exact roster_opened hexp howned hget hobj (src, dst)

end Table

/-! ## Runs -/

theorem notice_isEvent (acts : List Action) :
    (acts.filter Action.isEvent).filterMap Action.notice = acts.filterMap Action.notice := by
  rw [List.filterMap_filter]
  exact List.filterMap_congr fun a _ ↦ by cases a <;> rfl

theorem hasAddrs_of_hosts {db : DnsDB} {p : Property} {names : Bytes × Bytes}
    (h : hosts db p = some names) : p.HasAddrs := by
  rw [hosts] at h
  split at h
  · rename_i hs hd
    exact ⟨by rw [hs]; rfl, by rw [hd]; rfl⟩
  · cases h

/-- The handler stands where the roster does. -/
def Enrolled (ins : List (DnsDB × Property)) (s : FlowHandler) (R : Roster) : Prop :=
  ∃ T, Between (LRUHash.init slots 0 : LRUHash Flow).bucketSize true ins s T ∧
    R = T.roster s.lastTs

/-- The notices are those of the actions. -/
def Noticed (acts : List Action) (notices : List Notice) : Prop :=
  notices = acts.filterMap Action.notice

theorem Enrolled.init : Enrolled [] (.init true) .init :=
  ⟨Table.empty, ⟨.init true, .empty, rfl, Nat.zero_le _⟩, rfl⟩

/-- **A packet does to the handler what it does to its roster.** -/
theorem recv_roster {fuel : Nat} {ins : List (DnsDB × Property)} {s : FlowHandler} {R : Roster}
    (h : Enrolled ins s R) (al : Allocator) (i : DnsDB × Property) (hf : ins.length < fuel) :
    Agreeing (Enrolled (ins ++ [i])) Noticed (FlowHandler.recv al fuel s i) (R.recv i) := by
  obtain ⟨T, ⟨hsound, hdistinct, hout, hlen⟩, rfl⟩ := h
  have hf' : T.held.length < fuel := hlen.trans_lt hf
  cases hhosts : hosts i.1 i.2 with
  | none =>
    obtain ⟨t, due, hdue, -⟩ := checkTimeout_eq hsound hf' i.2.tvSec
    have hrecv : FlowHandler.recv al fuel s i = none := by
      simp [FlowHandler.recv, hdue, hhosts]
    rw [hrecv, Roster.recv, hhosts]
    exact .none
  | some names =>
    obtain ⟨s', acts, src, dst, accepted, T', hrecv, hhosts', hacc, hev, -, hsound', hout', hts⟩ :=
      recv_eq hsound al i.1 (hasAddrs_of_hosts hhosts) hf'
    obtain rfl : names = (src, dst) := Option.some.inj (hhosts.symm.trans hhosts')
    rw [hout] at hacc hev hout'
    have hlen' : T'.held.length ≤ (ins ++ [i]).length := by
      have hheld : (T.age i.2.tvSec (elapsed s.lastTs i.2.tvSec)).held.length ≤ T.held.length :=
        Table.settle_held_length hsound.advance_length.le
      rw [List.length_append, List.length_singleton]
      exact hacc.held_length.trans (Nat.succ_le_succ (hheld.trans hlen))
    have hR : (T.roster s.lastTs).recv i = some (T'.roster s'.lastTs,
        acts.filterMap Action.notice) := by
      have haccept := Table.roster_accept i.2.tvSec rfl (hdistinct.age hsound _ _)
        hsound.age_owned hacc
      have hnotice : acts.filterMap Action.notice =
          (T.ageActions true i.2.tvSec (elapsed s.lastTs i.2.tvSec)).filterMap Action.notice ++
            accepted.filterMap Action.notice := by
        rw [← notice_isEvent, hev, List.filterMap_append]
      rw [Roster.recv, hhosts, Option.map_some, Roster.observe, Table.roster_age hsound.nodup,
        hnotice, hts]
      simp only [haccept]
    rw [hrecv, hR]
    exact .some ⟨T', ⟨hsound', (hdistinct.age hsound _ _).accepts hacc, hout', hlen'⟩, rfl⟩ rfl

section

variable {fuel : Nat}

/-- Every run of the handler is a run of its roster. -/
theorem run_roster (al : Allocator) {ins : List (DnsDB × Property)} (hfuel : ins.length ≤ fuel) :
    Agreeing (Enrolled ins) (List.Forall₂ Noticed)
      (Machine.run (FlowHandler.recv al fuel) (.init true) ins)
      (Machine.run Roster.recv .init ins) := by
  have h : Agreeing (Enrolled ins) (List.Forall₂ Noticed)
      (Machine.run (FlowHandler.recv al fuel) (.init true) ins)
      (Machine.run Roster.recv .init (ins.map id)) := by
    refine Machine.run_lockstep id Enrolled.init (fun is i s R hpre hR ↦ ?_) ins List.prefix_rfl
    have hle := hpre.length_le
    rw [List.length_append, List.length_singleton] at hle
    exact recv_roster hR al i (by omega)
  rwa [List.map_id] at h

theorem noticed_flatten {outs : List (List Action)} {notices : List (List Notice)}
    (h : List.Forall₂ Noticed outs notices) :
    notices.flatten = outs.flatten.filterMap Action.notice := by
  induction h with
  | nil => rfl
  | cons ho _ ih => rw [List.flatten_cons, List.flatten_cons, List.filterMap_append, ih, ho]

/-- The end of the handler is that of its roster. -/
theorem destroy_roster {ins : List (DnsDB × Property)} {s : FlowHandler} {R : Roster}
    (h : Enrolled ins s R) (hf : ins.length < fuel) :
    ∃ s' acts, FlowHandler.destroy fuel s = some (s', acts) ∧ Noticed acts R.destroy := by
  obtain ⟨T, ⟨hsound, -, hout, hlen⟩, rfl⟩ := h
  obtain ⟨s', acts, hdestroy, -, hev⟩ := destroy_advance hsound (hlen.trans_lt hf)
  refine ⟨s', acts, hdestroy, ?_⟩
  rw [Noticed, ← notice_isEvent, hev, hout, Table.notice_settle s.lastTs,
    Table.roster_advance]
  rfl

theorem lifetime_noticed (al : Allocator) {ins : List (DnsDB × Property)}
    (hfuel : ins.length < fuel) :
    Option.Rel Noticed (FlowHandler.lifetime al fuel true ins) (Roster.lifetime ins) := by
  rw [FlowHandler.lifetime, Roster.lifetime]
  rcases agreeing_iff.mp (run_roster al hfuel.le) with
    ⟨hrun, hrun'⟩ | ⟨s, outs, R, notices, hrun, hrun', hR, houts⟩
  · rw [hrun, hrun']
    exact .none
  · obtain ⟨s', acts, hdestroy, hacts⟩ := destroy_roster hR hfuel
    rw [hrun, hrun', Option.map_some]
    simp only [hdestroy, Option.bind_eq_bind, Option.bind_some]
    refine .some ?_
    rw [Noticed, List.filterMap_append, ← hacts, noticed_flatten houts]

theorem notices_of_rel {x : Option (List Action)} {y : Option (List Notice)}
    (h : Option.Rel Noticed x y) : x.map (List.filterMap Action.notice) = y := by
  cases h with
  | none => rfl
  | some h => rw [Option.map_some, ← h]

/-- **What the handler reports is a function of its packets**, with the names known when they came.
It depends neither on where the flows are allocated nor on how they are chained; and it faults for
no other packets than its roster. -/
theorem lifetime_roster (al : Allocator) (fuel : Nat) (ins : List (DnsDB × Property))
    (hfuel : ins.length < fuel) :
    (FlowHandler.lifetime al fuel true ins).map (List.filterMap Action.notice) =
      Roster.lifetime ins := notices_of_rel (lifetime_noticed al hfuel)

theorem lifetime_roster_sample :
    (FlowHandler.lifetime .above 20 true sampleCalls).map (List.filterMap Action.notice) =
      Roster.lifetime sampleCalls :=
  lifetime_roster .above 20 sampleCalls (by decide)

/-- The second packet of the first session closes its flow and opens another one. -/
example : (Roster.lifetime sampleCalls).map (List.map fun
    | .opened f => (f.key, false)
    | .closed f => (f.key, true)) =
      some [([1], false), ([2], false), ([1], true), ([1], false), ([2], true), ([1], true)] := by
  decide +kernel

end

/-! ## The flows of a roster -/

namespace Roster

/-- All flows of the roster. -/
def flows (R : Roster) : List Flow := R.held.map Prod.snd ++ R.expired

variable {R : Roster}

theorem flows_tick : R.tick.flows ⊆ R.flows := by
  intro f hf
  simp only [flows, tick, List.mem_append, List.mem_map, List.mem_filter, List.mem_reverse] at hf ⊢
  rcases hf with ⟨e, ⟨he, -⟩, rfl⟩ | ⟨e, ⟨he, -⟩, rfl⟩ | hf
  · exact .inl ⟨e, he, rfl⟩
  · exact .inl ⟨e, he, rfl⟩
  · exact .inr hf

theorem flows_advance (k : Nat) (R : Roster) : (R.advance k).flows ⊆ R.flows := by
  induction k generalizing R with
  | zero => exact List.Subset.refl _
  | succ k ih => exact List.Subset.trans (ih _) flows_tick

theorem flows_settle {keep : Flow → Bool} : (R.settle keep).flows ⊆ R.flows := by
  intro f hf
  simp only [flows, settle, List.map_append, List.map_reverse, List.map_map, List.mem_append,
    List.mem_reverse, List.mem_map, List.mem_filter, List.not_mem_nil, or_false] at hf ⊢
  rcases hf with ⟨g, ⟨hg, -⟩, rfl⟩ | hf
  · exact .inr hg
  · exact .inl hf

theorem flows_age (now : Int) : (R.age now).1.flows ⊆ R.flows :=
  List.Subset.trans flows_settle (flows_advance ..)

/-- What is known of all flows stays so if it is known of the new ones and kept by updates. -/
theorem forall_accept {P : Flow → Prop} {p : Property} {names : Bytes × Bytes}
    (hR : ∀ f ∈ R.flows, P f) (hnew : P (.new p names.1 names.2))
    (hupdate : ∀ f, P f → P (f.update p)) : ∀ f ∈ (R.accept p names).1.flows, P f := by
  have hheld : ∀ e ∈ R.held, P e.2 := fun e he ↦
    hR _ (List.mem_append_left _ (List.mem_map_of_mem he))
  have hexpired : ∀ f ∈ R.expired, P f := fun f hf ↦ hR f (List.mem_append_right _ hf)
  rw [accept]
  split
  · refine List.forall_mem_append.mpr ⟨?_, hexpired⟩
    rw [List.map_map, List.forall_mem_map]
    intro e he
    show P (if e.2.joins p then e.2.update p else e.2)
    split
    · exact hupdate _ (hheld e he)
    · exact hheld e he
  · refine List.forall_mem_append.mpr ⟨List.forall_mem_cons.mpr ⟨?_, ?_⟩, hexpired⟩
    · exact hupdate _ hnew
    · exact List.forall_mem_map.mpr hheld

theorem forall_dropped {P : Flow → Prop} (hR : ∀ f ∈ R.flows, P f) (keep : Flow → Bool) :
    ∀ n ∈ R.dropped keep, P n.flow := by
  refine List.forall_mem_map.mpr fun f hf ↦ hR f ?_
  exact List.mem_append_right _ (List.mem_of_mem_filter hf)

/-- What is known of all flows is also known of all that is told, if it is known of the new ones and
kept by updates. -/
theorem forall_observe {P : Flow → Prop} {p : Property} {names : Bytes × Bytes}
    (hR : ∀ f ∈ R.flows, P f) (hnew : P (.new p names.1 names.2))
    (hupdate : ∀ f, P f → P (f.update p)) :
    (∀ f ∈ (R.observe p names).1.flows, P f) ∧ ∀ n ∈ (R.observe p names).2, P n.flow := by
  refine ⟨forall_accept (fun f hf ↦ hR f (flows_age _ hf)) hnew hupdate,
    List.forall_mem_append.mpr ⟨?_, ?_⟩⟩
  · exact forall_dropped (fun f hf ↦ hR f (flows_advance _ _ hf)) _
  · show ∀ n ∈ ((R.age p.tvSec).1.accept p names).2, P n.flow
    rw [accept]
    split
    · simp
    · simpa [Notice.flow] using hnew

theorem forall_destroy {P : Flow → Prop} (hR : ∀ f ∈ R.flows, P f) :
    ∀ n ∈ R.destroy, P n.flow :=
  forall_dropped (fun f hf ↦ hR f (flows_advance _ _ hf)) _

end Roster

end DnsHive
