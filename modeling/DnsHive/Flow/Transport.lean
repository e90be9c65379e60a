import DnsHive.Flow.Roster

/-!
# Other hashes, other times

A `Transport` changes the packets in a way that the handler cannot tell: it finds the same flows,
and lets the same time pass.  Then it reports the same flows, with the change made to them
(`reports_transport`).  There are two of them.

* `Transport.rehash` — the hash may be any function of the label.
* `Transport.shift` — the time may begin at any point.
-/

set_option autoImplicit false

namespace DnsHive

open Swarm FlowHandler Machine

/-- A change of the packets, and what it makes of their flows. -/
structure Transport where
  packet : Property → Property
  flow : Flow → Flow
  /-- The packets that may be changed. -/
  Fits : Property → Prop
  /-- What is known of the flows of such packets. -/
  Suits : Flow → Prop
  new (p : Property) (src dst : Bytes) : flow (.new p src dst) = .new (packet p) src dst
  update (f : Flow) (p : Property) : flow (f.update p) = (flow f).update (packet p)
  hosts (db : DnsDB) (p : Property) : hosts db (packet p) = FlowHandler.hosts db p
  active (f : Flow) (p : Property) : activeAt (packet p).tvSec (flow f) = activeAt p.tvSec f
  elapsed {p q : Property} (hp : Fits p) (hq : Fits q) :
    elapsed (packet p).tvSec (packet q).tvSec = DnsHive.elapsed p.tvSec q.tvSec
  joins {f : Flow} {p : Property} (hf : Suits f) (hp : Fits p) :
    (flow f).joins (packet p) = f.joins p
  suits_new {p : Property} (src dst : Bytes) (hp : Fits p) : Suits (.new p src dst)
  suits_update {f : Flow} (p : Property) (hf : Suits f) : Suits (f.update p)

/-- The flow is another one. -/
def Notice.map (φ : Flow → Flow) : Notice → Notice
  | opened f => opened (φ f)
  | closed f => closed (φ f)

namespace Roster

/-- The flows are others, and so is the time of the last packet. -/
def map (last : Int) (φ : Flow → Flow) (R : Roster) : Roster where
  lastTs := last
  clock := R.clock
  held := R.held.map fun e ↦ (e.1, φ e.2)
  expired := R.expired.map φ

variable {φ : Flow → Flow} {last : Int} {R : Roster}

theorem map_tick (R : Roster) : (R.map last φ).tick = R.tick.map last φ := by
  rw [tick, tick, map, map, Roster.mk.injEq]
  refine ⟨rfl, rfl, ?_, ?_⟩
  · simp [List.filter_map, Function.comp_def]
  · simp [List.filter_map, Function.comp_def]

theorem map_advance (k : Nat) (R : Roster) :
    (R.map last φ).advance k = (R.advance k).map last φ := by
  induction k generalizing R with
  | zero => rfl
  | succ k ih => rw [advance, advance, map_tick, ih]

theorem map_settle {keep keep' : Flow → Bool} (hkeep : ∀ f, keep' (φ f) = keep f) (R : Roster) :
    (R.map last φ).settle keep' = (R.settle keep).map last φ := by
  simp [settle, map, List.filter_map, Function.comp_def, hkeep]

theorem map_dropped {keep keep' : Flow → Bool} (hkeep : ∀ f, keep' (φ f) = keep f) (R : Roster) :
    (R.map last φ).dropped keep' = (R.dropped keep).map (Notice.map φ) := by
  simp [dropped, map, List.filter_map, Function.comp_def, hkeep, Notice.map]

end Roster

/-! ## Transporting a run -/

namespace Transport

variable (t : Transport)

/-- The call with the changed packet. -/
def call (i : DnsDB × Property) : DnsDB × Property := (i.1, t.packet i.2)

/-- One roster is the other one, changed. -/
structure Carried (R R' : Roster) : Prop where
  map : R' = R.map R'.lastTs t.flow
  /-- There has been no packet yet, or the last one was changed. -/
  lastTs : R.lastTs = 0 ∧ R'.lastTs = 0 ∨
    ∃ p, t.Fits p ∧ R.lastTs = p.tvSec ∧ R'.lastTs = (t.packet p).tvSec
  suits : ∀ f ∈ R.flows, t.Suits f

variable {t} {R R' : Roster} {p : Property}

theorem Carried.init : t.Carried .init .init :=
  ⟨rfl, .inl ⟨rfl, rfl⟩, by simp [Roster.init, Roster.flows]⟩

theorem Carried.elapsed (h : t.Carried R R') (hp : t.Fits p) :
    DnsHive.elapsed R'.lastTs (t.packet p).tvSec = DnsHive.elapsed R.lastTs p.tvSec := by
  rcases h.lastTs with ⟨hz, hz'⟩ | ⟨q, hq, hl, hl'⟩
  · rw [hz, hz']
    rfl
  · rw [hl, hl', t.elapsed hq hp]

theorem Carried.age (h : t.Carried R R') (hp : t.Fits p) :
    R'.age (t.packet p).tvSec =
      ((R.age p.tvSec).1.map (t.packet p).tvSec t.flow,
        (R.age p.tvSec).2.map (Notice.map t.flow)) := by
  have hactive (f : Flow) : activeAt (t.packet p).tvSec (t.flow f) = activeAt p.tvSec f :=
    t.active f p
  have hadvance : R'.advance (DnsHive.elapsed R'.lastTs (t.packet p).tvSec) =
      (R.advance (DnsHive.elapsed R.lastTs p.tvSec)).map R'.lastTs t.flow := by
    rw [h.elapsed hp, h.map, Roster.map_advance]
    rfl
  rw [Roster.age, Roster.age, hadvance]
  simp only [Roster.map_settle hactive, Roster.map_dropped hactive]
  rfl

theorem accept_map {last : Int} (hsuits : ∀ f ∈ R.flows, t.Suits f) (hp : t.Fits p)
    (names : Bytes × Bytes) :
    (R.map last t.flow).accept (t.packet p) names =
      ((R.accept p names).1.map last t.flow, (R.accept p names).2.map (Notice.map t.flow)) := by
  have hjoins : ∀ e ∈ R.held, (t.flow e.2).joins (t.packet p) = e.2.joins p := fun e he ↦
    t.joins (hsuits _ (List.mem_append_left _ (List.mem_map_of_mem he))) hp
  have hany : ((R.map last t.flow).held.any fun e ↦ e.2.joins (t.packet p)) =
      R.held.any fun e ↦ e.2.joins p := by
    rw [Roster.map, List.any_map, Bool.eq_iff_iff, List.any_eq_true, List.any_eq_true]
    refine exists_congr fun e ↦ and_congr_right fun he ↦ ?_
    rw [← hjoins e he]
    rfl
  simp only [Roster.accept, hany]
  by_cases hjoin : R.held.any fun e ↦ e.2.joins p
  · simp only [hjoin, if_true]
    rw [Prod.mk.injEq, Roster.map, Roster.map, Roster.mk.injEq]
    refine ⟨⟨rfl, rfl, ?_, rfl⟩, rfl⟩
    rw [List.map_map, List.map_map]
    refine List.map_congr_left fun e he ↦ ?_
    simp only [Function.comp_apply, hjoins e he]
    split
    · rw [t.update]
    · rfl
  · simp only [hjoin]
    simp [Roster.map, Notice.map, t.update, t.new]

theorem suits_accept (hsuits : ∀ f ∈ R.flows, t.Suits f) (hp : t.Fits p) (names : Bytes × Bytes) :
    ∀ f ∈ (R.accept p names).1.flows, t.Suits f :=
  Roster.forall_accept hsuits (t.suits_new names.1 names.2 hp) fun _ hf ↦ t.suits_update p hf

theorem accept_lastTs (names : Bytes × Bytes) : (R.accept p names).1.lastTs = R.lastTs := by
  rw [Roster.accept]
  split <;> rfl

/-- **A changed packet does the same**, to the changed flows. -/
theorem Carried.recv (h : t.Carried R R') {i : DnsDB × Property} (hi : t.Fits i.2) :
    Agreeing t.Carried (fun o o' ↦ o' = o.map (Notice.map t.flow)) (R.recv i)
      (R'.recv (t.call i)) := by
  have hsuits : ∀ f ∈ (R.age i.2.tvSec).1.flows, t.Suits f := fun f hf ↦
    h.suits f (Roster.flows_age _ hf)
  rw [Roster.recv, Roster.recv]
  simp only [call, t.hosts]
  cases FlowHandler.hosts i.1 i.2 with
  | none => exact .none
  | some names =>
    simp only [Option.map_some, Roster.observe, h.age hi, accept_map hsuits hi]
    refine .some ⟨rfl, .inr ⟨i.2, hi, accept_lastTs names, rfl⟩, suits_accept hsuits hi names⟩ ?_
    rw [List.map_append]

theorem Carried.destroy (h : t.Carried R R') : R'.destroy = R.destroy.map (Notice.map t.flow) := by
  rw [h.map, Roster.destroy, Roster.map_advance, Roster.map_dropped fun _ ↦ rfl, Roster.destroy]

end Transport

/-- Every run of the changed packets is the run of the packets, changed. -/
theorem run_transport (t : Transport) {ins : List (DnsDB × Property)}
    (hins : ∀ i ∈ ins, t.Fits i.2) :
    Agreeing t.Carried (List.Forall₂ fun o o' ↦ o' = o.map (Notice.map t.flow))
      (Machine.run Roster.recv .init ins) (Machine.run Roster.recv .init (ins.map t.call)) :=
  Machine.run_lockstep (R := fun _ ↦ t.Carried) t.call .init
    (fun _ i _ _ hpre h ↦ h.recv (hins i (hpre.subset (by simp)))) ins List.prefix_rfl

/-- **What is reported of changed packets** is what is reported of the packets, changed. -/
theorem lifetime_transport (t : Transport) {ins : List (DnsDB × Property)}
    (hins : ∀ i ∈ ins, t.Fits i.2) :
    Roster.lifetime (ins.map t.call) =
      (Roster.lifetime ins).map (List.map (Notice.map t.flow)) := by
  have hflatten {os os' : List (List Notice)}
      (h : List.Forall₂ (fun o o' ↦ o' = o.map (Notice.map t.flow)) os os') :
      os'.flatten = os.flatten.map (Notice.map t.flow) := by
    induction h with
    | nil => rfl
    | cons ho _ ih => rw [List.flatten_cons, List.flatten_cons, List.map_append, ih, ho]
  rw [Roster.lifetime, Roster.lifetime]
  rcases agreeing_iff.mp (run_transport t hins) with
    ⟨hrun, hrun'⟩ | ⟨R, os, R', os', hrun, hrun', hR, hos⟩
  · rw [hrun, hrun']
    rfl
  · rw [hrun, hrun', Option.map_some, Option.map_some, Option.map_some, hR.destroy, hflatten hos,
      List.map_append]

/-! ## The hash -/

namespace Transport

/-- The hash becomes another function of the label. -/
def rehash (H H' : Bytes → Nat) : Transport where
  packet p := { p with hashValue := H' p.ssnLabel }
  flow f := { f with hash := H' f.key }
  Fits p := p.hashValue = H p.ssnLabel
  Suits f := f.hash = H f.key
  new _ _ _ := rfl
  update f p := by rw [Flow.update_eq, Flow.update_eq]
  hosts _ _ := rfl
  active _ _ := rfl
  elapsed _ _ := rfl
  joins {f p} hf hp := by
    simp only [Flow.joins, hf, hp]
    by_cases hkey : f.key = p.ssnLabel <;> simp [hkey]
  suits_new _ _ hp := hp
  suits_update p hf := by rwa [Flow.update_hash, Flow.update_key]

/-- The flow of packets that come so many seconds later. -/
def delay (d : Int) (f : Flow) : Flow :=
  { f with baseTs := f.baseTs + d, lastTs := f.lastTs.map (· + d) }

theorem activeAt_delay (d now : Int) (f : Flow) :
    activeAt (now + d) (delay d f) = activeAt now f := by
  cases hlast : f.lastTs with
  | none => simp [activeAt, delay, hlast]
  | some last =>
    simp only [activeAt, delay, hlast, Option.map_some, Option.any_some, decide_eq_decide]
    omega

theorem elapsed_delay {d last now : Int} (hlast : 0 < last ∧ 0 < last + d) :
    DnsHive.elapsed (last + d) (now + d) = DnsHive.elapsed last now := by
  simp only [DnsHive.elapsed]
  split <;> split <;> omega

/-- The time begins at another point. -/
def shift (d : Int) : Transport where
  packet p := { p with tvSec := p.tvSec + d }
  flow := delay d
  Fits p := 0 < p.tvSec ∧ 0 < p.tvSec + d
  Suits _ := True
  new _ _ _ := rfl
  update f p := by rw [Flow.update_eq, Flow.update_eq]; rfl
  hosts _ _ := rfl
  active f p := activeAt_delay d p.tvSec f
  elapsed hp _ := elapsed_delay hp
  joins _ _ := rfl
  suits_new _ _ _ := trivial
  suits_update _ _ := trivial

end Transport

/-- **Changed packets are reported alike.**  Two handlers, with any allocators: one of them gets
packets and the other one the changed packets.  Both fault, or what the other one reports is what
the one does, changed. -/
theorem reports_transport (t : Transport) (al al' : Allocator) (fuel fuel' : Nat)
    (ins : List (DnsDB × Property)) (hins : ∀ i ∈ ins, t.Fits i.2) (hfuel : ins.length < fuel)
    (hfuel' : ins.length < fuel') :
    (FlowHandler.lifetime al' fuel' true (ins.map t.call)).map (List.filterMap Action.notice) =
      ((FlowHandler.lifetime al fuel true ins).map (List.filterMap Action.notice)).map
        (List.map (Notice.map t.flow)) := by
  have hfuel'' : (ins.map t.call).length < fuel' := by rwa [List.length_map]
  rw [notices_of_rel (lifetime_noticed al hfuel), notices_of_rel (lifetime_noticed al' hfuel''),
    lifetime_transport t hins]

/-- A capture that was made an hour later. -/
theorem reports_transport_sample :
    (FlowHandler.lifetime .above 20 true (sampleCalls.map (Transport.shift 3600).call)).map
        (List.filterMap Action.notice) =
      ((FlowHandler.lifetime .above 20 true sampleCalls).map (List.filterMap Action.notice)).map
        (List.map (Notice.map (Transport.shift 3600).flow)) :=
  reports_transport (.shift 3600) .above .above 20 20 sampleCalls
    (show ∀ i ∈ sampleCalls, 0 < i.2.tvSec ∧ 0 < i.2.tvSec + 3600 by decide) (by decide) (by decide)

end DnsHive
