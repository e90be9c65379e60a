import DnsHive.Flow.Transport
import DnsHive.Hive.Capture

/-!
# Comparing two runs of the program

What the program shows of a run is its exit code, what it prints, what the sinks and the Redis
server get, and what it reports of the flows (`Outcome.seen`).  Nothing of this depends on where the
flows are allocated, on the bound on the loops, or on which function of the label the hash is
(`run_determined`).
-/

set_option autoImplicit false

namespace DnsHive

open Msgpack Swarm Machine

/-- The packet with another hash. -/
def Swarm.Property.rehash (H : Bytes → Nat) (p : Property) : Property :=
  { p with hashValue := H p.ssnLabel }

/-- The same packets, with another hash. -/
def Environment.rehash (H : Bytes → Nat) (env : Environment) : Environment :=
  { env with
    source := fun dev arg ↦
      (env.source dev arg).map (List.map fun e ↦ (e.1, e.2.rehash H)) }

/-- What can be seen of a run. -/
def Outcome.seen {σ : Type} (o : Outcome σ) :
    Int × List Bytes × List Record × Option Output × σ :=
  (o.rc, o.cerr, o.trace.filterMap Action.record, o.output, o.server)

/-- The hash is in no record. -/
theorem record_rehash (H H' : Bytes → Nat) (notices : List Notice) :
    (notices.map (Notice.map (Transport.rehash H H').flow)).map Notice.record =
      notices.map Notice.record := by
  rw [List.map_map]
  exact List.map_congr_left fun n _ ↦ by cases n <;> rfl

/-! ## Two hives -/

section Comparison

variable {σ : Type} {c : Codec} {srv : Redis σ} {al al' : Allocator} {fuel fuel' : Nat}
  {env : Environment} {H H' : Bytes → Nat}

/-- After `n` events, the two hives differ in the memory of their handlers and in the hashes at
most. -/
structure Alike (H H' : Bytes → Nat) (n : Nat) (w w' : Hive × σ) : Prop where
  hive : w' = ({ w.1 with ipFlow := w'.1.ipFlow }, w.2)
  flows : ∃ ins ins' R R', Enrolled ins w.1.ipFlow R ∧ Enrolled ins' w'.1.ipFlow R' ∧
    (Transport.rehash H H').Carried R R' ∧ ins.length ≤ n ∧ ins'.length ≤ n

/-- The same records are published. -/
def SameRecords (acts acts' : List Action) : Prop :=
  acts'.filterMap Action.record = acts.filterMap Action.record

theorem sameRecords_flatten {outs outs' : List (List Action)}
    (h : List.Forall₂ SameRecords outs outs') : SameRecords outs.flatten outs'.flatten := by
  induction h with
  | nil => rfl
  | cons ho _ ih =>
    rw [SameRecords, List.flatten_cons, List.flatten_cons, List.filterMap_append,
      List.filterMap_append, ih, ho]

theorem sameRecords_of_notices {acts acts' : List Action} {o o' : List Notice}
    (h : Noticed acts o) (h' : Noticed acts' o')
    (ho : o' = o.map (Notice.map (Transport.rehash H H').flow)) : SameRecords acts acts' := by
  rw [SameRecords, record_notice, record_notice, ← h, ← h', ho, record_rehash]

variable {n : Nat} {w w' : Hive × σ}

/-- The handlers of the two hives do the same. -/
theorem Alike.recv (al al' : Allocator) (h : Alike H H' n w w') (hf : n < fuel)
    (hf' : n < fuel') (db : DnsDB) {p : Property} (hp : p.hashValue = H p.ssnLabel) :
    (w.1.ipFlow.recv al fuel (db, p) = none ∧
      w'.1.ipFlow.recv al' fuel' (db, p.rehash H') = none) ∨
    ∃ s acts s' acts', w.1.ipFlow.recv al fuel (db, p) = some (s, acts) ∧
      w'.1.ipFlow.recv al' fuel' (db, p.rehash H') = some (s', acts') ∧
      SameRecords acts acts' ∧
      ∃ ins ins' R R', Enrolled ins s R ∧ Enrolled ins' s' R' ∧
        (Transport.rehash H H').Carried R R' ∧ ins.length ≤ n + 1 ∧ ins'.length ≤ n + 1 := by
  obtain ⟨ins, ins', R, R', hR, hR', hcarried, hlen, hlen'⟩ := h.flows
  have hone := recv_roster hR al (db, p) (hlen.trans_lt hf)
  have htwo := recv_roster hR' al' (db, p.rehash H') (hlen'.trans_lt hf')
  rcases agreeing_iff.mp (hcarried.recv (i := (db, p)) hp) with
    ⟨hnone, hnone'⟩ | ⟨S, o, S', o', hsome, hsome', hS, ho⟩
  · rw [hnone] at hone
    rw [show R'.recv (db, p.rehash H') = none from hnone'] at htwo
    exact .inl ⟨hone.eq_none, htwo.eq_none⟩
  · rw [hsome] at hone
    rw [show R'.recv (db, p.rehash H') = some (S', o') from hsome'] at htwo
    obtain ⟨s, acts, hrecv, hE, hacts⟩ := hone.eq_some
    obtain ⟨s', acts', hrecv', hE', hacts'⟩ := htwo.eq_some
    refine .inr ⟨s, acts, s', acts', hrecv, hrecv', sameRecords_of_notices hacts hacts' ho,
      _, _, S, S', hE, hE', hS, ?_, ?_⟩
    · simpa using hlen
    · simpa using hlen'

/-- An event is delivered alike. -/
theorem Alike.deliver (c : Codec) (srv : Redis σ) (al al' : Allocator) (h : Alike H H' n w w')
    (hf : n < fuel) (hf' : n < fuel') {e : Event}
    (he : e.1.isPacket → e.2.hashValue = H e.2.ssnLabel) :
    Agreeing (Alike H H' (n + 1)) SameRecords (Hive.deliver c srv al fuel w e)
      (Hive.deliver c srv al' fuel' w' (e.1, e.2.rehash H')) := by
  have hhive := h.hive
  by_cases hpacket : e.1.isPacket
  · simp only [Hive.deliver, hpacket, if_true]
    rw [show w'.1.dnsDb = w.1.dnsDb by rw [hhive]]
    rcases h.recv al al' hf hf' w.1.dnsDb (he hpacket) with
      ⟨hnone, hnone'⟩ | ⟨s, acts, s', acts', hrecv, hrecv', hacts, hflows⟩
    · rw [hnone, hnone']
      exact .none
    · rw [hrecv, hrecv']
      refine .some ⟨?_, hflows⟩ hacts
      rw [hacts, hhive]
      rfl
  · simp only [Hive.deliver, hpacket]
    rw [show w'.1.dnsDb = w.1.dnsDb by rw [hhive], show w'.2 = w.2 by rw [hhive],
      show DnsDB.recv c srv (w.1.dnsDb, w.2) (e.2.rehash H') =
        DnsDB.recv c srv (w.1.dnsDb, w.2) e.2 from rfl]
    cases DnsDB.recv c srv (w.1.dnsDb, w.2) e.2 with
    | none => exact .none
    | some r =>
      obtain ⟨ins, ins', R, R', hR, hR', hcarried, hlen, hlen'⟩ := h.flows
      refine .some ⟨?_, ins, ins', R, R', hR, hR', hcarried, hlen.trans n.le_succ,
        hlen'.trans n.le_succ⟩ rfl
      rw [hhive]
      rfl

/-- Events that come one after the other are delivered alike. -/
theorem Alike.run (c : Codec) (srv : Redis σ) (al al' : Allocator) (h : Alike H H' n w w')
    {es : List Event} (hf : n + es.length ≤ fuel) (hf' : n + es.length ≤ fuel')
    (hhash : ∀ p ∈ packets es, p.hashValue = H p.ssnLabel) :
    Agreeing (Alike H H' (n + es.length)) (List.Forall₂ SameRecords)
      (Machine.run (Hive.deliver c srv al fuel) w es)
      (Machine.run (Hive.deliver c srv al' fuel') w'
        (es.map fun e ↦ (e.1, e.2.rehash H'))) := by
  refine Machine.run_lockstep (R := fun is ↦ Alike H H' (n + is.length)) _ h
    (fun is e w₁ w₁' hpre halike ↦ ?_) es List.prefix_rfl
  have hle := hpre.length_le
  rw [List.length_append, List.length_singleton] at hle ⊢
  refine halike.deliver c srv al al' (by omega) (by omega) fun hpacket ↦ hhash _ ?_
  exact List.mem_map_of_mem (List.mem_filter.mpr ⟨hpre.subset (by simp), hpacket⟩)

end Comparison

/-! ## Two environments -/

namespace Environment

variable (H' : Bytes → Nat) (env : Environment)

theorem source_rehash (dev : Bool) (arg : Bytes) :
    (env.rehash H').source dev arg =
      (env.source dev arg).map (List.map fun e ↦ (e.1, e.2.rehash H')) := rfl

theorem ready_rehash (dev : Bool) (arg : Bytes) :
    (env.rehash H').ready dev arg = env.ready dev arg := by
  rw [ready, ready, source_rehash]
  cases env.source dev arg <;> rfl

theorem reason_rehash (dev : Bool) (arg : Bytes) :
    (env.rehash H').reason dev arg = env.reason dev arg := by
  rw [reason, reason, source_rehash]
  cases env.source dev arg <;> rfl

theorem delivered_rehash (files : List Bytes) :
    (env.rehash H').delivered files =
      (env.delivered files).map fun e ↦ (e.1, e.2.rehash H') := by
  induction files with
  | nil => rfl
  | cons file files ih =>
    rw [delivered, delivered, ih, source_rehash]
    cases env.source false file with
    | error errmsg => rfl
    | ok events => exact List.map_append.symm

theorem progress_rehash (files : List Bytes) :
    (env.rehash H').progress files = env.progress files := by
  induction files with
  | nil => rfl
  | cons file files ih => rw [progress, progress, ih, ready_rehash]

variable (opt : Options)

theorem events_rehash :
    (env.rehash H').events opt = (env.events opt).map fun e ↦ (e.1, e.2.rehash H') := by
  rw [events, events]
  cases opt.interface with
  | some interface =>
    simp only [source_rehash]
    cases env.source true interface <;> rfl
  | none => exact delivered_rehash H' env opt.readFile

/-- Nothing but the events is known of the packets. -/
theorem captured_rehash {σ : Type} :
    captured (σ := σ) ((env.rehash H').failure opt) ((env.rehash H').progressAll opt)
        ((env.rehash H').complete opt) =
      captured (env.failure opt) (env.progressAll opt) (env.complete opt) := by
  simp only [failure, progressAll, complete, funext (reason_rehash H' env false), reason_rehash,
    funext (ready_rehash H' env false), ready_rehash, progress_rehash]

end Environment

section Run

variable {σ : Type}

variable {H H' : Bytes → Nat} {fuel fuel' n : Nat} {w w' : Hive × σ}

/-- The two programs show the same if their hives are alike. -/
theorem Alike.finish (h : Alike H H' n w w') (hf : n < fuel) (hf' : n < fuel')
    {outs outs' : List (List Action)} (houts : List.Forall₂ SameRecords outs outs')
    (errmsg : Option Bytes) (cerr : List Bytes) (ok : Bool) :
    (finish fuel' (captured errmsg cerr ok (w', outs'))).map Outcome.seen =
      (finish fuel (captured errmsg cerr ok (w, outs))).map Outcome.seen := by
  obtain ⟨hhive, ins, ins', R, R', hR, hR', hcarried, hlen, hlen'⟩ := h
  have hacts : SameRecords outs.flatten outs'.flatten := sameRecords_flatten houts
  cases ok with
  | false =>
    have hseen : Outcome.seen (.error (w'.1.withErrmsg errmsg, w'.2) cerr outs'.flatten) =
        Outcome.seen (.error (w.1.withErrmsg errmsg, w.2) cerr outs.flatten) := by
      rw [Outcome.seen, Outcome.error, hacts, hhive]
      rfl
    exact congrArg some hseen
  | true =>
    obtain ⟨s, acts, hdestroy, hnotices⟩ := destroy_roster hR (hlen.trans_lt hf)
    obtain ⟨s', acts', hdestroy', hnotices'⟩ := destroy_roster hR' (hlen'.trans_lt hf')
    have hrest : SameRecords acts acts' :=
      sameRecords_of_notices hnotices hnotices' hcarried.destroy
    have hone := Hive.destroy_eq (h := w.1.withErrmsg errmsg) hdestroy
    have htwo := Hive.destroy_eq (h := w'.1.withErrmsg errmsg) hdestroy'
    simp only [DnsHive.finish, captured, hone, htwo]
    refine congrArg some ?_
    simp only [Outcome.seen, List.filterMap_append, Prod.mk.injEq, true_and]
    refine ⟨by rw [hacts, hrest], ?_, by rw [hhive]⟩
    rw [hrest, hhive]
    rfl

/-- **What can be seen of a run** does not depend on where the flows are allocated, on the bound on
the loops, or on which function of the label the hash is. -/
theorem run_determined (c : Codec) (srv : Redis σ) (al al' : Allocator) (fuel fuel' : Nat)
    (env : Environment) (opt : Options) (st : σ) (H H' : Bytes → Nat)
    (hhash : ∀ p ∈ packets (env.events opt), p.hashValue = H p.ssnLabel)
    (hfuel : (env.events opt).length < fuel) (hfuel' : (env.events opt).length < fuel') :
    (run c srv al' fuel' (env.rehash H') opt st).map Outcome.seen =
      (run c srv al fuel env opt st).map Outcome.seen := by
  cases hversion : opt.version with
  | true => simp [run, hversion]
  | false =>
    have hsame : prepare c srv (env.rehash H') opt st = prepare c srv env opt st := rfl
    rw [run_eq c srv al' fuel' _ hversion, run_eq c srv al fuel _ hversion, hsame]
    cases hprepare : prepare c srv env opt st with
    | none => rfl
    | some r =>
      obtain ⟨w, ok⟩ := r
      cases ok with
      | false => rfl
      | true =>
        have hflow : w.1.ipFlow = FlowHandler.init true := (prepare_ready hprepare).1.ipFlow
        have hstart : Alike H H' 0 w w := by
          refine ⟨rfl, [], [], .init, .init, ?_, ?_, .init, Nat.le_refl 0, Nat.le_refl 0⟩
          · rw [hflow]
            exact .init
          · rw [hflow]
            exact .init
        have hrun := hstart.run c srv al al' ((Nat.zero_add _).trans_le hfuel.le)
          ((Nat.zero_add _).trans_le hfuel'.le) hhash
        rw [← Environment.events_rehash] at hrun
        simp only [Option.bind_some, Bool.not_true, Bool.false_eq_true, if_false, captureAll_run,
          Environment.captured_rehash, Option.bind_map]
        rcases agreeing_iff.mp hrun with
          ⟨hnone, hnone'⟩ | ⟨w₁, outs, w₁', outs', hsome, hsome', halike, houts⟩
        · rw [hnone, hnone']
          rfl
        · rw [hsome, hsome']
          exact halike.finish (by omega) (by omega) houts _ _ _

end Run

/-- Every packet gets the same hash. -/
theorem run_determined_sample :
    (run format Redis.store .above 30 (sampleEnvironment.rehash fun _ ↦ 7) sampleOptions ∅).map
        Outcome.seen =
      (run format Redis.store .above 20 sampleEnvironment sampleOptions ∅).map Outcome.seen :=
  run_determined format Redis.store .above .above 20 30 sampleEnvironment sampleOptions ∅
    (fun _ ↦ (samplePacket [1] 5).hashValue) (fun _ ↦ 7) (by decide) (by decide) (by decide)

end DnsHive
