import DnsHive.DnsDB.Insert
import DnsHive.Lib.MsgpackStream

/-!
# Memory, Redis and the events tell one story

An answer reaches three sinks with different rules: the map in memory keeps the first name of an
address, the list in Redis keeps all records with the newest first, and an event is published for
each answer.  `Agree` is what holds between the first two: the name in memory is the one in the
oldest record.  Every call of `DnsDB::insert` keeps the agreement, and publishes what it records
(`insert_agreement`).
-/

set_option autoImplicit false

namespace DnsHive

open Msgpack

section

variable {σ : Type} {c : Codec} {srv : Redis σ} {lists : σ → Bytes → List Bytes}

/-- What is read back of a record is the name in it. -/
theorem recordName_of_inverts {r : Answer} (h : c.Inverts r.fields) :
    DnsDB.recordName c (c.pack r.record) = some (some r.name) := by
  rw [Codec.Inverts] at h
  rw [Answer.record_eq, DnsDB.recordName, h]
  rfl

/-- The names in memory are those of the oldest records, and every address has both. -/
structure Agree (c : Codec) (revMap : StdMap) (lists : Bytes → List Bytes) : Prop where
  keys : ∀ k, k ∈ revMap ↔ lists k ≠ []
  names : ∀ k buf, (lists k).getLast? = some buf →
    ∃ name, DnsDB.recordName c buf = some (some name) ∧ revMap.lookup k = some name

theorem Agree.empty {f : Bytes → List Bytes} (hf : ∀ k, f k = []) : Agree c ∅ f := by
  refine ⟨fun k ↦ ⟨fun hk ↦ absurd hk Finmap.notMem_empty, fun hk ↦ absurd (hf k) hk⟩, ?_⟩
  intro k buf hbuf
  simp [hf k] at hbuf

/-- One more record at the head of a list: the name counts if it is the first one there. -/
theorem Agree.push {revMap : StdMap} {f : Bytes → List Bytes} (h : Agree c revMap f) (key : Bytes)
    {r : Answer} (hcodec : c.Inverts r.fields) :
    Agree c (revMap.insertNew key r.name) (Function.update f key (c.pack r.record :: f key)) := by
  refine ⟨fun k ↦ ?_, fun k buf hbuf ↦ ?_⟩
  · rw [← Finmap.lookup_isSome, StdMap.lookup_insertNew]
    by_cases hk : k = key
    · subst hk
      simp
    · rw [if_neg hk, Function.update_of_ne hk, Finmap.lookup_isSome, h.keys k]
  · rw [StdMap.lookup_insertNew]
    by_cases hk : k = key
    · subst hk
      rw [Function.update_self] at hbuf
      rw [if_pos rfl]
      by_cases hnil : f k = []
      · -- the first record of this address
        have hnone : revMap.lookup k = none := by
          rw [Finmap.lookup_eq_none, h.keys k, not_not]
          exact hnil
        rw [hnil, List.getLast?_singleton, Option.some_inj] at hbuf
        subst hbuf
        exact ⟨r.name, recordName_of_inverts hcodec, by rw [hnone, Option.none_or]⟩
      · rw [List.getLast?_cons_of_ne_nil hnil] at hbuf
        obtain ⟨name, hname, hlookup⟩ := h.names k buf hbuf
        exact ⟨name, hname, by rw [hlookup, Option.some_or]⟩
    · rw [Function.update_of_ne hk] at hbuf
      rw [if_neg hk]
      exact h.names k buf hbuf

/-- **A call keeps memory and Redis in agreement.** -/
theorem Effect.agree {w w' : DnsDB × σ} {r : Answer} {events : List Record}
    (h : Effect c srv w r w' events) (hsrv : srv.Lawful lists) (hredis : w.1.redisCtx)
    (hcodec : c.Inverts r.fields) (hagree : Agree c w.1.revMap (lists w.2)) :
    Agree c w'.1.revMap (lists w'.2) := by
  cases h with
  | ignored => exact hagree
  | aliased => exact hagree
  | @recorded k ha hkey =>
    rw [if_pos hredis, hsrv.lpush_lists]
    exact hagree.push k hcodec

/-- What a call does to the three sinks. -/
structure Told (c : Codec) (srv : Redis σ) (lists : σ → Bytes → List Bytes) (w : DnsDB × σ)
    (r : Answer) (events : List Record) (w' : DnsDB × σ) : Prop where
  call : DnsDB.insert c srv w r = some (w', events)
  agree : Agree c w'.1.revMap (lists w'.2)
  /-- An address is pushed to its list, and to no other. -/
  address : ∀ ptr, r.ptr = some ptr → r.IsAddress →
    lists w'.2 = Function.update (lists w.2) (ptr.toBytes r.len)
      (c.pack (packed r.fields) :: lists w.2 (ptr.toBytes r.len)) ∧
    events = [packed (r.event (lit "dns:address"))]
  cname : r.ptr.isSome → r.IsCname → w'.1.revMap = w.1.revMap ∧ w'.2 = w.2 ∧
    events = [packed (r.event (lit "dns:cname"))]
  other : ¬ (r.ptr.isSome ∧ (r.IsAddress ∨ r.IsCname)) → w' = w ∧ events = []

theorem Effect.told {w w' : DnsDB × σ} {r : Answer} {events : List Record}
    (h : Effect c srv w r w' events) (hcall : DnsDB.insert c srv w r = some (w', events))
    (hsrv : srv.Lawful lists) (hredis : w.1.redisCtx) (hout : w.1.output)
    (hagree : Agree c w'.1.revMap (lists w'.2)) : Told c srv lists w r events w' := by
  cases h with
  | ignored hr =>
    refine ⟨hcall, hagree, fun ptr hptr ha ↦ ?_, fun hptr hc ↦ ?_, fun _ ↦ ⟨rfl, rfl⟩⟩
    · exact absurd ⟨by simp [hptr], .inl ha⟩ hr
    · exact absurd ⟨hptr, .inr hc⟩ hr
  | aliased hptr hc =>
    refine ⟨hcall, hagree, fun _ _ ha ↦ ?_, fun _ _ ↦ ⟨rfl, rfl, if_pos hout⟩, fun hr ↦ ?_⟩
    · exact absurd ha hc.not_isAddress
    · exact absurd ⟨hptr, .inr hc⟩ hr
  | @recorded k ha hkey =>
    refine ⟨hcall, hagree, fun ptr hp _ ↦ ?_, fun _ hc ↦ ?_, fun hr ↦ ?_⟩
    · obtain rfl : k = ptr.toBytes r.len :=
        Option.some.inj (hkey.symm.trans (r.key_of_ptr hp ha))
      refine ⟨?_, if_pos hout⟩
      rw [if_pos hredis, hsrv.lpush_lists, r.record_eq]
    · exact absurd ha hc.not_isAddress
    · exact absurd ⟨r.ptr_of_key hkey, .inl ha⟩ hr

/-- **Memory, Redis and the event stream agree.**  From any agreement, for any answers: no call
fails, after every call memory and Redis agree again, and an answer is recorded and published
exactly if it carries an address or an alias, and data. -/
theorem insert_agreement (c : Codec) (srv : Redis σ) (lists : σ → Bytes → List Bytes)
    (hsrv : srv.Lawful lists) (db : DnsDB) (st : σ) (hredis : db.redisCtx) (hout : db.output)
    (hagree : Agree c db.revMap (lists st)) (rs : List Answer)
    (hcodec : ∀ r ∈ rs, c.Inverts r.fields) :
    ∃ w outs, Machine.run (DnsDB.insert c srv) (db, st) rs = some (w, outs) ∧
      Machine.Runs (Told c srv lists) (db, st) rs outs w := by
  have hstep : ∀ (w : DnsDB × σ) (r : Answer),
      (w.1.redisCtx ∧ w.1.output ∧ Agree c w.1.revMap (lists w.2)) → c.Inverts r.fields →
      ∃ w' events, DnsDB.insert c srv w r = some (w', events) ∧
        Told c srv lists w r events w' ∧
        w'.1.redisCtx ∧ w'.1.output ∧ Agree c w'.1.revMap (lists w'.2) := by
    rintro w r ⟨hredis, hout, hagree⟩ hr
    obtain ⟨w', events, hcall, heffect⟩ := insert_effect c srv w r fun _ ↦ hsrv.lpush_reply w.2
    have hagree' := heffect.agree hsrv hredis hr hagree
    exact ⟨w', events, hcall, heffect.told hcall hsrv hredis hout hagree',
      heffect.redisCtx ▸ hredis, heffect.output ▸ hout, hagree'⟩
  obtain ⟨w, outs, hrun, hruns, -⟩ :=
    Machine.run_runs hstep (s := (db, st)) ⟨hredis, hout, hagree⟩ hcodec
  exact ⟨w, outs, hrun, hruns⟩

end

/-- An answer at the address of four times the byte `b`, for concrete runs. -/
def sampleAnswer (type name : String) (b : UInt8) : Answer where
  name := lit name
  type := lit type
  addr := lit "addr"
  ptr := some fun _ ↦ b
  len := 4
  ts := 0
  dstAddr := lit "10.0.0.1"

/-- Two names of one address, an alias, a type that is not recorded, and no data. -/
def sampleAnswers : List Answer :=
  [sampleAnswer "A" "a.example." 1, sampleAnswer "A" "b.example." 1,
    sampleAnswer "CNAME" "c.example." 1, sampleAnswer "MX" "d.example." 1,
    { sampleAnswer "AAAA" "e.example." 2 with ptr := none }]

theorem sampleAnswers_inverts : ∀ r ∈ sampleAnswers, format.Inverts r.fields := by
  have hfits : ∀ r ∈ sampleAnswers, MapFits r.fields := by decide
  exact fun r hr ↦ format_inverts (hfits r hr)

theorem insert_agreement_sample :
    ∃ w outs, Machine.run (DnsDB.insert format Redis.store)
        ({ DnsDB.init with redisCtx := true, output := true }, ∅) sampleAnswers = some (w, outs) ∧
      Machine.Runs (Told format Redis.store Redis.Store.lists)
        ({ DnsDB.init with redisCtx := true, output := true }, ∅) sampleAnswers outs w :=
  insert_agreement format Redis.store Redis.Store.lists Redis.store_lawful _ ∅ rfl rfl
    (.empty fun _ ↦ rfl) sampleAnswers sampleAnswers_inverts

end DnsHive
