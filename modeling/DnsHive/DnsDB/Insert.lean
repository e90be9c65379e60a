import DnsHive.DnsDB.Basic

/-!
# One answer

What `DnsDB::insert` does with an answer is said once, as the relation `Effect`: there are three
kinds of answers, and each call is one of them and does not fail (`insert_effect`).
-/

set_option autoImplicit false

namespace DnsHive

open Msgpack

/-! ## The maps -/

theorem StdMap.lookup_insertNew (m : StdMap) (key value k : Bytes) :
    (m.insertNew key value).lookup k = if k = key then (m.lookup key).or (some value)
      else m.lookup k := by
  rw [insertNew]
  by_cases hkey : key ∈ m
  · obtain ⟨old, hold⟩ := Finmap.mem_iff.mp hkey
    rw [if_pos hkey]
    split
    next hk => rw [hk, hold, Option.some_or]
    next => rfl
  · have hnone : m.lookup key = none := Finmap.lookup_eq_none.mpr hkey
    rw [if_neg hkey]
    split
    next hk => rw [hk, Finmap.lookup_insert, hnone, Option.none_or]
    next hk => rw [Finmap.lookup_insert_of_ne m hk]

/-! ## Answers -/

namespace Answer

/-- The fields of what is packed for Redis. -/
def fields (r : Answer) : List (Scalar × Scalar) :=
  [(.raw (lit "ts"), .double r.ts), (.raw (lit "src"), .raw r.dstAddr),
    (.raw (lit "type"), .raw r.type), (.raw (lit "name"), .raw r.name),
    (.raw (lit "addr"), .raw r.addr)]

/-- The fields of the event that is published. -/
def event (kind : Bytes) (r : Answer) : List (Scalar × Scalar) :=
  [(.raw (lit "event"), .raw kind), (.raw (lit "ts"), .double r.ts),
    (.raw (lit "src"), .raw r.dstAddr), (.raw (lit "type"), .raw r.type),
    (.raw (lit "name"), .raw r.name), (.raw (lit "res"), .raw r.addr)]

/-- The key under which an address is recorded.  There is none if the answer carries no address, or
no data. -/
def key (r : Answer) : Option Bytes :=
  if r.IsAddress then r.ptr.map fun ptr ↦ ptr.toBytes r.len else none

theorem record_eq (r : Answer) : r.record = packed r.fields := rfl

theorem IsCname.not_isAddress {r : Answer} (h : r.IsCname) : ¬ r.IsAddress := by
  rw [IsAddress, h]
  decide

theorem key_of_ptr (r : Answer) {ptr : VoidPtr} (hptr : r.ptr = some ptr)
    (hr : r.IsAddress) : r.key = some (ptr.toBytes r.len) := by
  rw [key, if_pos hr, hptr]
  rfl

theorem ptr_of_key (r : Answer) {k : Bytes} (hkey : r.key = some k) : r.ptr.isSome := by
  rw [key] at hkey
  split at hkey
  · cases hptr : r.ptr <;> simp [hptr] at hkey ⊢
  · simp at hkey

theorem isAddress_of_key (r : Answer) {k : Bytes} (hkey : r.key = some k) : r.IsAddress := by
  by_contra ha
  simp [key, ha] at hkey

theorem dnsAnswer_address (r : Answer) (hr : r.IsAddress) :
    Output.dnsAnswer r.ts r.name r.type r.addr r.dstAddr =
      some (packed (r.event (lit "dns:address"))) := by
  have hr' : r.type = lit "A" ∨ r.type = lit "AAAA" := hr
  rw [Output.dnsAnswer, if_pos hr']
  rfl

theorem dnsAnswer_cname (r : Answer) (hr : r.IsCname) :
    Output.dnsAnswer r.ts r.name r.type r.addr r.dstAddr =
      some (packed (r.event (lit "dns:cname"))) := by
  have hr' : r.type = lit "CNAME" := hr
  have hna : ¬ (r.type = lit "A" ∨ r.type = lit "AAAA") := hr.not_isAddress
  rw [Output.dnsAnswer, if_neg hna, if_pos hr']
  rfl

end Answer

/-! ## The call -/

variable {σ : Type} {c : Codec} {srv : Redis σ}

/-- What a call of `DnsDB::insert` can do. -/
inductive Effect (c : Codec) (srv : Redis σ) (w : DnsDB × σ) (r : Answer) :
    DnsDB × σ → List Record → Prop
  /-- There is no data, or it is of no interest. -/
  | ignored : ¬ (r.ptr.isSome ∧ (r.IsAddress ∨ r.IsCname)) → Effect c srv w r w []
  | aliased : r.ptr.isSome → r.IsCname →
    Effect c srv w r ({ w.1 with cnameMap := w.1.cnameMap.insertNew r.addr r.name }, w.2)
      (if w.1.output then [packed (r.event (lit "dns:cname"))] else [])
  | recorded {k : Bytes} : r.IsAddress → r.key = some k →
    Effect c srv w r
      ({ w.1 with revMap := w.1.revMap.insertNew k r.name },
        if w.1.redisCtx then (srv.command w.2 (.lpush k (c.pack r.record))).1 else w.2)
      (if w.1.output then [packed (r.event (lit "dns:address"))] else [])

/-- A call has one of the effects, as long as Redis answers the command it sends, if it sends
one. -/
theorem effect_of_reply (c : Codec) (srv : Redis σ) (w : DnsDB × σ) (r : Answer)
    (hreply : w.1.redisCtx → ∀ k, r.key = some k →
      (srv.command w.2 (.lpush k (c.pack r.record))).2.isSome) :
    ∃ w' events, DnsDB.insert c srv w r = some (w', events) ∧ Effect c srv w r w' events := by
  obtain ⟨db, st⟩ := w
  cases hptr : r.ptr with
  | none => exact ⟨(db, st), [], by simp [DnsDB.insert, hptr], .ignored (by simp [hptr])⟩
  | some ptr =>
    by_cases ha : r.IsAddress
    · have hc : ¬ r.IsCname := fun hc ↦ hc.not_isAddress ha
      have hkey := r.key_of_ptr hptr ha
      have hevent := r.dnsAnswer_address ha
      refine ⟨_, _, ?_, .recorded ha hkey⟩
      by_cases hredis : db.redisCtx
      · obtain ⟨com, hcom⟩ := Option.isSome_iff_exists.mp (hreply hredis _ hkey)
        cases hout : db.output <;> simp [DnsDB.insert, hptr, ha, hc, hredis, hcom, hout, hevent]
      · cases hout : db.output <;> simp [DnsDB.insert, hptr, ha, hc, hredis, hout, hevent]
    · by_cases hc : r.IsCname
      · refine ⟨_, _, ?_, .aliased (by simp [hptr]) hc⟩
        have hevent := r.dnsAnswer_cname hc
        cases hout : db.output <;> simp [DnsDB.insert, hptr, ha, hc, hout, hevent]
      · exact ⟨(db, st), [], by simp [DnsDB.insert, hptr, ha, hc], .ignored (by simp [ha, hc])⟩

/-- **A call has one of the effects**, as long as Redis answers. -/
theorem insert_effect (c : Codec) (srv : Redis σ) (w : DnsDB × σ) (r : Answer)
    (hreply : w.1.redisCtx → ∀ k v, (srv.command w.2 (.lpush k v)).2.isSome) :
    ∃ w' events, DnsDB.insert c srv w r = some (w', events) ∧ Effect c srv w r w' events :=
  effect_of_reply c srv w r fun hredis k _ ↦ hreply hredis k _

/-- A call that returns has one of the effects. -/
theorem effect_of_insert {w w' : DnsDB × σ} {r : Answer} {events : List Record}
    (h : DnsDB.insert c srv w r = some (w', events)) : Effect c srv w r w' events := by
  have hreply : w.1.redisCtx → ∀ k, r.key = some k →
      (srv.command w.2 (.lpush k (c.pack r.record))).2.isSome := by
    intro hredis k hkey
    by_contra hnone
    obtain ⟨ptr, hptr⟩ := Option.isSome_iff_exists.mp (r.ptr_of_key hkey)
    have ha := r.isAddress_of_key hkey
    have hc : ¬ r.IsCname := fun hc ↦ hc.not_isAddress ha
    obtain rfl : k = ptr.toBytes r.len := Option.some.inj (hkey.symm.trans (r.key_of_ptr hptr ha))
    -- `freeReplyObject` would follow a null pointer
    have hcom := Option.not_isSome_iff_eq_none.mp hnone
    simp [DnsDB.insert, hptr, ha, hc, hredis, hcom] at h
  obtain ⟨w₁, events₁, hcall, heffect⟩ := effect_of_reply c srv w r hreply
  obtain ⟨rfl, rfl⟩ := Prod.mk.inj (Option.some.inj (h.symm.trans hcall))
  exact heffect

namespace Effect

variable {w w' : DnsDB × σ} {r : Answer} {events : List Record}

/-- The connections stay as they are. -/
theorem redisCtx (h : Effect c srv w r w' events) : w'.1.redisCtx = w.1.redisCtx := by
  cases h <;> rfl

theorem output (h : Effect c srv w r w' events) : w'.1.output = w.1.output := by
  cases h <;> rfl

end Effect

/-- The answers of a packet are taken, as long as Redis answers. -/
theorem recv_isSome (c : Codec) (srv : Redis σ) (w : DnsDB × σ) (p : Swarm.Property)
    (hreply : w.1.redisCtx → ∀ st k v, (srv.command st (.lpush k v)).2.isSome) :
    ∃ w' records, DnsDB.recv c srv w p = some (w', records) ∧ w'.1.redisCtx = w.1.redisCtx := by
  have hstep : ∀ (w' : DnsDB × σ) (r : Answer), w'.1.redisCtx = w.1.redisCtx → True →
      ∃ w'' events, DnsDB.insert c srv w' r = some (w'', events) ∧ True ∧
        w''.1.redisCtx = w.1.redisCtx := by
    intro w' r hw' _
    obtain ⟨w'', events, hcall, heffect⟩ :=
      insert_effect c srv w' r fun h ↦ hreply (hw' ▸ h) w'.2
    exact ⟨w'', events, hcall, trivial, heffect.redisCtx.trans hw'⟩
  have hall : ∀ r ∈ DnsDB.answers p, True := fun _ _ ↦ trivial
  obtain ⟨w', outs, hrun, -, hw'⟩ :=
    Machine.run_runs (R := fun _ _ _ _ ↦ True) hstep (s := w) rfl hall
  exact ⟨w', outs.flatten, by simp [DnsDB.recv, hrun], hw'⟩

end DnsHive
