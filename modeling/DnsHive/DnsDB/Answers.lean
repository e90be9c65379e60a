import DnsHive.DnsDB.Agreement

/-!
# Many answers

Both maps keep the first name of a key, and each list in Redis keeps all records.  So what answers
leave behind can be read off their sequence, key by key: `Learned` for the maps, and `pushed_lists`
for Redis.
-/

set_option autoImplicit false

namespace DnsHive

open Msgpack

/-- The name that the answer gives another one for.  There is none if the answer carries no alias,
or no data. -/
def Answer.alias (r : Answer) : Option Bytes :=
  if r.IsCname ∧ r.ptr.isSome then some r.addr else none

/-- The answers of which `f` is `k`. -/
def about (f : Answer → Option Bytes) (rs : List Answer) (k : Bytes) : List Answer :=
  rs.filter fun r ↦ f r = some k

/-- The name in the first of the answers of which `f` is `k`. -/
def firstName (f : Answer → Option Bytes) (rs : List Answer) (k : Bytes) : Option Bytes :=
  ((about f rs k).map Answer.name).head?

theorem about_concat (f : Answer → Option Bytes) (rs : List Answer) (r : Answer) (k : Bytes) :
    about f (rs ++ [r]) k = about f rs k ++ if f r = some k then [r] else [] := by
  rw [about, List.filter_append, about]
  by_cases hk : f r = some k <;> simp [hk]

theorem firstName_concat (f : Answer → Option Bytes) (rs : List Answer) (r : Answer) (k : Bytes) :
    firstName f (rs ++ [r]) k =
      (firstName f rs k).or (if f r = some k then some r.name else none) := by
  rw [firstName, about_concat, List.map_append, List.head?_append, firstName]
  by_cases hk : f r = some k <;> simp [hk]

theorem firstName_append (f : Answer → Option Bytes) (rs rs' : List Answer) (k : Bytes) :
    firstName f (rs ++ rs') k = (firstName f rs k).or (firstName f rs' k) := by
  rw [firstName, about, List.filter_append, List.map_append, List.head?_append]
  rfl

/-! ## One answer -/

/-- A key that is there keeps its value. -/
theorem StdMap.lookup_insertNew_or (m : StdMap) (key value k : Bytes) :
    (m.insertNew key value).lookup k = (m.lookup k).or (if key = k then some value else none) := by
  rw [lookup_insertNew]
  by_cases hk : k = key
  · rw [hk, if_pos rfl, if_pos rfl]
  · rw [if_neg hk, if_neg (Ne.symm hk), Option.or_none]

variable {σ : Type} {c : Codec} {srv : Redis σ} {lists : σ → Bytes → List Bytes}

namespace Effect

variable {w w' : DnsDB × σ} {r : Answer} {events : List Record}

theorem revMap_lookup (h : Effect c srv w r w' events) (k : Bytes) :
    w'.1.revMap.lookup k =
      (w.1.revMap.lookup k).or (if r.key = some k then some r.name else none) := by
  cases h with
  | ignored hr =>
    have hkey : r.key ≠ some k := fun hkey ↦
      hr ⟨r.ptr_of_key hkey, .inl (r.isAddress_of_key hkey)⟩
    rw [if_neg hkey, Option.or_none]
  | aliased hptr hc =>
    have hkey : r.key ≠ some k := fun hkey ↦ hc.not_isAddress (r.isAddress_of_key hkey)
    rw [if_neg hkey, Option.or_none]
  | @recorded key ha hkey => simp only [hkey, StdMap.lookup_insertNew_or, Option.some_inj]

theorem cnameMap_lookup (h : Effect c srv w r w' events) (target : Bytes) :
    w'.1.cnameMap.lookup target =
      (w.1.cnameMap.lookup target).or (if r.alias = some target then some r.name else none) := by
  cases h with
  | ignored hr =>
    have hnone : ¬ (r.IsCname ∧ r.ptr.isSome) := fun hc ↦ hr ⟨hc.2, .inr hc.1⟩
    simp [Answer.alias, hnone]
  | aliased hptr hc =>
    have halias : r.alias = some r.addr := if_pos ⟨hc, hptr⟩
    simp only [halias, StdMap.lookup_insertNew_or, Option.some_inj]
  | recorded ha hkey =>
    have hnone : ¬ (r.IsCname ∧ r.ptr.isSome) := fun hc ↦ hc.1.not_isAddress ha
    simp [Answer.alias, hnone]

theorem lists_eq (h : Effect c srv w r w' events) (hsrv : srv.Lawful lists)
    (hredis : w.1.redisCtx) (k : Bytes) :
    lists w'.2 k = (if r.key = some k then [c.pack r.record] else []) ++ lists w.2 k := by
  cases h with
  | ignored hr =>
    have hkey : r.key ≠ some k := fun hkey ↦
      hr ⟨r.ptr_of_key hkey, .inl (r.isAddress_of_key hkey)⟩
    rw [if_neg hkey, List.nil_append]
  | aliased hptr hc =>
    have hkey : r.key ≠ some k := fun hkey ↦ hc.not_isAddress (r.isAddress_of_key hkey)
    rw [if_neg hkey, List.nil_append]
  | @recorded key ha hkey =>
    rw [if_pos hredis, hsrv.lpush_lists, hkey]
    by_cases hk : k = key
    · simp [hk]
    · simp [hk, Ne.symm hk]

end Effect

/-! ## Sequences of answers -/

/-- The answers `rs` have been taken, one after the other. -/
abbrev Taken (c : Codec) (srv : Redis σ) : DnsDB × σ → List Answer → List (List Record) →
    DnsDB × σ → Prop :=
  Machine.Runs fun w r events w' ↦ Effect c srv w r w' events

theorem taken_of_run {w w' : DnsDB × σ} {rs : List Answer} {outs : List (List Record)}
    (h : Machine.run (DnsDB.insert c srv) w rs = some (w', outs)) : Taken c srv w rs outs w' :=
  Machine.runs_of_run (fun _ _ _ _ ↦ effect_of_insert) h

/-- Answers are taken, as long as Redis answers. -/
theorem taken_isSome (c : Codec) (srv : Redis σ) (w : DnsDB × σ) (rs : List Answer)
    (hreply : w.1.redisCtx → ∀ st k v, (srv.command st (.lpush k v)).2.isSome) :
    ∃ w' outs, Machine.run (DnsDB.insert c srv) w rs = some (w', outs) ∧
      Taken c srv w rs outs w' := by
  have hstep : ∀ (w' : DnsDB × σ) (r : Answer), w'.1.redisCtx = w.1.redisCtx → True →
      ∃ w'' events, DnsDB.insert c srv w' r = some (w'', events) ∧ Effect c srv w' r w'' events ∧
        w''.1.redisCtx = w.1.redisCtx := by
    intro w' r hw' _
    obtain ⟨w'', events, hcall, heffect⟩ :=
      insert_effect c srv w' r fun h ↦ hreply (hw' ▸ h) w'.2
    exact ⟨w'', events, hcall, heffect, heffect.redisCtx.trans hw'⟩
  have hall : ∀ r ∈ rs, True := fun _ _ ↦ trivial
  obtain ⟨w', outs, hrun, htaken, -⟩ := Machine.run_runs hstep (s := w) rfl hall
  exact ⟨w', outs, hrun, htaken⟩

/-- What is known after the answers `rs`. -/
structure Learned (db : DnsDB) (rs : List Answer) (db' : DnsDB) : Prop where
  redisCtx : db'.redisCtx = db.redisCtx
  revMap : ∀ k, db'.revMap.lookup k = (db.revMap.lookup k).or (firstName Answer.key rs k)
  cnameMap : ∀ target,
    db'.cnameMap.lookup target = (db.cnameMap.lookup target).or (firstName Answer.alias rs target)

theorem Learned.nil (db : DnsDB) : Learned db [] db :=
  ⟨rfl, fun _ ↦ (Option.or_none).symm, fun _ ↦ (Option.or_none).symm⟩

theorem Learned.append {db db' db'' : DnsDB} {rs rs' : List Answer} (h : Learned db rs db')
    (h' : Learned db' rs' db'') : Learned db (rs ++ rs') db'' where
  redisCtx := h'.redisCtx.trans h.redisCtx
  revMap k := by rw [h'.revMap, h.revMap, Option.or_assoc, firstName_append]
  cnameMap target := by rw [h'.cnameMap, h.cnameMap, Option.or_assoc, firstName_append]

theorem Learned.of_effect {w w' : DnsDB × σ} {r : Answer} {events : List Record}
    (h : Effect c srv w r w' events) : Learned w.1 [r] w'.1 where
  redisCtx := h.redisCtx
  revMap k := by rw [h.revMap_lookup, ← List.nil_append [r], firstName_concat]; rfl
  cnameMap target := by rw [h.cnameMap_lookup, ← List.nil_append [r], firstName_concat]; rfl

/-- **What the answers leave in memory.** -/
theorem Learned.of_taken {w w' : DnsDB × σ} {rs : List Answer} {outs : List (List Record)}
    (h : Taken c srv w rs outs w') : Learned w.1 rs w'.1 := by
  induction h with
  | nil => exact .nil w.1
  | snoc _ heffect ih => exact ih.append (.of_effect heffect)

/-- **What the answers leave in Redis**: all records of a key, the newest first. -/
theorem pushed_lists {w w' : DnsDB × σ} {rs : List Answer} {outs : List (List Record)}
    (hsrv : srv.Lawful lists) (hredis : w.1.redisCtx) (h : Taken c srv w rs outs w') (k : Bytes) :
    lists w'.2 k =
      ((about Answer.key rs k).map fun r ↦ c.pack r.record).reverse ++ lists w.2 k := by
  induction h with
  | nil => rfl
  | @snoc rs outs w₁ w₂ r events hruns heffect ih =>
    have hredis₁ : w₁.1.redisCtx := (Learned.of_taken hruns).redisCtx ▸ hredis
    rw [heffect.lists_eq hsrv hredis₁, ih, about_concat]
    by_cases hk : r.key = some k <;> simp [hk]

/-! ## Packets of answers -/

/-- What a packet of answers does is what its answers do. -/
theorem recv_eq_run (c : Codec) (srv : Redis σ) (w w' : DnsDB × σ) (p : Swarm.Property)
    (records : List Record) :
    DnsDB.recv c srv w p = some (w', records) ↔
      ∃ outs, Machine.run (DnsDB.insert c srv) w (DnsDB.answers p) = some (w', outs) ∧
        records = outs.flatten := by
  rw [DnsDB.recv]
  cases Machine.run (DnsDB.insert c srv) w (DnsDB.answers p) <;>
    simp [and_assoc, Prod.ext_iff, eq_comm]

/-- The answers of packets are taken one after the other. -/
theorem run_recv {w w' : DnsDB × σ} {ps : List Swarm.Property} {outs : List (List Record)}
    (h : Machine.run (DnsDB.recv c srv) w ps = some (w', outs)) :
    ∃ outs', Machine.run (DnsDB.insert c srv) w (ps.flatMap DnsDB.answers) = some (w', outs') ∧
      outs'.flatten = outs.flatten := by
  induction ps using List.reverseRecOn generalizing w' outs with
  | nil =>
    obtain ⟨rfl, rfl⟩ := Prod.mk.inj (Option.some.inj h)
    exact ⟨[], rfl, rfl⟩
  | append_singleton ps p ih =>
    obtain ⟨w₁, outs₁, outs₂, hrun, hlast, rfl⟩ := Machine.run_append_iff.mp h
    obtain ⟨records, hrecv, rfl⟩ := Machine.run_singleton_iff.mp hlast
    obtain ⟨outs', hrun', hflatten⟩ := ih hrun
    obtain ⟨outs'', hrun'', rfl⟩ := (recv_eq_run c srv w₁ w' p records).mp hrecv
    refine ⟨outs' ++ outs'', ?_, by simp [hflatten]⟩
    rw [List.flatMap_append, List.flatMap_singleton]
    exact Machine.run_append hrun' hrun''

end DnsHive
