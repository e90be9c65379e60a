import DnsHive.DnsDB.Reorder
import DnsHive.Hive.Basic

/-!
# What is reported of Redis

`Hive::enable_redis_db` connects, selects a database and reads the names back.  Whatever goes wrong
with the first two is reported, with its reason, and leaves no connection behind.  What goes wrong
with the last one is not: the number that `load_redis_db` returns is not looked at, so that the call
succeeds although no names could be listed (`enableRedisDb_reported`).
-/

set_option autoImplicit false

namespace DnsHive

open Msgpack Swarm

variable {σ : Type}

/-- The port is a number, which is cut to an `int`. -/
def portNumber (port : Bytes) : Option Int :=
  if (strtol (cStr port)).2 = [] then some ((strtol (cStr port)).1.bmod (2 ^ 32)) else none

/-- What `redisConnect` and `select` answer, each one if it is asked. -/
inductive Selection (srv : Redis σ) (connect : Bytes → Int → Connection) (st : σ)
    (host port db : Bytes) : Option Bytes → σ → Prop
  /-- The database has been selected. -/
  | selected {p : Int} {reply : Redis.Reply} : portNumber port = some p →
    connect (cStr host) p = .connected →
    (srv.command st (.select (cStr db))).2 = some reply → (∀ str, reply ≠ .error str) →
    Selection srv connect st host port db none (srv.command st (.select (cStr db))).1
  | badPort : portNumber port = none →
    Selection srv connect st host port db
      (some (lit "port number \"" ++ port ++ lit "\" should be digit")) st
  | noContext {p : Int} : portNumber port = some p → connect (cStr host) p = .null →
    Selection srv connect st host port db (some (lit "Critical Error in hiredis")) st
  | noConnection {p : Int} {errstr : Bytes} : portNumber port = some p →
    connect (cStr host) p = .failed errstr → Selection srv connect st host port db (some errstr) st
  | noReply {p : Int} : portNumber port = some p → connect (cStr host) p = .connected →
    (srv.command st (.select (cStr db))).2 = none →
    Selection srv connect st host port db
      (some (lit "Critical error in hiredis to select DB \"" ++ db ++ lit "\""))
      (srv.command st (.select (cStr db))).1
  | rejected {p : Int} {str : Bytes} : portNumber port = some p →
    connect (cStr host) p = .connected →
    (srv.command st (.select (cStr db))).2 = some (.error str) →
    Selection srv connect st host port db (some str) (srv.command st (.select (cStr db))).1

/-- The result of `DnsDB::enable_redis_db`, by what has gone wrong. -/
def selectionResult (w : DnsDB) (st : σ) : Option Bytes → (DnsDB × σ) × Bool
  | none => (({ w with redisCtx := true }, st), true)
  | some cause => (({ w with redisCtx := false, errmsg := cause }, st), false)

/-- **What the call does**: whatever is answered, one of these things happens. -/
theorem DnsDB.enableRedisDb_eq (srv : Redis σ) (connect : Bytes → Int → Connection) (w : DnsDB)
    (st : σ) (host port db : Bytes) :
    ∃ cause st', Selection srv connect st host port db cause st' ∧
      enableRedisDb srv connect (w, st) host port db = selectionResult w st' cause := by
  by_cases hport : (strtol (cStr port)).2 = []
  · have hp : portNumber port = some ((strtol (cStr port)).1.bmod (2 ^ 32)) := if_pos hport
    simp only [enableRedisDb, hport, ne_eq, not_true_eq_false, if_false]
    cases hconnect : connect (cStr host) ((strtol (cStr port)).1.bmod (2 ^ 32)) with
    | null => exact ⟨_, _, .noContext hp hconnect, rfl⟩
    | failed errstr => exact ⟨_, _, .noConnection hp hconnect, rfl⟩
    | connected =>
      cases hreply : (srv.command st (.select (cStr db))).2 with
      | none => exact ⟨_, _, .noReply hp hconnect hreply, rfl⟩
      | some reply =>
        cases reply with
        | error str =>
          exact ⟨_, _, .rejected hp hconnect hreply, rfl⟩
        | _ =>
          exact ⟨_, _, .selected hp hconnect hreply (by simp), rfl⟩
  · exact ⟨_, _, .badPort (if_neg hport), by simp [enableRedisDb, hport, selectionResult]⟩

/-- A selection has only one outcome. -/
theorem Selection.unique {srv : Redis σ} {connect : Bytes → Int → Connection} {st st₁ st₂ : σ}
    {host port db : Bytes} {cause₁ cause₂ : Option Bytes}
    (h₁ : Selection srv connect st host port db cause₁ st₁)
    (h₂ : Selection srv connect st host port db cause₂ st₂) : cause₁ = cause₂ ∧ st₁ = st₂ := by
  cases h₁ <;> cases h₂ <;> grind

/-! ## Reading the names -/

variable {c : Codec} {srv : Redis σ}

/-- The number that is returned only grows. -/
theorem DnsDB.loadKeys_rc {key : Bytes} {ks : List Bytes} {m m' : StdMap} {st st' : σ}
    {rc rc' : Int} (h : loadKeys c srv key ks (m, st, rc) = some (m', st', rc')) : rc ≤ rc' := by
  induction ks generalizing m st rc with
  | nil =>
    obtain ⟨-, hrest⟩ := Prod.mk.inj (Option.some.inj h)
    exact (Prod.mk.inj hrest).2.le
  | cons k ks ih =>
    simp only [loadKeys, Option.bind_eq_bind, Option.bind_eq_some_iff] at h
    obtain ⟨rep, -, h⟩ := h
    cases helement : rep.element with
    | nil =>
      rw [helement] at h
      exact ih h
    | cons element elements =>
      rw [helement] at h
      simp only [Option.bind_eq_some_iff] at h
      obtain ⟨name, -, h⟩ := h
      cases name with
      | none => exact ih h
      | some name => exact (Int.le_add_one (Int.le_refl rc)).trans (ih h)

/-- Reading the names fails if the keys are not listed. -/
theorem DnsDB.loadRedisDb_unlisted {w : DnsDB × σ} {reply : Redis.Reply}
    (hreply : (srv.command w.2 .keys).2 = some reply)
    (hlist : ∀ elements, reply ≠ .array elements) :
    ∃ w', loadRedisDb c srv w = some (w', -1) := by
  cases reply with
  | array elements => exact absurd rfl (hlist elements)
  | _ => simp [loadRedisDb, hreply]

/-- Reading the names does not fail if the keys are listed, whatever the list contains. -/
theorem DnsDB.loadRedisDb_listed {w w' : DnsDB × σ} {rc : Int} {elements : List Redis.Reply}
    (hreply : (srv.command w.2 .keys).2 = some (.array elements))
    (h : loadRedisDb c srv w = some (w', rc)) : 0 ≤ rc := by
  simp only [loadRedisDb, hreply, Option.bind_eq_bind, Option.bind_some, Option.bind_eq_some_iff,
    Option.pure_def, Option.some_inj, Prod.mk.injEq, Prod.exists] at h
  obtain ⟨m, st, rc', hload, -, rfl⟩ := h
  exact loadKeys_rc hload

/-- A reply to `keys *` has been read. -/
theorem DnsDB.keys_reply {w w' : DnsDB × σ} {rc : Int}
    (h : loadRedisDb c srv w = some (w', rc)) :
    ∃ reply, (srv.command w.2 .keys).2 = some reply := by
  simp only [loadRedisDb, Option.bind_eq_bind, Option.bind_eq_some_iff] at h
  obtain ⟨reply, hreply, -⟩ := h
  exact ⟨reply, hreply⟩

/-! ## The report -/

/-- **The call reports what has happened.**  It succeeds only if the database has been selected and
the names have been read without an error.  If it fails, the reason is kept, nothing is sent to the
server by any later answer, and the names known are the same. -/
structure Reported (c : Codec) (srv : Redis σ) (env : Environment) (h : Hive) (st : σ)
    (host port db : Bytes) (r : (Hive × σ) × Bool) : Prop where
  success : r.2 = true → ∃ st' w rc, Selection srv env.connect st host port db none st' ∧
    DnsDB.loadRedisDb c srv ({ h.dnsDb with redisCtx := true }, st') = some (w, rc) ∧ rc ≠ -1
  failure : r.2 = false →
    (∃ st', Selection srv env.connect st host port db (some r.1.1.errmsg) st') ∧
    r.1.1.dnsDb.redisCtx = false ∧ r.1.1.dnsDb.revMap = h.dnsDb.revMap ∧
    ∀ rs w outs, Machine.run (DnsDB.insert c srv) (r.1.1.dnsDb, r.1.2) rs = some (w, outs) →
      w.2 = r.1.2

/-- The database has been selected, and the server does not list its keys. -/
def Unlisted (srv : Redis σ) (connect : Bytes → Int → Connection) (st : σ)
    (host port db : Bytes) : Prop :=
  ∃ st' reply, Selection srv connect st host port db none st' ∧
    (srv.command st' .keys).2 = some reply ∧ ∀ elements, reply ≠ .array elements

section Report

variable {env : Environment} {h : Hive} {st st' : σ} {host port db : Bytes}

/-- What the hive returns when the database could not be selected. -/
theorem enableRedisDb_of_failed {cause : Bytes}
    (heq : DnsDB.enableRedisDb srv env.connect (h.dnsDb, st) host port db =
      selectionResult h.dnsDb st' (some cause)) :
    Hive.enableRedisDb c srv env (h, st) host port db = some (({ h with
      dnsDb := { h.dnsDb with redisCtx := false, errmsg := cause }
      errmsg := cause }, st'), false) := by
  simp [Hive.enableRedisDb, heq, selectionResult]

/-- What the hive returns when the database has been selected. -/
theorem enableRedisDb_of_selected
    (heq : DnsDB.enableRedisDb srv env.connect (h.dnsDb, st) host port db =
      selectionResult h.dnsDb st' none) :
    Hive.enableRedisDb c srv env (h, st) host port db =
      (DnsDB.loadRedisDb c srv ({ h.dnsDb with redisCtx := true }, st')).map fun r ↦
        (({ h with dnsDb := r.1.1 }, r.1.2), true) := by
  simp only [Hive.enableRedisDb, heq, selectionResult, if_true]
  cases DnsDB.loadRedisDb c srv ({ h.dnsDb with redisCtx := true }, st') <;> rfl

end Report

/-- **When the report is right.**  For every server and all of its replies: whatever the call
returns is reported rightly, unless the database has been selected and `keys *` is answered with
anything but an array. -/
theorem enableRedisDb_reported (c : Codec) (srv : Redis σ) (env : Environment) (h : Hive) (st : σ)
    (host port db : Bytes) :
    (∀ r, Hive.enableRedisDb c srv env (h, st) host port db = some r →
      Reported c srv env h st host port db r) ↔ ¬ Unlisted srv env.connect st host port db := by
  obtain ⟨cause, st', hselection, heq⟩ :=
    DnsDB.enableRedisDb_eq srv env.connect h.dnsDb st host port db
  cases cause with
  | some cause =>
    -- the selection has failed
    refine ⟨fun _ ⟨st'', reply, hselected, _⟩ ↦ ?_, fun _ r hr ↦ ?_⟩
    · exact absurd (hselection.unique hselected).1 (Option.some_ne_none cause)
    · rw [enableRedisDb_of_failed heq] at hr
      obtain rfl := Option.some.inj hr
      refine ⟨(fun htrue ↦ nomatch htrue), fun _ ↦ ⟨⟨st', hselection⟩, rfl, rfl, ?_⟩⟩
      exact fun rs w outs hrun ↦ taken_server Bool.false_ne_true (taken_of_run hrun)
  | none =>
    rw [enableRedisDb_of_selected heq]
    constructor
    · rintro hall ⟨st'', reply, hselected, hreply, hlist⟩
      obtain ⟨-, rfl⟩ := hselection.unique hselected
      obtain ⟨w, hload⟩ := DnsDB.loadRedisDb_unlisted (c := c)
        (w := ({ h.dnsDb with redisCtx := true }, st')) hreply hlist
      rw [hload, Option.map_some] at hall
      obtain ⟨st'', w', rc, hselected', hload', hrc⟩ := (hall _ rfl).success rfl
      obtain ⟨-, rfl⟩ := hselection.unique hselected'
      rw [hload] at hload'
      exact hrc (Prod.mk.inj (Option.some.inj hload')).2.symm
    · intro hlisted r hr
      obtain ⟨⟨w, rc⟩, hload, rfl⟩ := Option.map_eq_some_iff.mp hr
      refine ⟨fun _ ↦ ⟨st', w, rc, hselection, hload, fun hrc ↦ ?_⟩, fun hfalse ↦ nomatch hfalse⟩
      obtain ⟨reply, hreply⟩ := DnsDB.keys_reply hload
      refine hlisted ⟨st', reply, hselection, hreply, ?_⟩
      rintro elements rfl
      have hpos := DnsDB.loadRedisDb_listed hreply hload
      omega

/-- A server that does not know `keys`. -/
def keysDisabled : Redis Redis.Store where
  command st
    | .keys => (st, some (.error (lit "ERR unknown command")))
    | cmd => Redis.store.command st cmd

/-- Every connection is made. -/
def connectingEnvironment : Environment where
  connect _ _ := .connected
  bind _ := none
  opens _ := true
  source _ _ := .error []

/-- No names have been read, and the call succeeds. -/
theorem enableRedisDb_misreported :
    ∃ r, Hive.enableRedisDb format keysDisabled connectingEnvironment (Hive.init, ∅)
        (lit "localhost") (lit "6379") (lit "0") = some r ∧ r.2 = true ∧
      ¬ Reported format keysDisabled connectingEnvironment Hive.init ∅ (lit "localhost")
        (lit "6379") (lit "0") r := by
  refine ⟨_, rfl, rfl, fun h ↦ ?_⟩
  obtain ⟨st', w, rc, -, hload, hrc⟩ := h.success rfl
  have hfail : ∃ w', DnsDB.loadRedisDb format keysDisabled
      ({ Hive.init.dnsDb with redisCtx := true }, st') = some (w', -1) :=
    DnsDB.loadRedisDb_unlisted rfl (by simp)
  obtain ⟨w', hload'⟩ := hfail
  rw [hload'] at hload
  exact hrc (Prod.mk.inj (Option.some.inj hload)).2.symm

end DnsHive
