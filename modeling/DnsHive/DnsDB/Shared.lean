import DnsHive.DnsDB.Restart
import DnsHive.DnsDB.Answers
import DnsHive.Lib.Share

/-!
# Many processes and one Redis

Nothing keeps several processes from using the same database of a Redis server, and from doing so at
the same time.  Here `π` are the processes.

* `shared_answers`: whatever the order in which they take answers, Redis has all records of all
  processes, each one once and the newest first, and each process knows what it has seen itself.
* `load_amid`: a process can start while the others go on.  Between any two of its commands they
  take answers of their own (`amid`); the names it reads back are those of the moment of its
  `keys *`.
-/

set_option autoImplicit false

namespace DnsHive

open Machine Msgpack

variable {π σ : Type} [DecidableEq π] {c : Codec} {srv : Redis σ} {lists : σ → Bytes → List Bytes}

/-- The records that the answers `rs` leave for a key, the newest first. -/
def records (c : Codec) (rs : List Answer) (k : Bytes) : List Bytes :=
  ((about Answer.key rs k).map fun r ↦ c.pack r.record).reverse

theorem records_append (rs rs' : List Answer) (k : Bytes) :
    records c (rs ++ rs') k = records c rs' k ++ records c rs k := by
  simp [records, about]

theorem records_concat (rs : List Answer) (r : Answer) (k : Bytes) :
    records c (rs ++ [r]) k =
      (if r.key = some k then [c.pack r.record] else []) ++ records c rs k := by
  rw [records, about_concat, List.map_append, List.reverse_append, records]
  congr 1
  by_cases hk : r.key = some k <;> simp [hk]

/-- The processes have taken the answers `es`. -/
structure Worked (c : Codec) (lists : σ → Bytes → List Bytes) (w : (π → DnsDB) × σ)
    (es : List (π × Answer)) (w' : (π → DnsDB) × σ) : Prop where
  memory : ∀ p, Learned (w.1 p) (own p es) (w'.1 p)
  redis : ∀ k, lists w'.2 k = records c (es.map Prod.snd) k ++ lists w.2 k

namespace Worked

variable {w w' w'' : (π → DnsDB) × σ} {es es' : List (π × Answer)}

theorem idle (w : (π → DnsDB) × σ) {st : σ} (h : lists st = lists w.2) :
    Worked c lists w [] (w.1, st) where
  memory p := .nil (w.1 p)
  redis k := by rw [h]; rfl

theorem trans (h : Worked c lists w es w') (h' : Worked c lists w' es' w'') :
    Worked c lists w (es ++ es') w'' where
  memory p := by rw [own_append]; exact (h.memory p).append (h'.memory p)
  redis k := by rw [h'.redis, h.redis, List.map_append, records_append, List.append_assoc]

end Worked

/-- There are the records of `rs` before those that were there in `st`. -/
def Pushed (c : Codec) (lists : σ → Bytes → List Bytes) (st : σ) (rs : List Answer) (st' : σ) :
    Prop :=
  ∀ k, lists st' k = records c rs k ++ lists st k

/-- What one answer does to the memory of the process that takes it, and to Redis. -/
theorem insert_shared (hsrv : srv.Lawful lists) {db₀ db : DnsDB} {st₀ st : σ}
    {rs all : List Answer} (hredis : db₀.redisCtx) (hdb : Learned db₀ rs db)
    (hst : Pushed c lists st₀ all st) (r : Answer) :
    ∃ db' st' events, DnsDB.insert c srv (db, st) r = some ((db', st'), events) ∧
      Learned db₀ (rs ++ [r]) db' ∧ Pushed c lists st₀ (all ++ [r]) st' := by
  obtain ⟨w', events, hcall, heffect⟩ :=
    insert_effect c srv (db, st) r fun _ ↦ hsrv.lpush_reply st
  have hctx : db.redisCtx := hdb.redisCtx ▸ hredis
  refine ⟨w'.1, w'.2, events, hcall, hdb.append (.of_effect heffect), ?_⟩
  intro k
  rw [heffect.lists_eq hsrv hctx, hst, records_concat, List.append_assoc]

/-- The processes take answers, in any order. -/
theorem worked_of_run (hsrv : srv.Lawful lists) (w : (π → DnsDB) × σ)
    (hredis : ∀ p, (w.1 p).redisCtx) (es : List (π × Answer)) :
    ∃ w' outs, run (share (DnsDB.insert c srv)) w es = some (w', outs) ∧
      Worked c lists w es w' := by
  have hbegin : Interleaved (fun p ↦ Learned (w.1 p)) (Pushed c lists w.2) [] w :=
    ⟨fun p ↦ .nil (w.1 p), fun _ ↦ rfl⟩
  obtain ⟨w', outs, hrun, h⟩ := run_share
    (fun p _ _ _ _ r hdb hst ↦ insert_shared hsrv (hredis p) hdb hst r) hbegin es
  exact ⟨w', outs, hrun, h.each, h.all⟩

/-- **No record is lost and none is there twice**, in whatever order the processes take their
answers; and what a process knows does not depend on the others. -/
theorem shared_answers (c : Codec) (srv : Redis σ) (lists : σ → Bytes → List Bytes)
    (hsrv : srv.Lawful lists) (w : (π → DnsDB) × σ) (hredis : ∀ p, (w.1 p).redisCtx)
    (hempty : ∀ k, lists w.2 k = []) (es : List (π × Answer)) :
    ∃ w' outs, run (share (DnsDB.insert c srv)) w es = some (w', outs) ∧
      (∀ k, lists w'.2 k = records c (es.map Prod.snd) k) ∧
      ∀ p, Learned (w.1 p) (own p es) (w'.1 p) := by
  obtain ⟨w', outs, hrun, hworked⟩ := worked_of_run hsrv w hredis es
  refine ⟨w', outs, hrun, fun k ↦ ?_, hworked.memory⟩
  rw [hworked.redis, hempty, List.append_nil]

/-- Two processes, which take the answers in turns. -/
def sampleShares : List (Bool × Answer) :=
  [(true, sampleAnswer "A" "a.example." 1), (false, sampleAnswer "A" "b.example." 1),
    (false, sampleAnswer "CNAME" "c.example." 1), (true, sampleAnswer "AAAA" "d.example." 2)]

theorem shared_answers_sample :
    ∃ w' outs, run (share (DnsDB.insert format Redis.store)) (fun _ ↦ DnsDB.fresh true, ∅)
        sampleShares = some (w', outs) ∧
      (∀ k, Redis.Store.lists w'.2 k = records format (sampleShares.map Prod.snd) k) ∧
      ∀ p, Learned (DnsDB.fresh true) (own p sampleShares) (w'.1 p) :=
  shared_answers format Redis.store Redis.Store.lists Redis.store_lawful
    (fun _ ↦ DnsDB.fresh true, ∅) (fun _ ↦ rfl) (fun _ ↦ rfl) sampleShares

/-! ## Starting while others go on -/

/-- The server, as a process sees it while others go on: before each of its commands, others take
the next answers. -/
def amid (c : Codec) (srv : Redis σ) : Redis (((π → DnsDB) × σ) × List (List (π × Answer))) where
  command w cmd :=
    match run (share (DnsDB.insert c srv)) w.1 (w.2.headD []) with
    | none => (w, none)
    | some ((dbs, st), _) => (((dbs, (srv.command st cmd).1), w.2.tail), (srv.command st cmd).2)

/-- The oldest record of a key stays. -/
theorem Worked.oldest {w w' : (π → DnsDB) × σ} {es : List (π × Answer)} {key buf : Bytes}
    (h : Worked c lists w es w') (hbuf : (lists w.2 key).getLast? = some buf) :
    (lists w'.2 key).getLast? = some buf := by
  rw [h.redis, List.getLast?_append, hbuf]
  rfl

theorem take_succ_flatten {α : Type} (script : List (List α)) (n : Nat) :
    (script.take (n + 1)).flatten = script.headD [] ++ (script.tail.take n).flatten := by
  cases script <;> simp

/-- One command: the others go on, and then the server replies. -/
theorem amid_command (hsrv : srv.Lawful lists) (w : (π → DnsDB) × σ)
    (hredis : ∀ p, (w.1 p).redisCtx) (script : List (List (π × Answer))) :
    ∃ w₁, Worked c lists w (script.headD []) w₁ ∧ (∀ p, (w₁.1 p).redisCtx) ∧
      ∀ cmd, (amid c srv).command (w, script) cmd =
        (((w₁.1, (srv.command w₁.2 cmd).1), script.tail), (srv.command w₁.2 cmd).2) := by
  obtain ⟨w₁, outs, hrun, hworked⟩ := worked_of_run hsrv w hredis (script.headD [])
  refine ⟨w₁, hworked, fun p ↦ (hworked.memory p).redisCtx ▸ hredis p, ?_⟩
  intro cmd
  simp only [amid, hrun]

namespace DnsDB

/-- The loop reads the oldest record of one key, whatever the others push to it. -/
theorem loadKeys_amid (hsrv : srv.Lawful lists) {key buf name : Bytes}
    (hname : recordName c buf = some (some name)) (ks : List Bytes) (m : StdMap)
    (w : (π → DnsDB) × σ) (script : List (List (π × Answer))) (rc : Int)
    (hredis : ∀ p, (w.1 p).redisCtx) (hbuf : (lists w.2 key).getLast? = some buf) :
    ∃ w', Worked c lists w (script.take ks.length).flatten w' ∧
      loadKeys c (amid c srv) key ks (m, (w, script), rc) =
        some (if ks = [] then m else m.insertNew key name, (w', script.drop ks.length),
          rc + ks.length) := by
  induction ks generalizing m w script rc with
  | nil => exact ⟨w, .idle w rfl, by simp [loadKeys]⟩
  | cons k ks ih =>
    obtain ⟨w₁, hworked, hredis₁, hcommand⟩ := amid_command (c := c) hsrv w hredis script
    have hbuf₁ := hworked.oldest hbuf
    have hlists := hsrv.lrange_lists w₁.2 key
    obtain ⟨w', hworked', hload⟩ := ih (m.insertNew key name)
      (w₁.1, (srv.command w₁.2 (.lrangeLast key)).1) script.tail (rc + 1) hredis₁
      (by rw [hlists, hbuf₁])
    refine ⟨w', ?_, ?_⟩
    · rw [List.length_cons, take_succ_flatten]
      exact hworked.trans ((Worked.idle w₁ hlists).trans hworked')
    · have hreply := hsrv.lrange_reply w₁.2 key
      rw [hbuf₁] at hreply
      have hturn : loadKeys c (amid c srv) key (k :: ks) (m, (w, script), rc) =
          loadKeys c (amid c srv) key ks (m.insertNew key name,
            ((w₁.1, (srv.command w₁.2 (.lrangeLast key)).1), script.tail), rc + 1) := by
        simp [loadKeys, hcommand, hreply, Redis.Reply.element, Redis.Reply.text, hname]
      rw [hturn, hload, insertNew_twice, ite_self, if_neg (List.cons_ne_nil k ks), List.length_cons,
        List.drop_tail]
      push_cast
      rw [add_assoc, add_comm (1 : Int)]

end DnsDB

theorem records_eq_nil {rs : List Answer} {k : Bytes} :
    records c rs k = [] ↔ firstName Answer.key rs k = none := by
  simp [records, firstName]

/-- The oldest record of a key has its first name. -/
theorem oldest_record {rs : List Answer} {k buf : Bytes} (hcodec : ∀ r ∈ rs, c.Inverts r.fields)
    (hbuf : (records c rs k).getLast? = some buf) :
    ∃ name, firstName Answer.key rs k = some name ∧ DnsDB.recordName c buf = some (some name) := by
  rw [records, List.getLast?_reverse, List.head?_map, Option.map_eq_some_iff] at hbuf
  obtain ⟨r, hr, rfl⟩ := hbuf
  refine ⟨r.name, by rw [firstName, List.head?_map, hr]; rfl, ?_⟩
  exact recordName_of_inverts (hcodec r (List.mem_of_mem_filter (List.mem_of_mem_head? hr)))

/-- What is read back is what there was when the keys were listed. -/
theorem DnsDB.loadRedisDb_amid (hsrv : srv.Lawful lists) (output : Bool) {w w₁ : (π → DnsDB) × σ}
    {script rest : List (List (π × Answer))} {seen : List Answer}
    (hkeys : (amid c srv).command (w, script) .keys =
      (((w₁.1, (srv.command w₁.2 .keys).1), rest), (srv.command w₁.2 .keys).2))
    (hredis : ∀ p, (w₁.1 p).redisCtx) (hseen : ∀ k, lists w₁.2 k = records c seen k)
    (hcodec : ∀ r ∈ seen, c.Inverts r.fields) :
    ∃ (m : StdMap) (w' : (π → DnsDB) × σ) (ks : List Bytes),
      loadRedisDb c (amid c srv) (fresh output, (w, script)) =
        some (({ fresh output with revMap := m }, (w', rest.drop ks.length)), (ks.length : Int)) ∧
      Worked c lists w₁ (rest.take ks.length).flatten w' ∧ ks.Nodup ∧
      (∀ k, k ∈ ks ↔ (firstName Answer.key seen k).isSome) ∧
      ∀ k, m.lookup k = if ks.getLast? = some k then firstName Answer.key seen k else none := by
  obtain ⟨ks, hreply, hnodup, hks⟩ := hsrv.keys_reply w₁.2
  have hmem (k : Bytes) : k ∈ ks ↔ (firstName Answer.key seen k).isSome := by
    rw [hks, hseen, Ne, records_eq_nil, Option.isSome_iff_ne_none]
  have hlists := hsrv.keys_lists w₁.2
  rcases List.eq_nil_or_concat ks with rfl | ⟨ks', key, rfl⟩
  · refine ⟨∅, (w₁.1, (srv.command w₁.2 .keys).1), [], ?_, .idle w₁ hlists, hnodup, hmem, by simp⟩
    simp [loadRedisDb, hkeys, hreply, loadKeys, fresh, init]
  · rw [List.concat_eq_append] at *
    have hkey : lists w₁.2 key ≠ [] := (hks key).mp (by simp)
    obtain ⟨buf, hbuf⟩ := Option.isSome_iff_exists.mp (List.getLast?_isSome.mpr hkey)
    obtain ⟨name, hfirst, hname⟩ := oldest_record hcodec (hseen key ▸ hbuf)
    obtain ⟨w', hworked', hload⟩ := loadKeys_amid hsrv hname (ks' ++ [key]) ∅
      (w₁.1, (srv.command w₁.2 .keys).1) rest 0 hredis (by rw [hlists, hbuf])
    refine ⟨StdMap.insertNew ∅ key name, w', ks' ++ [key], ?_,
      (Worked.idle w₁ hlists).trans hworked', hnodup, hmem, fun k ↦ ?_⟩
    · simp only [List.append_eq_nil_iff, List.cons_ne_self, and_false, if_false, zero_add] at hload
      simp only [loadRedisDb, hkeys, hreply, Option.bind_eq_bind, Option.bind_some, map_text,
        List.getLastD_concat]
      simp [hload, fresh, init]
    · rw [StdMap.lookup_insertNew, List.getLast?_concat]
      by_cases hk : k = key
      · subst hk
        simp [hfirst]
      · simp [hk, Ne.symm hk]

/-- **Starting while others go on.**  A process that starts among others, who take answers before
each of its commands, reads back what was there at the moment of its `keys *`: the first name that
any process has recorded for the address enumerated last.  It returns the number of the addresses
there were.  The others do not notice. -/
theorem load_amid (c : Codec) (srv : Redis σ) (lists : σ → Bytes → List Bytes)
    (hsrv : srv.Lawful lists) (output : Bool) (w : (π → DnsDB) × σ)
    (hredis : ∀ p, (w.1 p).redisCtx) (past : List Answer)
    (hpast : ∀ k, lists w.2 k = records c past k) (script : List (List (π × Answer)))
    (hcodec : ∀ r ∈ past ++ (script.headD []).map Prod.snd, c.Inverts r.fields) :
    ∃ (m : StdMap) (w' : (π → DnsDB) × σ) (ks : List Bytes),
      DnsDB.loadRedisDb c (amid c srv) (DnsDB.fresh output, (w, script)) =
        some (({ DnsDB.fresh output with revMap := m }, (w', script.drop (ks.length + 1))),
          (ks.length : Int)) ∧
      Worked c lists w (script.take (ks.length + 1)).flatten w' ∧ ks.Nodup ∧
      (∀ k, k ∈ ks ↔
        (firstName Answer.key (past ++ (script.headD []).map Prod.snd) k).isSome) ∧
      ∀ k, m.lookup k = if ks.getLast? = some k then
        firstName Answer.key (past ++ (script.headD []).map Prod.snd) k else none := by
  obtain ⟨w₁, hworked, hredis₁, hcommand⟩ := amid_command (c := c) hsrv w hredis script
  have hseen (k : Bytes) :
      lists w₁.2 k = records c (past ++ (script.headD []).map Prod.snd) k := by
    rw [hworked.redis, hpast, records_append]
  obtain ⟨m, w', ks, hload, hworked', hnodup, hks, hm⟩ :=
    DnsDB.loadRedisDb_amid hsrv output (hcommand .keys) hredis₁ hseen hcodec
  rw [List.drop_tail] at hload
  refine ⟨m, w', ks, hload, ?_, hnodup, hks, hm⟩
  rw [take_succ_flatten]
  exact hworked.trans hworked'

theorem load_amid_sample :
    ∃ (m : StdMap) (w' : (Bool → DnsDB) × Redis.Store) (ks : List Bytes),
      DnsDB.loadRedisDb format (amid format Redis.store)
          (DnsDB.fresh true, ((fun _ ↦ DnsDB.fresh true, ∅), [sampleShares, sampleShares])) =
        some (({ DnsDB.fresh true with revMap := m },
          (w', [sampleShares, sampleShares].drop (ks.length + 1))), (ks.length : Int)) ∧
      Worked format Redis.Store.lists (fun _ ↦ DnsDB.fresh true, ∅)
        ([sampleShares, sampleShares].take (ks.length + 1)).flatten w' ∧ ks.Nodup ∧
      (∀ k, k ∈ ks ↔ (firstName Answer.key (sampleShares.map Prod.snd) k).isSome) ∧
      ∀ k, m.lookup k = if ks.getLast? = some k then
        firstName Answer.key (sampleShares.map Prod.snd) k else none :=
  load_amid format Redis.store Redis.Store.lists Redis.store_lawful true
    (fun _ ↦ DnsDB.fresh true, ∅) (fun _ ↦ rfl) [] (fun _ ↦ rfl) [sampleShares, sampleShares]
    (by
      have hfits : ∀ r ∈ sampleShares.map Prod.snd, MapFits r.fields := by decide
      exact fun r hr ↦ format_inverts (hfits r hr))

end DnsHive
