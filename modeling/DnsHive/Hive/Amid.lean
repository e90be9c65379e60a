import DnsHive.Hive.Invocations

/-!
# The program among others

Other processes may use the database of the program while it runs, and take answers of their own
between any two of its commands (`amid`).  They only make a difference at its start, where it reads
back a name that any of them may have recorded.  From then on the report is as it would be without
them; and in Redis there are the records of the program and of the others, interleaved
(`run_amid`).
-/

set_option autoImplicit false

namespace DnsHive

open Msgpack

variable {π σ : Type} {c : Codec} {srv : Redis σ} {lists : σ → Bytes → List Bytes} {db : Bytes}

/-- The answers of the program (on the left) and of the others, interleaved. -/
abbrev Mixed (π : Type) := List (Answer ⊕ π × Answer)

namespace Mixed

/-- The answers of the program. -/
def own (mixed : Mixed π) : List Answer := mixed.filterMap Sum.getLeft?

/-- The answers of the others, with the process that takes each. -/
def others (mixed : Mixed π) : List (π × Answer) := mixed.filterMap Sum.getRight?

/-- All answers. -/
def all (mixed : Mixed π) : List Answer := mixed.map (Sum.elim id Prod.snd)

theorem own_append (mixed : Mixed π) (es : List (π × Answer)) :
    own (mixed ++ es.map .inr) = own mixed := by
  have hnone : (es.map (Sum.inr (α := Answer))).filterMap Sum.getLeft? = [] :=
    List.filterMap_eq_nil_iff.mpr (by simp)
  rw [own, List.filterMap_append, hnone, List.append_nil, own]

theorem others_append (mixed : Mixed π) (es : List (π × Answer)) :
    others (mixed ++ es.map .inr) = others mixed ++ es := by
  rw [others, List.filterMap_append, List.filterMap_map, others]
  congr 1
  exact List.filterMap_some

theorem all_append (mixed : Mixed π) (es : List (π × Answer)) :
    all (mixed ++ es.map .inr) = all mixed ++ es.map Prod.snd := by
  simp [all, Function.comp_def]

theorem own_concat (mixed : Mixed π) (r : Answer) : own (mixed ++ [.inl r]) = own mixed ++ [r] := by
  simp [own]

theorem others_concat (mixed : Mixed π) (r : Answer) :
    others (mixed ++ [.inl r]) = others mixed := by
  simp [others]

theorem all_concat (mixed : Mixed π) (r : Answer) : all (mixed ++ [.inl r]) = all mixed ++ [r] := by
  simp [all]

end Mixed

variable [DecidableEq π]

/-- Where the program and the others are: the program has taken `rs`, and the others what they take
before `n` commands. -/
structure Beside (c : Codec) (lists : σ → Bytes → List Bytes) (past : List Answer) (dbs : π → DnsDB)
    (script : List (List (π × Answer))) (n : Nat) (mixed : Mixed π) (rs : List Answer)
    (w : ((π → DnsDB) × σ) × List (List (π × Answer))) : Prop where
  rest : w.2 = script.drop n
  own : mixed.own = rs
  others : mixed.others = (script.take n).flatten
  /-- There are the records of all answers. -/
  records : lists w.1.2 = records c (past ++ mixed.all)
  /-- The others know what they would know without the program. -/
  memory : ∀ p, Learned (dbs p) (Machine.own p (script.take n).flatten) (w.1.1 p)

namespace Beside

variable {past : List Answer} {dbs : π → DnsDB} {script : List (List (π × Answer))} {n : Nat}
  {mixed : Mixed π} {rs : List Answer} {w : ((π → DnsDB) × σ) × List (List (π × Answer))}

theorem start {st : σ} (h : Stores c lists past st) (dbs : π → DnsDB)
    (script : List (List (π × Answer))) :
    Beside c lists past dbs script 0 [] [] ((dbs, st), script) where
  rest := rfl
  own := rfl
  others := rfl
  records := by rw [h.lists, Mixed.all, List.map_nil, List.append_nil]
  memory p := .nil (dbs p)

theorem redisCtx (h : Beside c lists past dbs script n mixed rs w)
    (hdbs : ∀ p, (dbs p).redisCtx) : ∀ p, (w.1.1 p).redisCtx :=
  fun p ↦ (h.memory p).redisCtx ▸ hdbs p

/-- The others go on. -/
theorem worked (h : Beside c lists past dbs script n mixed rs w) {m : Nat} {w' : (π → DnsDB) × σ}
    (hworked : Worked c lists w.1 (w.2.take m).flatten w') :
    Beside c lists past dbs script (n + m) (mixed ++ (w.2.take m).flatten.map .inr) rs
      (w', w.2.drop m) where
  rest := by rw [h.rest, List.drop_drop]
  own := (Mixed.own_append ..).trans h.own
  others := by
    rw [Mixed.others_append, h.others, List.take_add, List.flatten_append, h.rest]
  records := by
    funext k
    rw [hworked.redis, h.records, Mixed.all_append, ← List.append_assoc,
      records_append (past ++ mixed.all)]
  memory p := by
    rw [List.take_add, List.flatten_append, Machine.own_append, ← h.rest]
    exact (h.memory p).append (hworked.memory p)

/-- The server does something that leaves the records alone. -/
theorem idle (h : Beside c lists past dbs script n mixed rs w) {st : σ}
    (hlists : lists st = lists w.1.2) :
    Beside c lists past dbs script n mixed rs ((w.1.1, st), w.2) :=
  ⟨h.rest, h.own, h.others, hlists.trans h.records, h.memory⟩

/-- The program takes an answer of which there is no record. -/
theorem unrecorded (h : Beside c lists past dbs script n mixed rs w) {r : Answer}
    (hkey : r.key = none) :
    Beside c lists past dbs script n (mixed ++ [.inl r]) (rs ++ [r]) w where
  rest := h.rest
  own := by rw [Mixed.own_concat, h.own]
  others := (Mixed.others_concat ..).trans h.others
  records := by
    funext k
    rw [h.records, Mixed.all_concat, ← List.append_assoc, records_concat, hkey]
    rfl
  memory := h.memory

/-- The program takes an answer and pushes its record. -/
theorem recorded (h : Beside c lists past dbs script n mixed rs w) (hsrv : srv.Lawful lists)
    {r : Answer} {key : Bytes} (hkey : r.key = some key) :
    Beside c lists past dbs script n (mixed ++ [.inl r]) (rs ++ [r])
      ((w.1.1, (srv.command w.1.2 (.lpush key (c.pack r.record))).1), w.2) where
  rest := h.rest
  own := by rw [Mixed.own_concat, h.own]
  others := (Mixed.others_concat ..).trans h.others
  records := by
    funext k
    rw [hsrv.lpush_lists, Mixed.all_concat, ← List.append_assoc, records_concat, ← h.records, hkey]
    by_cases hk : k = key
    · simp [hk]
    · simp [hk, Ne.symm hk]
  memory := h.memory

/-- Before each command, the others go on. -/
theorem command (h : Beside c lists past dbs script n mixed rs w) (hsrv : srv.Lawful lists)
    (hdbs : ∀ p, (dbs p).redisCtx) :
    ∃ w₁, Beside c lists past dbs script (n + 1) (mixed ++ (w.2.headD []).map .inr) rs
        (w₁, w.2.tail) ∧
      ∀ cmd, (amid c srv).command w cmd =
        (((w₁.1, (srv.command w₁.2 cmd).1), w.2.tail), (srv.command w₁.2 cmd).2) := by
  obtain ⟨w₁, hworked, -, hcommand⟩ := amid_command (c := c) hsrv w.1 (h.redisCtx hdbs) w.2
  have htake : (w.2.take 1).flatten = w.2.headD [] := by
    rw [take_succ_flatten, List.take_zero, List.flatten_nil, List.append_nil]
  rw [← htake] at hworked ⊢
  exact ⟨w₁, List.drop_one ▸ h.worked hworked, hcommand⟩

/-- One answer. -/
theorem effect (h : Beside c lists past dbs script n mixed rs w) (hsrv : srv.Lawful lists)
    (hdbs : ∀ p, (dbs p).redisCtx) {r : Answer} {d : DnsDB} {w' : DnsDB × _}
    {events : List Record} (hctx : d.redisCtx)
    (heffect : Effect c (amid c srv) (d, w) r w' events) :
    ∃ n' mixed', Beside c lists past dbs script n' mixed' (rs ++ [r]) w'.2 := by
  cases heffect with
  | ignored hr =>
    have hkey : r.key = none := Option.eq_none_iff_forall_ne_some.mpr fun k hk ↦
      hr ⟨r.ptr_of_key hk, .inl (r.isAddress_of_key hk)⟩
    exact ⟨_, _, h.unrecorded hkey⟩
  | aliased hptr hc => exact ⟨_, _, h.unrecorded (if_neg hc.not_isAddress)⟩
  | @recorded key ha hkey =>
    obtain ⟨w₁, h₁, hcommand⟩ := h.command hsrv hdbs
    rw [if_pos hctx, hcommand]
    exact ⟨_, _, h₁.recorded hsrv hkey⟩

end Beside

/-! ## Before the capture -/

section Begin

variable {past : List Answer} {dbs : π → DnsDB} {st : σ} {script : List (List (π × Answer))}

/-- A command is answered, whoever the others are. -/
theorem amid_reply (hsrv : srv.Lawful lists) (w : ((π → DnsDB) × σ) × List (List (π × Answer))) :
    ∃ st₁, ∀ cmd, ((amid c srv).command w cmd).2 = (srv.command st₁ cmd).2 := by
  have hinsert : ∀ (_ : π) (_ _ : List Answer) d st r, True → True → ∃ d' st' events,
      DnsDB.insert c srv (d, st) r = some ((d', st'), events) ∧ True ∧ True := by
    intro _ _ _ d st r _ _
    obtain ⟨w', events, hcall, -⟩ :=
      insert_effect c srv (d, st) r fun _ ↦ hsrv.lpush_reply st
    exact ⟨w'.1, w'.2, events, hcall, trivial, trivial⟩
  obtain ⟨w₁, outs, hrun, -⟩ := Machine.run_share (L := fun _ _ _ ↦ True) (G := fun _ _ ↦ True)
    hinsert (w := w.1) ⟨fun _ ↦ trivial, trivial⟩ (w.2.headD [])
  refine ⟨w₁.2, ?_⟩
  intro cmd
  simp only [amid, hrun]

/-- **What the program begins with**: a name that has been recorded when it lists the keys, after
it has selected the database. -/
theorem load_beside (hsrv : srv.Hosts lists db) (hdbs : ∀ p, (dbs p).redisCtx)
    (hst : Stores c lists past st) (hcodec : ∀ e ∈ (script.take 2).flatten, c.Inverts e.2.fields) :
    ∃ m w rc n mixed, DnsDB.loadRedisDb c (amid c srv) (DnsDB.fresh true,
          ((amid c srv).command ((dbs, st), script) (.select db)).1) =
        some (({ DnsDB.fresh true with revMap := m }, w), rc) ∧
      Beside c lists past dbs script n mixed [] w ∧
      Recalls (past ++ (script.take 2).flatten.map Prod.snd) m := by
  obtain ⟨w₁, h₁, hselect⟩ := (Beside.start hst dbs script).command hsrv.toLawful hdbs
  have h₁' := h₁.idle (hsrv.select_lists w₁.2)
  obtain ⟨w₂, h₂, hkeys⟩ := h₁'.command hsrv.toLawful hdbs
  have hseen : (script.take 2).flatten = script.headD [] ++ script.tail.headD [] := by
    rw [take_succ_flatten, take_succ_flatten, List.take_zero, List.flatten_nil, List.append_nil]
  have hall : past ++ Mixed.all ([] ++ (script.headD []).map .inr ++
      (script.tail.headD []).map .inr : Mixed π) =
        past ++ (script.take 2).flatten.map Prod.snd := by
    rw [hseen, Mixed.all_append, Mixed.all_append, List.map_append]
    rfl
  obtain ⟨m, w', ks, hload, hworked, -, hks, hm⟩ := DnsDB.loadRedisDb_amid hsrv.toLawful true
    (hkeys .keys) (h₂.redisCtx hdbs) (fun k ↦ congrFun h₂.records k)
    (by
      rw [hall]
      intro r hr
      rcases List.mem_append.mp hr with hr | hr
      · exact hst.codec r hr
      · obtain ⟨e, he, rfl⟩ := List.mem_map.mp hr
        exact hcodec e he)
  rw [hall] at hks hm
  refine ⟨m, _, (ks.length : Int), _, _, ?_, h₂.worked hworked, recalls_of_last hks hm⟩
  rw [hselect]
  exact hload

/-- The database is selected and read. -/
theorem prepareRedis_beside (hsrv : srv.Hosts lists db) (hdbs : ∀ p, (dbs p).redisCtx)
    (hst : Stores c lists past st) (hcodec : ∀ e ∈ (script.take 2).flatten, c.Inverts e.2.fields)
    {i : Invocation} {name : Bytes} (hredis : i.opt.redisDb = some name) (hname : cStr name = db)
    (hreaches : i.reaches) :
    Serves c (amid c srv) i.env i.opt ((dbs, st), script) ∧
      (DnsDB.enableRedisDb (amid c srv) i.env.connect (Hive.init.dnsDb, ((dbs, st), script))
        i.opt.redisHost i.opt.redisPort name).2 ∧
      ∃ m w n mixed, prepareRedis c (amid c srv) i.env i.opt ((dbs, st), script) =
          some (({ Hive.init with dnsDb := { DnsDB.fresh true with revMap := m } }, w), true) ∧
        Beside c lists past dbs script n mixed [] w ∧
        Recalls (past ++ (script.take 2).flatten.map Prod.snd) m := by
  obtain ⟨st₁, hreply⟩ := amid_reply (c := c) hsrv.toLawful ((dbs, st), script)
  obtain ⟨reply, hselect, hok⟩ := hsrv.select_reply st₁
  obtain ⟨cause, heq, hcause⟩ :=
    i.enableRedisDb_eq hname ((hreply (.select db)).trans hselect) hok
  rw [hreaches, Option.isNone_iff_eq_none] at hcause
  subst hcause
  rw [if_pos hreaches] at heq
  obtain ⟨m, w, rc, n, mixed, hload, hbeside, hrecalls⟩ := load_beside hsrv hdbs hst hcodec
  refine ⟨⟨?_, ?_⟩, by rw [heq]; rfl, m, w, n, mixed, ?_, hbeside, hrecalls⟩
  · intro _ w k v
    obtain ⟨st₂, hreply₂⟩ := amid_reply (c := c) hsrv.toLawful w
    exact hreply₂ (.lpush k v) ▸ hsrv.lpush_reply st₂ k v
  · intro name' hname' w' hcall
    obtain rfl := Option.some.inj (hredis.symm.trans hname')
    rw [heq] at hcall
    obtain ⟨rfl, -⟩ := Prod.mk.inj hcall
    exact Option.isSome_iff_exists.mpr ⟨_, hload⟩
  · rw [prepareRedis, hredis]
    dsimp only
    rw [enableRedisDb_of_selected heq]
    exact Option.map_eq_some_iff.mpr ⟨_, hload, rfl⟩

/-- So much is certain when the capture begins. -/
theorem prepare_beside (hsrv : srv.Hosts lists db) (hdbs : ∀ p, (dbs p).redisCtx)
    (hst : Stores c lists past st) (hcodec : ∀ e ∈ (script.take 2).flatten, c.Inverts e.2.fields)
    {i : Invocation} (hdb : ∀ name ∈ i.opt.redisDb, cStr name = db) (hbegins : i.begins)
    (hredis : i.opt.redisDb.isSome) :
    i.opt.version = false ∧ Serves c (amid c srv) i.env i.opt ((dbs, st), script) ∧
      Enabled (amid c srv) i.env i.opt ((dbs, st), script) ∧
      ∃ m n mixed, Recalls (past ++ (script.take 2).flatten.map Prod.snd) m ∧
        ∀ w, prepare c (amid c srv) i.env i.opt ((dbs, st), script) = some (w, true) →
          w.1.dnsDb = { DnsDB.fresh true with revMap := m } ∧
            Beside c lists past dbs script n mixed [] w.2 := by
  obtain ⟨name, hname⟩ := Option.isSome_iff_exists.mp hredis
  simp only [Invocation.begins, hname, Option.isNone_some, Bool.false_or, Bool.and_eq_true,
    Bool.not_eq_true', Option.all_eq_true, Option.isNone_iff_eq_none] at hbegins
  obtain ⟨⟨hversion, hreaches⟩, hzmq⟩ := hbegins
  obtain ⟨hserves, hselected, m, w₀, n, mixed, hprepareRedis, hbeside, hrecalls⟩ :=
    prepareRedis_beside hsrv hdbs hst hcodec hname (hdb name hname) hreaches
  refine ⟨hversion, hserves, ⟨?_, hzmq⟩, m, n, mixed, hrecalls, ?_⟩
  · intro name' hname'
    obtain rfl := Option.some.inj (hname.symm.trans hname')
    exact hselected
  · intro w hprepare
    obtain ⟨h₁, ok₁, hredis₁, hcases⟩ := prepare_cases hprepare
    obtain ⟨⟨rfl, hw₀⟩, -⟩ : (h₁ = _ ∧ w.2 = w₀) ∧ ok₁ = true := by
      simpa using hredis₁.symm.trans hprepareRedis
    refine ⟨?_, hw₀ ▸ hbeside⟩
    rcases hcases with ⟨-, hok⟩ | ⟨-, hok⟩ | ⟨hw, -, -⟩
    · exact absurd hok.symm Bool.false_ne_true
    · exact absurd hok.symm Bool.false_ne_true
    · rw [hw, prepareMsgpack_dnsDb, prepareZmq_dnsDb]

end Begin

/-! ## The program -/

/-- **The program among others.**  Whatever answers the other processes take before each of its
commands: if the capture begins, the program begins with the first name that was recorded for one of
the addresses when it listed the keys, by any process, and it makes its report from that and its own
events.  At the end Redis has the records of its answers and those of the others, each one once and
in an order that both have kept, and the others know what they have seen themselves. -/
theorem run_amid (c : Codec) (srv : Redis σ) (lists : σ → Bytes → List Bytes) (db : Bytes)
    (hsrv : srv.Hosts lists db) (fuel : Nat) (i : Invocation) (hsound : i.Sound c db fuel)
    (hbegins : i.begins) (hredis : i.opt.redisDb.isSome) (dbs : π → DnsDB)
    (hdbs : ∀ p, (dbs p).redisCtx) (past : List Answer) (st : σ) (hst : Stores c lists past st)
    (script : List (List (π × Answer)))
    (hcodec : ∀ e ∈ (script.take 2).flatten, c.Inverts e.2.fields) :
    ∃ o known out n mixed,
      run c (amid c srv) i.al fuel i.env i.opt ((dbs, st), script) = some o ∧
      Recalls (past ++ (script.take 2).flatten.map Prod.snd) known ∧
      o.output = some (out.atEnd (i.env.complete i.opt)) ∧
      o.rc = (if i.env.complete i.opt then 0 else 1) ∧
      (report known (i.env.events i.opt) (i.env.complete i.opt)).foldlM Call.run
        (i.env.sinks i.opt) = some out ∧
      Beside c lists past dbs script n mixed ((i.env.events i.opt).flatMap answersOf) o.server := by
  obtain ⟨hversion, hserves, henabled, known, n, mixed, hknown, hbegin⟩ :=
    prepare_beside hsrv hdbs hst hcodec hsound.database hbegins hredis
  obtain ⟨w, w', outs, hprepare, hsinks, hrun, hjournal, heq⟩ :=
    run_finish c (amid c srv) i.al hversion hserves henabled hsound.addrs hsound.length
  obtain ⟨hdnsDb, hbeside⟩ := hbegin w hprepare
  have hctx : w.1.dnsDb.redisCtx = true := by rw [hdnsDb]; rfl
  obtain ⟨n', mixed', hend⟩ : ∃ n mixed, Beside c lists past dbs script n mixed
      ((i.env.events i.opt).flatMap answersOf) w'.2 := by
    refine server_of_run (P := fun rs w ↦ ∃ n mixed, Beside c lists past dbs script n mixed rs w)
      ?_ hctx ⟨n, mixed, hbeside⟩ hrun
    rintro rs r ⟨d, w₁⟩ w₂ events hd ⟨n₁, mixed₁, h₁⟩ heffect
    exact h₁.effect hsrv.toLawful hdbs hd heffect
  obtain ⟨o, out, hfinish, hout, hrc, hserver, hreport⟩ := hjournal.finish hsound.length outs
    (i.env.failure i.opt) (i.env.progressAll i.opt) (i.env.complete i.opt)
  rw [hdnsDb] at hreport
  exact ⟨o, known, out, n', mixed', heq.trans hfinish, hknown, hout, hrc, hsinks ▸ hreport,
    hserver ▸ hend⟩

/-- Two others, who take all their answers before each of the first commands. -/
def sampleScript : List (List (Bool × Answer)) := [sampleShares, sampleShares, sampleShares]

theorem run_amid_sample : ∃ o known out n mixed,
    run format (amid format Redis.store) sampleInvocation.al 20 sampleInvocation.env
        sampleInvocation.opt ((fun _ ↦ DnsDB.fresh true, ∅), sampleScript) = some o ∧
      Recalls ([] ++ (sampleScript.take 2).flatten.map Prod.snd) known ∧
      o.output = some (out.atEnd (sampleInvocation.env.complete sampleInvocation.opt)) ∧
      o.rc = (if sampleInvocation.env.complete sampleInvocation.opt then 0 else 1) ∧
      (report known (sampleInvocation.env.events sampleInvocation.opt)
        (sampleInvocation.env.complete sampleInvocation.opt)).foldlM Call.run
          (sampleInvocation.env.sinks sampleInvocation.opt) = some out ∧
      Beside format Redis.Store.lists [] (fun _ ↦ DnsDB.fresh true) sampleScript n mixed
        ((sampleInvocation.env.events sampleInvocation.opt).flatMap answersOf) o.server :=
  run_amid format Redis.store Redis.Store.lists (lit "0") (Redis.store_hosts _) 20 sampleInvocation
    sampleInvocation_sound (by decide) rfl (fun _ ↦ DnsDB.fresh true) (fun _ ↦ rfl) [] ∅
    ⟨rfl, by simp⟩ sampleScript
    (by
      have hfits : ∀ e ∈ (sampleScript.take 2).flatten, MapFits e.2.fields := by decide
      exact fun e he ↦ format_inverts (hfits e he))

end DnsHive
