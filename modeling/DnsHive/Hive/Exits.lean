import DnsHive.DnsDB.Insert
import DnsHive.Flow.Closing
import DnsHive.Hive.Run

/-!
# The exits of `run`

The reports of the ends of the flows that are still open come from the destructor of the hive.  All
exits of `run` but the last leave the hive undeleted.  For most of them this does not matter, since
no packet has been seen; but a file that cannot be opened after packets of other files have been
seen ends the program with flows that are never reported to end (`run_closed`).
-/

set_option autoImplicit false

namespace DnsHive

open Msgpack Swarm

variable {σ : Type} {c : Codec} {srv : Redis σ} {al : Allocator} {fuel : Nat} {env : Environment}

namespace Environment

/-- The device or the file is there. -/
def ready (env : Environment) (dev : Bool) (arg : Bytes) : Bool :=
  match env.source dev arg with
  | .ok _ => true
  | .error _ => false

/-- The events of the files before the first one that cannot be opened. -/
def delivered (env : Environment) : List Bytes → List Event
  | [] => []
  | file :: files =>
    match env.source false file with
    | .ok events => events ++ delivered env files
    | .error _ => []

/-- All events of a run. -/
def events (env : Environment) (opt : Options) : List Event :=
  match opt.interface with
  | some interface => (env.source true interface).toOption.getD []
  | none => env.delivered opt.readFile

/-- Everything the program is told to capture is there. -/
def complete (env : Environment) (opt : Options) : Bool :=
  match opt.interface with
  | some interface => env.ready true interface
  | none => opt.readFile.all (env.ready false)

end Environment

/-- The packets among the events. -/
def packets (es : List Event) : List Property := (es.filter fun e ↦ e.1.isPacket).map Prod.snd

/-! ## The capture -/

/-- The events have been delivered, and have led from `w` to `w'`: the handler has had a run of its
own, on the packets among them. -/
structure Delivered (al : Allocator) (fuel : Nat) (w : Hive × σ) (es : List Event)
    (outs : List (List Action)) (w' : Hive × σ) : Prop where
  redisCtx : w'.1.dnsDb.redisCtx = w.1.dnsDb.redisCtx
  handler : ∃ ins outs', ins.map Prod.snd = packets es ∧
    Machine.run (FlowHandler.recv al fuel) (FlowHandler.init true) ins =
      some (w'.1.ipFlow, outs') ∧
    outs.flatten = outs'.flatten

theorem packets_length_le (es : List Event) : (packets es).length ≤ es.length := by
  rw [packets, List.length_map]
  exact List.length_filter_le _ _

/-- What the calls of the handler have from the packets. -/
theorem calls_of_packets {es : List Event} {ins : List (DnsDB × Property)}
    (hins : ins.map Prod.snd = packets es) (haddr : ∀ p ∈ packets es, p.HasAddrs) :
    (∀ i ∈ ins, i.2.HasAddrs) ∧ ins.length ≤ es.length := by
  refine ⟨fun i hi ↦ haddr _ (hins ▸ List.mem_map_of_mem hi), ?_⟩
  rw [← List.length_map (f := Prod.snd), hins]
  exact packets_length_le es

namespace Delivered

variable {w w₁ : Hive × σ} {es : List Event} {e : Event} {outs : List (List Action)}

theorem nil (hflow : w.1.ipFlow = FlowHandler.init true) : Delivered al fuel w [] [] w :=
  ⟨rfl, [], [], rfl, by rw [hflow]; rfl, rfl⟩

/-- A packet is one more call of the handler. -/
theorem packet (h : Delivered al fuel w es outs w₁) (he : e.1.isPacket)
    (haddr : ∀ p ∈ packets (es ++ [e]), p.HasAddrs) (hfuel : (es ++ [e]).length ≤ fuel) :
    ∃ w₂ acts, Hive.deliver c srv al fuel w₁ e = some (w₂, acts) ∧
      Delivered al fuel w (es ++ [e]) (outs ++ [acts]) w₂ := by
  obtain ⟨hredis, ins, outs', hins, hrun, hflatten⟩ := h
  have hmap : (ins ++ [(w₁.1.dnsDb, e.2)]).map Prod.snd = packets (es ++ [e]) := by
    rw [List.map_append, hins]
    simp [packets, he]
  obtain ⟨haddr', hlen⟩ := calls_of_packets hmap haddr
  obtain ⟨s, os, T, hrun', -⟩ := watch_init al true haddr' (hlen.trans hfuel)
  -- the longer run begins with the one there has been
  obtain ⟨s', os₁, os₂, hrun₁, hrun₂, rfl⟩ := Machine.run_append_iff.mp hrun'
  obtain ⟨rfl, rfl⟩ := Prod.mk.inj (Option.some.inj (hrun.symm.trans hrun₁))
  obtain ⟨acts, hrecv, rfl⟩ := Machine.run_singleton_iff.mp hrun₂
  refine ⟨({ w₁.1 with ipFlow := s }.publish (acts.filterMap Action.record), w₁.2), acts,
    by simp [Hive.deliver, he, hrecv], hredis, _, _, hmap, hrun', ?_⟩
  simp [hflatten]

/-- Any other event does not reach the handler. -/
theorem other (h : Delivered al fuel w es outs w₁) (he : ¬ e.1.isPacket)
    (hreply : w.1.dnsDb.redisCtx → ∀ st k v, (srv.command st (.lpush k v)).2.isSome) :
    ∃ w₂ acts, Hive.deliver c srv al fuel w₁ e = some (w₂, acts) ∧
      Delivered al fuel w (es ++ [e]) (outs ++ [acts]) w₂ := by
  obtain ⟨hredis, ins, outs', hins, hrun, hflatten⟩ := h
  obtain ⟨w₂, records, hrecv, hredis'⟩ := recv_isSome c srv (w₁.1.dnsDb, w₁.2) e.2
    fun h ↦ hreply (hredis ▸ h)
  refine ⟨({ w₁.1 with dnsDb := w₂.1 }.publish records, w₂.2), [],
    by simp [Hive.deliver, he, hrecv], hredis'.trans hredis, ins, outs', ?_, hrun,
    by simpa using hflatten⟩
  rw [hins]
  simp [packets, he]

end Delivered

/-- **What the flow handler gets of the events.**  All of them are delivered without a fault. -/
theorem deliver_run (c : Codec) (al : Allocator) {w : Hive × σ}
    (hflow : w.1.ipFlow = FlowHandler.init true)
    (hreply : w.1.dnsDb.redisCtx → ∀ st k v, (srv.command st (.lpush k v)).2.isSome)
    {es : List Event} (haddr : ∀ p ∈ packets es, p.HasAddrs) (hfuel : es.length ≤ fuel) :
    ∃ w' outs, Machine.run (Hive.deliver c srv al fuel) w es = some (w', outs) ∧
      Delivered al fuel w es outs w' := by
  refine Machine.run_history (.nil hflow) (fun fs e outs w₁ hpre h ↦ ?_) es List.prefix_rfl
  by_cases he : e.1.isPacket
  · have hsub : ∀ p ∈ packets (fs ++ [e]), p ∈ packets es := fun p hp ↦
      ((hpre.sublist.filter _).map _).subset hp
    exact h.packet he (fun p hp ↦ haddr p (hsub p hp)) (hpre.length_le.trans hfuel)
  · exact h.other he hreply

/-- The events are delivered, and then the flows that were reported are closed if the handler is
deleted; if it is not, they are closed only if there was no packet. -/
theorem deliver_closed (c : Codec) (al : Allocator) {w : Hive × σ}
    (hflow : w.1.ipFlow = FlowHandler.init true)
    (hreply : w.1.dnsDb.redisCtx → ∀ st k v, (srv.command st (.lpush k v)).2.isSome)
    {es : List Event} (haddr : ∀ p ∈ packets es, p.HasAddrs) (hfuel : es.length < fuel) :
    ∃ w' outs s acts, Machine.run (Hive.deliver c srv al fuel) w es = some (w', outs) ∧
      (Closed outs.flatten ↔ packets es = []) ∧ w'.1.ipFlow.destroy fuel = some (s, acts) ∧
      Closed (outs.flatten ++ acts) := by
  obtain ⟨w', outs, hrun, -, ins, outs', hins, hrun', hflatten⟩ :=
    deliver_run c al hflow hreply haddr hfuel.le
  obtain ⟨haddr', hle⟩ := calls_of_packets hins haddr
  have hlen : ins.length < fuel := hle.trans_lt hfuel
  obtain ⟨s, os, s', acts, hrun'', hdestroy, hclosed⟩ := closed_of_life al haddr' hlen
  obtain ⟨rfl, rfl⟩ := Prod.mk.inj (Option.some.inj (hrun'.symm.trans hrun''))
  refine ⟨w', outs, s', acts, hrun, ?_, hdestroy, hflatten ▸ hclosed⟩
  rw [hflatten]
  constructor
  · intro hclosed
    by_contra hne
    obtain ⟨s, os, hrun'', hopen⟩ := not_closed_of_run al haddr' hlen.le fun hnil ↦
      hne (by rw [← hins, hnil]; rfl)
    obtain ⟨-, rfl⟩ := Prod.mk.inj (Option.some.inj (hrun'.symm.trans hrun''))
    exact hopen hclosed
  · intro hnil
    rw [hnil, List.map_eq_nil_iff] at hins
    rw [hins, Machine.run_nil, Option.some_inj, Prod.mk.injEq] at hrun'
    rw [← hrun'.2]
    exact closed_nil

/-- The loop over the files delivers the events of the files that are there, up to the first one
that is not. -/
theorem readFiles_eq (files : List Bytes) {w w' : Hive × σ} {outs : List (List Action)}
    (hrun : Machine.run (Hive.deliver c srv al fuel) w (env.delivered files) = some (w', outs)) :
    ∃ w'' cerr, readFiles c srv al fuel env files w =
        some (w'', cerr, outs.flatten, files.all (env.ready false)) ∧
      w''.1.ipFlow = w'.1.ipFlow := by
  induction files generalizing w outs with
  | nil =>
    obtain ⟨rfl, rfl⟩ := Prod.mk.inj (Option.some.inj hrun)
    exact ⟨w, [], rfl, rfl⟩
  | cons file files ih =>
    cases hsource : env.source false file with
    | error errmsg =>
      simp only [Environment.delivered, hsource] at hrun
      obtain ⟨rfl, rfl⟩ := Prod.mk.inj (Option.some.inj hrun)
      refine ⟨({ w.1 with errmsg := errmsg }, w.2), [lit "Read file: " ++ file], ?_, rfl⟩
      simp [readFiles, Hive.capture, hsource, Environment.ready]
    | ok events =>
      simp only [Environment.delivered, hsource] at hrun
      obtain ⟨w₁, outs₁, outs₂, hrun₁, hrun₂, rfl⟩ := Machine.run_append_iff.mp hrun
      obtain ⟨w'', cerr, hread, hflow⟩ := ih hrun₂
      refine ⟨w'', (lit "Read file: " ++ file) :: cerr, ?_, hflow⟩
      simp [readFiles, Hive.capture, hsource, hrun₁, hread, Environment.ready]

/-- What is captured is delivered, and the capture succeeds if everything is there. -/
theorem captureAll_eq {opt : Options} {w w' : Hive × σ} {outs : List (List Action)}
    (hrun : Machine.run (Hive.deliver c srv al fuel) w (env.events opt) = some (w', outs)) :
    ∃ w'' cerr, captureAll c srv al fuel env opt w =
        some (w'', cerr, outs.flatten, env.complete opt) ∧ w''.1.ipFlow = w'.1.ipFlow := by
  rw [Environment.events] at hrun
  cases hinterface : opt.interface with
  | some interface =>
    simp only [hinterface] at hrun
    cases hsource : env.source true interface with
    | error errmsg =>
      rw [hsource] at hrun
      obtain ⟨rfl, rfl⟩ := Prod.mk.inj (Option.some.inj hrun)
      refine ⟨({ w.1 with errmsg := errmsg }, w.2), [lit "Interface: " ++ interface], ?_, rfl⟩
      simp [captureAll, hinterface, Hive.capture, hsource, Environment.complete, Environment.ready]
    | ok events =>
      rw [hsource] at hrun
      have hrun' : Machine.run (Hive.deliver c srv al fuel) w events = some (w', outs) := hrun
      refine ⟨w', [lit "Interface: " ++ interface], ?_, rfl⟩
      simp [captureAll, hinterface, Hive.capture, hsource, hrun', Environment.complete,
        Environment.ready]
  | none =>
    simp only [hinterface] at hrun
    cases hfiles : opt.readFile with
    | nil =>
      rw [hfiles] at hrun
      obtain ⟨rfl, rfl⟩ := Prod.mk.inj (Option.some.inj hrun)
      refine ⟨w, [lit "No file and interface to capture. exiting..."], ?_, rfl⟩
      simp [captureAll, hinterface, hfiles, Environment.complete]
    | cons file files =>
      rw [hfiles] at hrun
      obtain ⟨w'', cerr, hread, hflow⟩ := readFiles_eq (file :: files) hrun
      refine ⟨w'', cerr, ?_, hflow⟩
      simp only [captureAll, hinterface, hfiles, hread, Environment.complete]

/-! ## The program -/

/-- What the program needs of the Redis server, if it is told to use one: it answers, and the names
can be read back. -/
structure Serves (c : Codec) (srv : Redis σ) (env : Environment) (opt : Options) (st : σ) :
    Prop where
  reply : opt.redisDb.isSome → ∀ st k v, (srv.command st (.lpush k v)).2.isSome
  load : ∀ db ∈ opt.redisDb, ∀ w, DnsDB.enableRedisDb srv env.connect (Hive.init.dnsDb, st)
    opt.redisHost opt.redisPort db = (w, true) → (DnsDB.loadRedisDb c srv w).isSome

/-- Redis and ZeroMQ can be enabled, if they are to be.  Nothing is said of the file for the events,
since `enable_msgpack_ofs` never fails. -/
def Enabled (srv : Redis σ) (env : Environment) (opt : Options) (st : σ) : Prop :=
  (∀ db ∈ opt.redisDb, (DnsDB.enableRedisDb srv env.connect (Hive.init.dnsDb, st) opt.redisHost
    opt.redisPort db).2) ∧
  ∀ addr ∈ opt.zmqAddr, env.bind (lit "tcp://" ++ addr) = none

/-- The program captures, and something it is told to capture is not there, but a packet has been
seen before. -/
def CutShort (srv : Redis σ) (env : Environment) (opt : Options) (st : σ) : Prop :=
  opt.version = false ∧ Enabled srv env opt st ∧ env.complete opt = false ∧
    packets (env.events opt) ≠ []

/-- What is enabled leaves the flows alone. -/
structure Untouched (opt : Options) (h : Hive) : Prop where
  ipFlow : h.ipFlow = FlowHandler.init true
  redisCtx : h.dnsDb.redisCtx → opt.redisDb.isSome

theorem prepareRedis_eq {opt : Options} {st : σ} (h : Serves c srv env opt st) :
    ∃ w ok, prepareRedis c srv env opt st = some (w, ok) ∧ Untouched opt w.1 ∧
      (ok ↔ ∀ db ∈ opt.redisDb, (DnsDB.enableRedisDb srv env.connect (Hive.init.dnsDb, st)
        opt.redisHost opt.redisPort db).2) := by
  cases hdb : opt.redisDb with
  | none =>
    refine ⟨(Hive.init, st), true, by simp [prepareRedis, hdb], ⟨rfl, ?_⟩, by simp⟩
    simp [Hive.init, DnsDB.init]
  | some db =>
    have hsome : opt.redisDb.isSome := by rw [hdb]; rfl
    rcases hcall : DnsDB.enableRedisDb srv env.connect (Hive.init.dnsDb, st) opt.redisHost
      opt.redisPort db with ⟨⟨dnsDb, st'⟩, ok⟩
    cases ok with
    | false =>
      refine ⟨({ Hive.init with dnsDb := dnsDb, errmsg := dnsDb.errmsg }, st'), false, ?_,
        ⟨rfl, fun _ ↦ hsome⟩, by simp [hcall]⟩
      simp [prepareRedis, hdb, Hive.enableRedisDb, hcall]
    | true =>
      obtain ⟨⟨⟨dnsDb', st''⟩, rc⟩, hrc⟩ := Option.isSome_iff_exists.mp (h.load db hdb _ hcall)
      refine ⟨({ Hive.init with dnsDb := dnsDb' }, st''), true, ?_, ⟨rfl, fun _ ↦ hsome⟩,
        by simp [hcall]⟩
      simp [prepareRedis, hdb, Hive.enableRedisDb, hcall, hrc]

theorem prepareZmq_eq (env : Environment) {opt : Options} {h : Hive} (hu : Untouched opt h) :
    Untouched opt (prepareZmq env opt h).1 ∧
      ((prepareZmq env opt h).2 ↔
        ∀ addr ∈ opt.zmqAddr, env.bind (lit "tcp://" ++ addr) = none) := by
  cases hzmq : opt.zmqAddr with
  | none =>
    have hcall : prepareZmq env opt h = (h, true) := by simp [prepareZmq, hzmq]
    rw [hcall]
    exact ⟨hu, by simp⟩
  | some addr =>
    cases hbind : env.bind (lit "tcp://" ++ addr) with
    | none =>
      have hcall : prepareZmq env opt h =
          ({ h with output.zmqSock := some ⟨true, []⟩ }, true) := by
        simp [prepareZmq, hzmq, Hive.enableZmq, Output.enableZmq, hbind]
      rw [hcall]
      exact ⟨⟨hu.ipFlow, hu.redisCtx⟩, by simp [hbind]⟩
    | some what =>
      have hcall : prepareZmq env opt h =
          ({ h with output := { h.output with zmqSock := some ⟨false, []⟩, errmsg := what },
                    errmsg := what }, false) := by
        simp [prepareZmq, hzmq, Hive.enableZmq, Output.enableZmq, hbind]
      rw [hcall]
      exact ⟨⟨hu.ipFlow, hu.redisCtx⟩, by simp [hbind]⟩

/-- The file of the events is always enabled, even if it cannot be opened. -/
theorem prepareMsgpack_eq (env : Environment) {opt : Options} {h : Hive} (hu : Untouched opt h) :
    Untouched opt (prepareMsgpack env opt h).1 ∧ (prepareMsgpack env opt h).2 = true := by
  rw [prepareMsgpack]
  cases opt.msgpackPath with
  | none => exact ⟨hu, rfl⟩
  | some path => exact ⟨⟨hu.ipFlow, hu.redisCtx⟩, rfl⟩

theorem prepare_eq {opt : Options} {st : σ} (h : Serves c srv env opt st) :
    ∃ w ok, prepare c srv env opt st = some (w, ok) ∧ Untouched opt w.1 ∧
      (ok ↔ Enabled srv env opt st) := by
  obtain ⟨⟨h₁, st₁⟩, ok₁, hcall, hu₁, hok₁⟩ := prepareRedis_eq h
  obtain ⟨hu₂, hok₂⟩ := prepareZmq_eq env hu₁
  obtain ⟨hu₃, hok₃⟩ := prepareMsgpack_eq env hu₂
  rw [Enabled, ← hok₁, ← hok₂]
  cases ok₁ with
  | false => exact ⟨(h₁, st₁), false, by simp [prepare, hcall], hu₁, by simp⟩
  | true =>
    cases hzmq : (prepareZmq env opt h₁).2 with
    | false => exact ⟨(_, st₁), false, by simp [prepare, hcall, hzmq], hu₂, by simp⟩
    | true => exact ⟨(_, st₁), true, by simp [prepare, hcall, hzmq, hok₃], hu₃, by simp⟩

/-! ## The exits -/

/-- The program when no stage before the capture has failed. -/
theorem run_capture {opt : Options} {st : σ} {w : Hive × σ} (hversion : opt.version = false)
    (hprepare : prepare c srv env opt st = some (w, true)) (hu : Untouched opt w.1)
    (hserves : Serves c srv env opt st) (al : Allocator)
    (haddr : ∀ p ∈ packets (env.events opt), p.HasAddrs) (hfuel : (env.events opt).length < fuel) :
    ∃ o, run c srv al fuel env opt st = some o ∧ o.rc = (if env.complete opt then 0 else 1) ∧
      (Closed o.trace ↔ env.complete opt ∨ packets (env.events opt) = []) := by
  obtain ⟨w', outs, s, acts, hrun, hopen, hdestroy, hclosed⟩ :=
    deliver_closed c al hu.ipFlow (fun h ↦ hserves.reply (hu.redisCtx h)) haddr hfuel
  obtain ⟨w'', cerr, hcapture, hflow⟩ := captureAll_eq hrun
  rw [← hflow] at hdestroy
  cases hcomplete : env.complete opt with
  | true =>
    have hrun : ∃ output, run c srv al fuel env opt st =
        some ⟨0, cerr, outs.flatten ++ acts, output, w''.2⟩ :=
      ⟨_, by simp [run, hversion, hprepare, hcapture, hcomplete, Hive.destroy_eq hdestroy]; rfl⟩
    obtain ⟨output, hrun⟩ := hrun
    exact ⟨_, hrun, rfl, by simp [hclosed]⟩
  | false =>
    refine ⟨.error w'' cerr outs.flatten, ?_, rfl, hopen.trans (by simp)⟩
    simp [run, hversion, hprepare, hcapture, hcomplete]

/-- **At which exits the flows are closed.**  The program ends with a report of the end for every
report of a new flow, and no more, unless it is cut short by a file that cannot be opened. -/
theorem run_closed (c : Codec) (srv : Redis σ) (al : Allocator) (fuel : Nat) (env : Environment)
    (opt : Options) (st : σ) (hserves : Serves c srv env opt st)
    (haddr : ∀ p ∈ packets (env.events opt), p.HasAddrs) (hfuel : (env.events opt).length < fuel) :
    ∃ o, run c srv al fuel env opt st = some o ∧
      (Closed o.trace ↔ ¬ CutShort srv env opt st) := by
  cases hversion : opt.version with
  | true =>
    exact ⟨⟨0, [], [], none, st⟩, by simp [run, hversion], by simp [closed_nil, CutShort, hversion]⟩
  | false =>
    obtain ⟨w, ok, hprepare, hu, hok⟩ := prepare_eq hserves
    cases ok with
    | false =>
      have henabled : ¬ Enabled srv env opt st := by simpa using hok
      refine ⟨.error w [] [], by simp [run, hversion, hprepare], ?_⟩
      simp [Outcome.error, closed_nil, CutShort, henabled]
    | true =>
      have henabled : Enabled srv env opt st := hok.mp rfl
      obtain ⟨o, hrun, -, hclosed⟩ := run_capture hversion hprepare hu hserves al haddr hfuel
      refine ⟨o, hrun, hclosed.trans ?_⟩
      cases hcomplete : env.complete opt <;> simp [CutShort, hversion, henabled, hcomplete]

/-- There is one file, with one packet. -/
def sampleEnvironment : Environment where
  connect _ _ := .null
  bind _ := none
  opens _ := true
  source _ arg := if arg = lit "a.pcap" then .ok [(.ipv4Packet, samplePacket [1] 5)]
    else .error (lit "No such file or directory")

/-- `-r a.pcap -r b.pcap` -/
def sampleOptions : Options where
  version := false
  quiet := false
  readFile := [lit "a.pcap", lit "b.pcap"]
  interface := none
  redisDb := none
  redisHost := lit "localhost"
  redisPort := lit "6379"
  zmqAddr := none
  msgpackPath := none

theorem sampleOptions_serves : Serves format Redis.store sampleEnvironment sampleOptions ∅ :=
  ⟨by simp [sampleOptions], by simp [sampleOptions]⟩

theorem run_closed_sample :
    ∃ o, run format Redis.store .above 20 sampleEnvironment sampleOptions ∅ = some o ∧
      (Closed o.trace ↔ ¬ CutShort Redis.store sampleEnvironment sampleOptions ∅) :=
  run_closed format Redis.store .above 20 sampleEnvironment sampleOptions ∅ sampleOptions_serves
    (by decide) (by decide)

/-- The flow of the first file is never reported to end. -/
theorem run_not_closed :
    ∃ o, run format Redis.store .above 20 sampleEnvironment sampleOptions ∅ = some o ∧
      o.rc = 1 ∧ ¬ Closed o.trace := by
  have hprepare : prepare format Redis.store sampleEnvironment sampleOptions ∅ =
      some ((Hive.init, ∅), true) := rfl
  obtain ⟨o, hrun, hrc, hclosed⟩ := run_capture rfl hprepare
    ⟨rfl, by simp [Hive.init, DnsDB.init]⟩ sampleOptions_serves .above
    (show ∀ p ∈ packets (sampleEnvironment.events sampleOptions), p.HasAddrs by decide)
    (show (sampleEnvironment.events sampleOptions).length < 20 by decide)
  refine ⟨o, hrun, hrc, fun h ↦ ?_⟩
  rcases hclosed.mp h with hcomplete | hpackets
  · exact absurd hcomplete (by decide)
  · exact absurd (congrArg List.length hpackets) (by decide)

end DnsHive
