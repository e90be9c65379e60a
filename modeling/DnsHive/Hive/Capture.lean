import DnsHive.Flow.Roster
import DnsHive.Hive.Exits

/-!
# A capture is one run

The program captures from an interface, or from files that it opens one after the other.  Either
way the hive is run once, on the events of everything that is there; what else comes out of the
capture is known from the options before it begins.

* `prepare_ready` — what the capture begins with.
* `captureAll_run` — what it comes to.
* `run_eq` — what is left to do.
-/

set_option autoImplicit false

namespace DnsHive

open Msgpack Swarm

namespace Environment

/-- Why the device or the file is not there. -/
def reason (env : Environment) (dev : Bool) (arg : Bytes) : Option Bytes :=
  match env.source dev arg with
  | .ok _ => none
  | .error errmsg => some errmsg

/-- Why the capture ends before its time. -/
def failure (env : Environment) (opt : Options) : Option Bytes :=
  match opt.interface with
  | some interface => env.reason true interface
  | none => opt.readFile.findSome? (env.reason false)

/-- What is printed of the files, up to the first one that is not there. -/
def progress (env : Environment) : List Bytes → List Bytes
  | [] => []
  | file :: files =>
    (lit "Read file: " ++ file) :: if env.ready false file then progress env files else []

/-- What is printed of the capture. -/
def progressAll (env : Environment) (opt : Options) : List Bytes :=
  match opt.interface, opt.readFile with
  | some interface, _ => [lit "Interface: " ++ interface]
  | none, [] => [lit "No file and interface to capture. exiting..."]
  | none, files => env.progress files

end Environment

/-- The record that is published for a notice. -/
def Notice.record : Notice → Record
  | opened f => Output.newFlow f
  | closed f => Output.expireFlow f

theorem record_notice (acts : List Action) :
    acts.filterMap Action.record = (acts.filterMap Action.notice).map Notice.record := by
  rw [List.map_filterMap]
  exact List.filterMap_congr fun a _ ↦ by cases a <;> rfl

/-- The reason is kept. -/
def Hive.withErrmsg (errmsg : Option Bytes) (h : Hive) : Hive :=
  { h with errmsg := errmsg.getD h.errmsg }

section Capture

variable {σ : Type} (c : Codec) (srv : Redis σ) (al : Allocator) (fuel : Nat) (env : Environment)

/-- What a capture makes of the run of the hive. -/
def captured (errmsg : Option Bytes) (cerr : List Bytes) (ok : Bool)
    (r : (Hive × σ) × List (List Action)) : (Hive × σ) × List Bytes × List Action × Bool :=
  ((r.1.1.withErrmsg errmsg, r.1.2), cerr, r.2.flatten, ok)

theorem readFiles_run (files : List Bytes) (w : Hive × σ) :
    readFiles c srv al fuel env files w =
      (Machine.run (Hive.deliver c srv al fuel) w (env.delivered files)).map
        (captured (files.findSome? (env.reason false)) (env.progress files)
          (files.all (env.ready false))) := by
  induction files generalizing w with
  | nil => rfl
  | cons file files ih =>
    rw [readFiles, Hive.capture, Environment.delivered, Environment.progress, List.findSome?_cons,
      Environment.reason, List.all_cons, Environment.ready]
    cases hsource : env.source false file with
    | error errmsg => rfl
    | ok events =>
      simp only [Machine.run_append_eq]
      cases Machine.run (Hive.deliver c srv al fuel) w events with
      | none => rfl
      | some r =>
        simp only [Option.bind_eq_bind, Option.bind_some, Option.pure_def, ih]
        cases Machine.run (Hive.deliver c srv al fuel) r.1 (env.delivered files) with
        | none => rfl
        | some q => simp [captured]

/-- **A capture is one run** of the hive, on the events of everything that is there. -/
theorem captureAll_run (opt : Options) (w : Hive × σ) :
    captureAll c srv al fuel env opt w =
      (Machine.run (Hive.deliver c srv al fuel) w (env.events opt)).map
        (captured (env.failure opt) (env.progressAll opt) (env.complete opt)) := by
  rw [captureAll, Environment.events, Environment.failure, Environment.progressAll,
    Environment.complete]
  cases opt.interface with
  | some interface =>
    simp only [Hive.capture, Environment.reason, Environment.ready]
    cases env.source true interface with
    | error errmsg => rfl
    | ok events =>
      simp only [Except.toOption, Option.getD_some]
      cases Machine.run (Hive.deliver c srv al fuel) w events <;> rfl
  | none =>
    cases opt.readFile with
    | nil => rfl
    | cons file files => exact readFiles_run c srv al fuel env (file :: files) w

end Capture

/-! ## Before the capture -/

/-- There is no flow and no alias, and the handlers have an output. -/
structure Hive.Ready (h : Hive) : Prop where
  ipFlow : h.ipFlow = FlowHandler.init true
  cnameMap : h.dnsDb.cnameMap = ∅
  dbOutput : h.dnsDb.output = true

/-- What is enabled when no stage has failed.  The file may be one that could not be opened. -/
def Environment.sinks (env : Environment) (opt : Options) : Output where
  zmqSock := opt.zmqAddr.map fun _ ↦ ⟨true, []⟩
  enableMsgpackOfs := opt.msgpackPath.isSome
  ofs := opt.msgpackPath.elim Output.init.ofs fun path ↦ Output.init.ofs.open (env.opens path)
  errmsg := []

section Prepare

variable {σ : Type} {c : Codec} {srv : Redis σ} {env : Environment} {opt : Options} {st : σ}

theorem enableRedisDb_keeps (srv : Redis σ) (connect : Bytes → Int → Connection) (w : DnsDB × σ)
    (host port db : Bytes) :
    (DnsDB.enableRedisDb srv connect w host port db).1.1.cnameMap = w.1.cnameMap ∧
      (DnsDB.enableRedisDb srv connect w host port db).1.1.output = w.1.output := by
  simp only [DnsDB.enableRedisDb]
  split
  · exact ⟨rfl, rfl⟩
  · split
    · exact ⟨rfl, rfl⟩
    · exact ⟨rfl, rfl⟩
    · split <;> exact ⟨rfl, rfl⟩

theorem loadRedisDb_keeps {w w' : DnsDB × σ} {rc : Int}
    (h : DnsDB.loadRedisDb c srv w = some (w', rc)) :
    w'.1.cnameMap = w.1.cnameMap ∧ w'.1.output = w.1.output := by
  obtain ⟨com, -, h⟩ := Option.bind_eq_some_iff.mp h
  cases com with
  | array elements =>
    obtain ⟨r, -, h⟩ := Option.bind_eq_some_iff.mp h
    obtain ⟨rfl, -⟩ := Prod.mk.inj (Option.some.inj h)
    exact ⟨rfl, rfl⟩
  | _ =>
    obtain ⟨rfl, -⟩ := Prod.mk.inj (Option.some.inj h)
    exact ⟨rfl, rfl⟩

/-- Redis only brings names. -/
theorem prepareRedis_ready {w : Hive × σ} {ok : Bool}
    (h : prepareRedis c srv env opt st = some (w, ok)) :
    w.1.Ready ∧ w.1.output = Output.init := by
  rw [prepareRedis] at h
  cases hdb : opt.redisDb with
  | none =>
    rw [hdb] at h
    obtain ⟨rfl, -⟩ := Prod.mk.inj (Option.some.inj h)
    exact ⟨⟨rfl, rfl, rfl⟩, rfl⟩
  | some db =>
    obtain ⟨hcname, hout⟩ := enableRedisDb_keeps srv env.connect (Hive.init.dnsDb, st)
      opt.redisHost opt.redisPort db
    simp only [hdb, Hive.enableRedisDb] at h
    split at h
    · obtain ⟨r, hload, hr⟩ := Option.bind_eq_some_iff.mp h
      obtain ⟨rfl, -⟩ := Prod.mk.inj (Option.some.inj hr)
      obtain ⟨hcname', hout'⟩ := loadRedisDb_keeps hload
      exact ⟨⟨rfl, hcname'.trans hcname, hout'.trans hout⟩, rfl⟩
    · obtain ⟨rfl, -⟩ := Prod.mk.inj (Option.some.inj h)
      exact ⟨⟨rfl, hcname, hout⟩, rfl⟩

theorem prepareZmq_ready {h : Hive} (hready : h.Ready) (env : Environment) (opt : Options) :
    (prepareZmq env opt h).1.Ready := by
  rw [prepareZmq]
  split
  · rw [Hive.enableZmq]
    dsimp only
    split <;> exact ⟨hready.ipFlow, hready.cnameMap, hready.dbOutput⟩
  · exact hready

theorem prepareMsgpack_ready {h : Hive} (hready : h.Ready) (env : Environment) (opt : Options) :
    (prepareMsgpack env opt h).1.Ready := by
  rw [prepareMsgpack]
  split
  · exact ⟨hready.ipFlow, hready.cnameMap, hready.dbOutput⟩
  · exact hready

/-- The sinks, when they have been enabled. -/
theorem prepare_sinks {h : Hive} (hout : h.output = Output.init)
    (hzmq : (prepareZmq env opt h).2) :
    (prepareMsgpack env opt (prepareZmq env opt h).1).1.output = env.sinks opt := by
  have hsock : (prepareZmq env opt h).1.output =
      { Output.init with zmqSock := opt.zmqAddr.map fun _ ↦ ⟨true, []⟩ } := by
    rw [prepareZmq] at hzmq ⊢
    cases haddr : opt.zmqAddr with
    | none => exact hout
    | some addr =>
      cases hbind : env.bind (lit "tcp://" ++ addr) with
      | none => simp [Hive.enableZmq, Output.enableZmq, hbind, hout]
      | some what => simp [haddr, Hive.enableZmq, Output.enableZmq, hbind] at hzmq
  rw [prepareMsgpack, Environment.sinks]
  cases opt.msgpackPath with
  | none => exact hsock
  | some path =>
    simp only [Hive.enableMsgpackOfs, Output.enableMsgpack, hsock, if_true]
    rfl

/-- How far the program gets. -/
theorem prepare_cases {w : Hive × σ} {ok : Bool} (h : prepare c srv env opt st = some (w, ok)) :
    ∃ h₁ ok₁, prepareRedis c srv env opt st = some ((h₁, w.2), ok₁) ∧
      (w.1 = h₁ ∧ ok = false ∨
        w.1 = (prepareZmq env opt h₁).1 ∧ ok = false ∨
        w.1 = (prepareMsgpack env opt (prepareZmq env opt h₁).1).1 ∧ ok₁ ∧
          (prepareZmq env opt h₁).2) := by
  obtain ⟨⟨⟨h₁, st₁⟩, ok₁⟩, hredis, h⟩ := Option.bind_eq_some_iff.mp h
  simp only at h
  split at h
  · obtain ⟨rfl, rfl⟩ := Prod.mk.inj (Option.some.inj h)
    exact ⟨h₁, ok₁, hredis, .inl ⟨rfl, rfl⟩⟩
  · rename_i hok₁
    split at h
    · obtain ⟨rfl, rfl⟩ := Prod.mk.inj (Option.some.inj h)
      exact ⟨h₁, ok₁, hredis, .inr (.inl ⟨rfl, rfl⟩)⟩
    · rename_i hzmq
      obtain ⟨rfl, -⟩ := Prod.mk.inj (Option.some.inj h)
      exact ⟨h₁, ok₁, hredis, .inr (.inr ⟨rfl, by simpa using hok₁, by simpa using hzmq⟩)⟩

/-- **What the capture begins with.** -/
theorem prepare_ready {w : Hive × σ} {ok : Bool} (h : prepare c srv env opt st = some (w, ok)) :
    w.1.Ready ∧ (ok → w.1.output = env.sinks opt) := by
  obtain ⟨h₁, ok₁, hredis, hcases⟩ := prepare_cases h
  obtain ⟨hready, hout⟩ := prepareRedis_ready hredis
  have hready' := prepareZmq_ready hready env opt
  rcases hcases with ⟨hw, rfl⟩ | ⟨hw, rfl⟩ | ⟨hw, -, hzmq⟩ <;> rw [hw]
  · exact ⟨hready, fun hok ↦ nomatch hok⟩
  · exact ⟨hready', fun hok ↦ nomatch hok⟩
  · exact ⟨prepareMsgpack_ready hready' env opt, fun _ ↦ prepare_sinks hout hzmq⟩

end Prepare

/-! ## After the capture -/

section Finish

variable {σ : Type}

/-- The program once everything has been captured. -/
def finish (fuel : Nat) (r : (Hive × σ) × List Bytes × List Action × Bool) :
    Option (Outcome σ) := do
  let (w, cerr, acts, ok) := r
  if !ok then return .error w cerr acts
  let (h, rest) ← w.1.destroy fuel
  return ⟨0, cerr, acts ++ rest, some h.output, w.2⟩

theorem run_eq (c : Codec) (srv : Redis σ) (al : Allocator) (fuel : Nat) (env : Environment)
    {opt : Options} (hversion : opt.version = false) (st : σ) :
    run c srv al fuel env opt st = (prepare c srv env opt st).bind fun r ↦
      if !r.2 then some (.error r.1 [] [])
      else (captureAll c srv al fuel env opt r.1).bind (finish fuel) := by
  rw [run, hversion]
  rfl

/-- What a run does, whatever it prints. -/
def Outcome.done (o : Outcome σ) : Int × List Action × Option Output × σ :=
  (o.rc, o.trace, o.output, o.server)

/-- **How the events are cut into files makes no difference.**  The program does the same with any
other files, or with an interface, if they bring the same events in the same order, and if there are
files missing in both cases or in neither. -/
theorem run_recut (c : Codec) (srv : Redis σ) (al : Allocator) (fuel : Nat) (env : Environment)
    (opt : Options) (st : σ) (source : Bool → Bytes → Except Bytes (List Event))
    (interface : Option Bytes) (readFile : List Bytes) {env' : Environment} {opt' : Options}
    (henv : env' = { env with source := source })
    (hopt : opt' = { opt with interface := interface, readFile := readFile })
    (hevents : env'.events opt' = env.events opt)
    (hcomplete : env'.complete opt' = env.complete opt) :
    (run c srv al fuel env' opt' st).map Outcome.done =
      (run c srv al fuel env opt st).map Outcome.done := by
  have hprepare : prepare c srv env' opt' st = prepare c srv env opt st := by rw [henv, hopt]; rfl
  have hversion : opt'.version = opt.version := by rw [hopt]
  cases hv : opt.version with
  | true => simp [run, hv, hversion]
  | false =>
    rw [run_eq c srv al fuel env' (hversion.trans hv), run_eq c srv al fuel env hv, hprepare]
    cases prepare c srv env opt st with
    | none => rfl
    | some r =>
      obtain ⟨w, ok⟩ := r
      cases ok with
      | false => rfl
      | true =>
        simp only [Option.bind_some, Bool.not_true, Bool.false_eq_true, if_false, captureAll_run,
          hevents, hcomplete, Option.bind_map]
        cases Machine.run (Hive.deliver c srv al fuel) w (env.events opt) with
        | none => rfl
        | some r =>
          simp only [Option.bind_some, Function.comp_apply, finish, captured]
          cases env.complete opt with
          | false => rfl
          | true =>
            simp only [Hive.destroy, Hive.withErrmsg]
            cases r.1.1.ipFlow.destroy fuel <;> rfl

/-- The same packet from a file and from an interface. -/
theorem run_recut_sample :
    (run format Redis.store .above 20
        { sampleEnvironment with source := fun _ _ ↦ .ok [(.ipv4Packet, samplePacket [1] 5)] }
        { sampleOptions with interface := some (lit "eth0") } ∅).map Outcome.done =
      (run format Redis.store .above 20 sampleEnvironment
        { sampleOptions with readFile := [lit "a.pcap"] } ∅).map Outcome.done :=
  run_recut format Redis.store .above 20 sampleEnvironment
    { sampleOptions with readFile := [lit "a.pcap"] } ∅
    (fun _ _ ↦ .ok [(.ipv4Packet, samplePacket [1] 5)]) (some (lit "eth0"))
    [lit "a.pcap", lit "b.pcap"] rfl rfl rfl rfl

end Finish

end DnsHive
