import DnsHive.Hive.Capture
import DnsHive.Hive.Names
import DnsHive.Hive.Stream

/-!
# The journal of a capture

What the program reports is a function of the events it gets and of the names that it has read back
before: the calls in `report`.  A `Journal` has neither memory nor a server nor sinks, only the
answers so far, the roster of the flows and the calls that have been made.

* `run_faults` — when there is no output, because the program faults.
* `run_reports` — the output is what these calls make of it, at every exit after the capture.
-/

set_option autoImplicit false

namespace DnsHive

open Chase Msgpack Swarm

/-- The call that reports an answer, if it is reported. -/
def Answer.call (r : Answer) : Option Call :=
  if r.ptr.isSome ∧ (r.IsAddress ∨ r.IsCname) then
    some (.dnsAnswer r.ts r.name r.type r.addr r.dstAddr)
  else none

/-- The call that tells a notice. -/
def Notice.call : Notice → Call
  | opened f => .newFlow f
  | closed f => .expireFlow f

/-- The other way round. -/
def Call.notice : Call → Option Notice
  | dnsAnswer .. => none
  | newFlow f => some (.opened f)
  | expireFlow f => some (.closed f)

/-- The name that is shown for an address: the one that is known, or else the first one in the
answers `rs`, and the aliases are traced from it.  If there is none, it is the text of the
address. -/
def nameAt (known : StdMap) (rs : List Answer) (text bytes : Bytes) : Bytes :=
  (((known.lookup bytes).or (firstName Answer.key rs bytes)).map (follow (aliases rs) 10)).getD text

/-- The names of a packet.  Both addresses are read with the length of the source. -/
def namesAt (known : StdMap) (rs : List Answer) (p : Property) : Option (Bytes × Bytes) := do
  let sAddr ← p.srcPtr
  let dAddr ← p.dstPtr
  return (nameAt known rs p.srcAddr (sAddr.toBytes p.srcLen),
    nameAt known rs p.dstAddr (dAddr.toBytes p.srcLen))

/-- What the program would write down of its events. -/
structure Journal where
  answers : List Answer
  roster : Roster
  calls : List Call

namespace Journal

def init : Journal := ⟨[], .init, []⟩

/-- One event. -/
def note (known : StdMap) (J : Journal) (e : Event) : Journal :=
  if e.1.isPacket then
    match namesAt known J.answers e.2 with
    | none => J
    | some names =>
      let (roster, notices) := J.roster.observe e.2 names
      { J with roster := roster, calls := J.calls ++ notices.map Notice.call }
  else
    { J with
      answers := J.answers ++ DnsDB.answers e.2
      calls := J.calls ++ (DnsDB.answers e.2).filterMap Answer.call }

end Journal

/-- The journal of the events. -/
def journal (known : StdMap) (es : List Event) : Journal := es.foldl (Journal.note known) .init

/-- What is reported of the events, and of the end of the flows if they are closed. -/
def report (known : StdMap) (es : List Event) (close : Bool) : List Call :=
  let J := journal known es
  J.calls ++ if close then J.roster.destroy.map Notice.call else []

variable {known : StdMap}

theorem journal_concat (es : List Event) (e : Event) :
    journal known (es ++ [e]) = (journal known es).note known e := by
  rw [journal, List.foldl_append]
  rfl

/-- What is noted of a packet. -/
theorem Journal.note_packet {J : Journal} {e : Event} (he : e.1.isPacket) {names : Bytes × Bytes}
    (hnames : namesAt known J.answers e.2 = some names) {R : Roster} {notices : List Notice}
    (hobserve : J.roster.observe e.2 names = (R, notices)) :
    J.note known e = { J with roster := R, calls := J.calls ++ notices.map Notice.call } := by
  rw [note, if_pos he, hnames]
  simp only [hobserve]

/-- What is noted of answers. -/
theorem Journal.note_answers {J : Journal} {e : Event} (he : ¬ e.1.isPacket) :
    J.note known e = { J with
      answers := J.answers ++ DnsDB.answers e.2
      calls := J.calls ++ (DnsDB.answers e.2).filterMap Answer.call } := if_neg he

theorem journal_answers (known : StdMap) (es : List Event) :
    (journal known es).answers = es.flatMap answersOf := by
  induction es using List.reverseRecOn with
  | nil => rfl
  | append_singleton es e ih =>
    rw [journal_concat, List.flatMap_append, List.flatMap_singleton, Journal.note, answersOf, ← ih]
    split
    · rw [List.append_nil]
      cases namesAt known (journal known es).answers e.2 <;> rfl
    · rfl

theorem notice_call (notices : List Notice) :
    (notices.map Notice.call).filterMap Call.notice = notices := by
  rw [List.filterMap_map]
  exact (List.filterMap_congr fun n _ ↦ by cases n <;> rfl).trans List.filterMap_some

theorem notice_answers (rs : List Answer) :
    (rs.filterMap Answer.call).filterMap Call.notice = [] := by
  rw [List.filterMap_filterMap, List.filterMap_eq_nil_iff]
  intro r _
  rw [Answer.call]
  split <;> rfl

/-! ## Records -/

/-- The calls pack these records. -/
def Packs (calls : List Call) (records : List Record) : Prop :=
  calls.map Call.record = records.map some

theorem Packs.append {calls calls' : List Call} {records records' : List Record}
    (h : Packs calls records) (h' : Packs calls' records') :
    Packs (calls ++ calls') (records ++ records') := by
  rw [Packs, List.map_append, List.map_append, h, h']

theorem Packs.run {calls : List Call} {records : List Record} (h : Packs calls records)
    (out : Output) : calls.foldlM Call.run out = some (records.foldl Output.publish out) := by
  induction records generalizing calls out with
  | nil =>
    obtain rfl : calls = [] := List.map_eq_nil_iff.mp h
    rfl
  | cons r records ih =>
    obtain ⟨c, calls, rfl, hc, hcalls⟩ := List.map_eq_cons_iff.mp h
    rw [List.foldlM_cons, Call.run, hc]
    exact ih hcalls _

theorem packs_records (acts : List Action) :
    Packs ((acts.filterMap Action.notice).map Notice.call) (acts.filterMap Action.record) := by
  rw [Packs, record_notice, List.map_map, List.map_map]
  exact List.map_congr_left fun n _ ↦ by cases n <;> rfl

variable {σ : Type} {c : Codec} {srv : Redis σ}

theorem Effect.packs {w w' : DnsDB × σ} {r : Answer} {events : List Record}
    (h : Effect c srv w r w' events) (hout : w.1.output) : Packs r.call.toList events := by
  cases h with
  | ignored hr => simp [Packs, Answer.call, hr]
  | aliased hptr hc =>
    have hcall : r.call = some (.dnsAnswer r.ts r.name r.type r.addr r.dstAddr) :=
      if_pos ⟨hptr, .inr hc⟩
    rw [hcall, if_pos hout]
    exact congrArg ([·]) (r.dnsAnswer_cname hc)
  | @recorded k ha hkey =>
    have hcall : r.call = some (.dnsAnswer r.ts r.name r.type r.addr r.dstAddr) :=
      if_pos ⟨r.ptr_of_key hkey, .inl ha⟩
    rw [hcall, if_pos hout]
    exact congrArg ([·]) (r.dnsAnswer_address ha)

theorem packs_of_taken {w w' : DnsDB × σ} {rs : List Answer} {outs : List (List Record)}
    (h : Taken c srv w rs outs w') (hout : w.1.output) :
    Packs (rs.filterMap Answer.call) outs.flatten ∧ w'.1.output := by
  induction h with
  | nil => exact ⟨rfl, hout⟩
  | @snoc rs outs w₁ w₂ r events hruns heffect ih =>
    obtain ⟨hpacks, hout₁⟩ := ih
    refine ⟨?_, heffect.output.trans hout₁⟩
    rw [List.filterMap_append, List.flatten_append]
    have hone := heffect.packs hout₁
    cases hcall : r.call <;> simpa [hcall] using hpacks.append hone

/-! ## Events -/

section Journaled

variable {al : Allocator} {fuel : Nat} {w₀ w : Hive × σ} {es : List Event} {e : Event}

/-- The names that the handler looks up. -/
theorem hosts_eq {db₀ db : DnsDB} {rs : List Answer} (h : Learned db₀ rs db)
    (hcname : db₀.cnameMap = ∅) (p : Property) :
    FlowHandler.hosts db p = namesAt db₀.revMap rs p := by
  have halias : db.cname = aliases rs := by
    funext target
    rw [DnsDB.cname, h.cnameMap, hcname]
    rfl
  have hname (text : Bytes) (addr : VoidPtr) (len : Nat) :
      (db.lookup addr len).getD text = nameAt db₀.revMap rs text (addr.toBytes len) := by
    rw [DnsDB.lookup_eq, halias, h.revMap]
    rfl
  rw [FlowHandler.hosts, namesAt]
  cases p.srcPtr with
  | none => rfl
  | some sAddr =>
    cases p.dstPtr with
    | none => rfl
    | some dAddr => simp only [hname]; rfl

/-- The roster of a journal has had a run of its own, on the packets. -/
structure Played (J : Journal) (ps : List Property) (ins : List (DnsDB × Property)) : Prop where
  inputs : ins.map Prod.snd = ps
  run : ∃ outs, Machine.run Roster.recv .init ins = some (J.roster, outs) ∧
    J.calls.filterMap Call.notice = outs.flatten

theorem Played.length_le {J : Journal} {ins : List (DnsDB × Property)}
    (h : Played J (packets es) ins) : ins.length ≤ es.length := by
  rw [← List.length_map (f := Prod.snd), h.inputs]
  exact packets_length_le es

/-- What the roster tells from its beginning to its end is in the report. -/
theorem Played.lifetime {ins : List (DnsDB × Property)}
    (h : Played (journal known es) (packets es) ins) :
    Roster.lifetime ins = some ((report known es true).filterMap Call.notice) := by
  obtain ⟨outs, hrun, hcalls⟩ := h.run
  have hreport : report known es true =
      (journal known es).calls ++ (journal known es).roster.destroy.map Notice.call := rfl
  rw [Roster.lifetime, hrun, Option.map_some, hreport, List.filterMap_append, hcalls, notice_call]

/-- The hive stands where the journal does, after the events `es` from `w₀`. -/
structure Journaled (w₀ : Hive × σ) (es : List Event) (w : Hive × σ) : Prop where
  learned : Learned w₀.1.dnsDb (es.flatMap answersOf) w.1.dnsDb
  dbOutput : w.1.dnsDb.output = true
  enrolled : ∃ ins, Played (journal w₀.1.dnsDb.revMap es) (packets es) ins ∧
    Enrolled ins w.1.ipFlow (journal w₀.1.dnsDb.revMap es).roster
  output : (journal w₀.1.dnsDb.revMap es).calls.foldlM Call.run w₀.1.output = some w.1.output

theorem Journaled.nil (h : w₀.1.Ready) : Journaled w₀ [] w₀ :=
  ⟨.nil _, h.dbOutput, ⟨[], ⟨rfl, [], rfl, rfl⟩, by rw [h.ipFlow]; exact .init⟩, rfl⟩

/-- A packet is told as the journal has it. -/
theorem Journaled.packet (h : Journaled w₀ es w) (hcname : w₀.1.dnsDb.cnameMap = ∅) (c : Codec)
    (srv : Redis σ) (al : Allocator) (hf : es.length < fuel) (he : e.1.isPacket)
    (haddr : e.2.HasAddrs) :
    ∃ w' acts, Hive.deliver c srv al fuel w e = some (w', acts) ∧ Journaled w₀ (es ++ [e]) w' := by
  obtain ⟨ins, hplayed, hR⟩ := h.enrolled
  have hhosts := hosts_eq h.learned hcname e.2
  rw [← journal_answers w₀.1.dnsDb.revMap] at hhosts
  obtain ⟨names, hnames⟩ : ∃ names, namesAt w₀.1.dnsDb.revMap
      (journal w₀.1.dnsDb.revMap es).answers e.2 = some names := by
    obtain ⟨sAddr, hs⟩ := Option.isSome_iff_exists.mp haddr.1
    obtain ⟨dAddr, hd⟩ := Option.isSome_iff_exists.mp haddr.2
    exact ⟨_, by rw [namesAt, hs, hd]; rfl⟩
  rcases hobserve : (journal w₀.1.dnsDb.revMap es).roster.observe e.2 names with ⟨R, notices⟩
  have hstep : (journal w₀.1.dnsDb.revMap es).roster.recv (w.1.dnsDb, e.2) = some (R, notices) := by
    rw [Roster.recv, hhosts, hnames, Option.map_some, hobserve]
  have hagree := recv_roster hR al (w.1.dnsDb, e.2) (hplayed.length_le.trans_lt hf)
  rw [hstep] at hagree
  obtain ⟨s, acts, hrecv, hE, rfl⟩ := hagree.eq_some
  refine ⟨({ w.1 with ipFlow := s }.publish (acts.filterMap Action.record), w.2), acts,
    by simp [Hive.deliver, he, hrecv], ?_, h.dbOutput, ?_, ?_⟩
  · rw [List.flatMap_append, List.flatMap_singleton, answersOf, if_pos he, List.append_nil]
    exact h.learned
  · rw [journal_concat, Journal.note_packet he hnames hobserve]
    refine ⟨_, ⟨?_, ?_⟩, hE⟩
    · rw [List.map_append, hplayed.inputs]
      simp [packets, he]
    · obtain ⟨outs, hrun, hcalls⟩ := hplayed.run
      refine ⟨_, Machine.run_concat hrun hstep, ?_⟩
      rw [List.filterMap_append, hcalls, notice_call]
      simp
  · rw [journal_concat, Journal.note_packet he hnames hobserve, List.foldlM_append, h.output]
    exact (packs_records acts).run _

/-- Answers are told as the journal has them. -/
theorem Journaled.answers (h : Journaled w₀ es w) (c : Codec) (srv : Redis σ) (al : Allocator)
    (fuel : Nat) (he : ¬ e.1.isPacket)
    (hreply : w₀.1.dnsDb.redisCtx → ∀ st k v, (srv.command st (.lpush k v)).2.isSome) :
    ∃ w' acts, Hive.deliver c srv al fuel w e = some (w', acts) ∧ Journaled w₀ (es ++ [e]) w' := by
  obtain ⟨w', records, hrecv, -⟩ := recv_isSome c srv (w.1.dnsDb, w.2) e.2 fun hredis ↦
    hreply (h.learned.redisCtx ▸ hredis)
  obtain ⟨outs, hrun, rfl⟩ := (recv_eq_run c srv _ _ _ _).mp hrecv
  obtain ⟨hpacks, hout⟩ := packs_of_taken (taken_of_run hrun) h.dbOutput
  refine ⟨({ w.1 with dnsDb := w'.1 }.publish outs.flatten, w'.2), [],
    by simp [Hive.deliver, he, hrecv], ?_, hout, ?_, ?_⟩
  · rw [List.flatMap_append, List.flatMap_singleton, answersOf, if_neg he]
    exact h.learned.append (.of_taken (taken_of_run hrun))
  · obtain ⟨ins, ⟨hins, outs', hrun', hcalls⟩, hR⟩ := h.enrolled
    rw [journal_concat, Journal.note_answers he]
    refine ⟨ins, ⟨?_, outs', hrun', ?_⟩, hR⟩
    · rw [hins]
      simp [packets, he]
    · rw [List.filterMap_append, hcalls, notice_answers, List.append_nil]
  · rw [journal_concat, Journal.note_answers he, List.foldlM_append, h.output]
    exact hpacks.run _

/-- **The events of a capture are told** without a fault. -/
theorem run_journaled (hready : w₀.1.Ready) (c : Codec) (srv : Redis σ) (al : Allocator)
    (hreply : w₀.1.dnsDb.redisCtx → ∀ st k v, (srv.command st (.lpush k v)).2.isSome)
    (haddr : ∀ p ∈ packets es, p.HasAddrs) (hfuel : es.length ≤ fuel) :
    ∃ w outs, Machine.run (Hive.deliver c srv al fuel) w₀ es = some (w, outs) ∧
      Journaled w₀ es w := by
  refine Machine.run_history (P := fun es _ w ↦ Journaled w₀ es w) (.nil hready) ?_ es
    List.prefix_rfl
  intro fs e _ w hpre h
  have hle := hpre.length_le
  rw [List.length_append, List.length_singleton] at hle
  by_cases he : e.1.isPacket
  · refine h.packet hready.cnameMap c srv al (by omega) he (haddr _ ?_)
    exact List.mem_map_of_mem (List.mem_filter.mpr ⟨hpre.subset (by simp), he⟩)
  · exact h.answers c srv al fuel he hreply

end Journaled

/-! ## The program -/

section Run

variable {al : Allocator} {fuel : Nat} {env : Environment} {opt : Options} {st : σ}

/-- The output when the program ends, destroyed with the hive if it gets so far. -/
def Output.atEnd (out : Output) (ok : Bool) : Output := if ok then out.destroy else out

/-- What the program does at the end of the capture. -/
theorem Journaled.finish {w₀ w : Hive × σ} {es : List Event} (h : Journaled w₀ es w)
    (hf : es.length < fuel) (outs : List (List Action)) (errmsg : Option Bytes)
    (cerr : List Bytes) (ok : Bool) :
    ∃ o out, finish fuel (captured errmsg cerr ok (w, outs)) = some o ∧
      o.output = some (out.atEnd ok) ∧ o.rc = (if ok then 0 else 1) ∧ o.server = w.2 ∧
      (report w₀.1.dnsDb.revMap es ok).foldlM Call.run w₀.1.output = some out := by
  cases ok with
  | false =>
    refine ⟨.error (w.1.withErrmsg errmsg, w.2) cerr outs.flatten, w.1.output, rfl, rfl, rfl, rfl,
      ?_⟩
    have hreport : report w₀.1.dnsDb.revMap es false = (journal w₀.1.dnsDb.revMap es).calls :=
      List.append_nil _
    rw [hreport, h.output]
  | true =>
    obtain ⟨ins, hplayed, hR⟩ := h.enrolled
    obtain ⟨s, acts, hdestroy, hacts⟩ := destroy_roster hR (hplayed.length_le.trans_lt hf)
    have hcall := Hive.destroy_eq (h := w.1.withErrmsg errmsg) hdestroy
    have hrecords := packs_records acts
    rw [← hacts] at hrecords
    have hreport : report w₀.1.dnsDb.revMap es true =
        (journal w₀.1.dnsDb.revMap es).calls ++
          (journal w₀.1.dnsDb.revMap es).roster.destroy.map Notice.call := rfl
    refine ⟨_, (acts.filterMap Action.record).foldl Output.publish w.1.output,
      by simp only [DnsHive.finish, captured, hcall]; rfl, rfl, rfl, rfl, ?_⟩
    rw [hreport, List.foldlM_append, h.output, Option.bind_eq_bind, Option.bind_some]
    exact hrecords.run w.1.output

/-- The program is run up to the end of its capture. -/
theorem run_finish (c : Codec) (srv : Redis σ) (al : Allocator) (hversion : opt.version = false)
    (hserves : Serves c srv env opt st) (henabled : Enabled srv env opt st)
    (haddr : ∀ p ∈ packets (env.events opt), p.HasAddrs) (hfuel : (env.events opt).length < fuel) :
    ∃ w w' outs, prepare c srv env opt st = some (w, true) ∧ w.1.output = env.sinks opt ∧
      Machine.run (Hive.deliver c srv al fuel) w (env.events opt) = some (w', outs) ∧
      Journaled w (env.events opt) w' ∧
      run c srv al fuel env opt st = finish fuel
        (captured (env.failure opt) (env.progressAll opt) (env.complete opt) (w', outs)) := by
  obtain ⟨w, ok, hprepare, hu, hok⟩ := prepare_eq hserves
  obtain rfl : ok = true := hok.mpr henabled
  obtain ⟨hready, hsinks⟩ := prepare_ready hprepare
  obtain ⟨w', outs, hrun, hjournal⟩ := run_journaled hready c srv al
    (fun h ↦ hserves.reply (hu.redisCtx h)) haddr hfuel.le
  refine ⟨w, w', outs, hprepare, hsinks rfl, hrun, hjournal, ?_⟩
  rw [run_eq c srv al fuel env hversion, hprepare]
  simp [captureAll_run, hrun]

/-! ## Faults -/

theorem hasAddrs_of_recv {db : DnsDB} {p : Property} {s s' : FlowHandler} {acts : List Action}
    (h : FlowHandler.recv al fuel s (db, p) = some (s', acts)) : p.HasAddrs := by
  obtain ⟨due, -, h⟩ := Option.bind_eq_some_iff.mp h
  obtain ⟨names, hhosts, -⟩ := Option.bind_eq_some_iff.mp h
  exact hasAddrs_of_hosts hhosts

/-- No packet without an address gets through. -/
theorem hasAddrs_of_run {w w' : Hive × σ} {es : List Event} {outs : List (List Action)}
    (h : Machine.run (Hive.deliver c srv al fuel) w es = some (w', outs)) :
    ∀ p ∈ packets es, p.HasAddrs := by
  induction es generalizing w outs with
  | nil =>
    intro p hp
    exact absurd hp List.not_mem_nil
  | cons e es ih =>
    obtain ⟨w₁, acts, outs', hdeliver, hrun, rfl⟩ := Machine.run_cons_iff.mp h
    by_cases he : e.1.isPacket
    · have hpackets : packets (e :: es) = e.2 :: packets es := by simp [packets, he]
      obtain ⟨ipFlow, hrecv, -⟩ := deliver_packet he hdeliver
      rw [hpackets]
      exact List.forall_mem_cons.mpr ⟨hasAddrs_of_recv hrecv, ih hrun⟩
    · have hpackets : packets (e :: es) = packets es := by simp [packets, he]
      rw [hpackets]
      exact ih hrun

/-- **When the program faults.**  For any events, any allocator and any server that serves it, the
assertions of the program hold, no null pointer is followed and no exception is left uncaught,
unless a packet lacks one of its addresses and has been reached: Redis and ZeroMQ, as far as they
are asked for, could be enabled.  A file for the events that cannot be opened is not noticed. -/
theorem run_faults (c : Codec) (srv : Redis σ) (al : Allocator) (fuel : Nat) (env : Environment)
    (opt : Options) (st : σ) (hserves : Serves c srv env opt st)
    (hfuel : (env.events opt).length < fuel) :
    run c srv al fuel env opt st = none ↔
      opt.version = false ∧ Enabled srv env opt st ∧
        ∃ p ∈ packets (env.events opt), ¬ p.HasAddrs := by
  cases hversion : opt.version with
  | true => simp [run, hversion]
  | false =>
    obtain ⟨w, ok, hprepare, -, hok⟩ := prepare_eq hserves
    cases ok with
    | false =>
      have henabled : ¬ Enabled srv env opt st := by simpa using hok
      simp [run_eq c srv al fuel env hversion, hprepare, henabled]
    | true =>
      have henabled : Enabled srv env opt st := hok.mp rfl
      by_cases haddr : ∀ p ∈ packets (env.events opt), p.HasAddrs
      · obtain ⟨_, w', outs, -, -, -, hjournal, hrun⟩ :=
          run_finish c srv al hversion hserves henabled haddr hfuel
        obtain ⟨o, _, hfinish, -⟩ := hjournal.finish hfuel outs (env.failure opt)
          (env.progressAll opt) (env.complete opt)
        rw [hrun, hfinish]
        simpa using fun _ ↦ haddr
      · have hnone : Machine.run (Hive.deliver c srv al fuel) w (env.events opt) = none := by
          apply Option.eq_none_iff_forall_ne_some.mpr
          intro r hr
          exact haddr (hasAddrs_of_run hr)
        rw [run_eq c srv al fuel env hversion, hprepare]
        simpa [captureAll_run, hnone, henabled] using haddr

/-- A packet without an address to go to. -/
def strayEnvironment : Environment :=
  { sampleEnvironment with
    source := fun _ _ ↦ .ok [(.ipv4Packet, { samplePacket [1] 5 with dstPtr := none })] }

theorem run_faults_sample :
    run format Redis.store .above 20 strayEnvironment sampleOptions ∅ = none ↔
      sampleOptions.version = false ∧ Enabled Redis.store strayEnvironment sampleOptions ∅ ∧
        ∃ p ∈ packets (strayEnvironment.events sampleOptions), ¬ p.HasAddrs :=
  run_faults format Redis.store .above 20 strayEnvironment sampleOptions ∅
    ⟨by simp [sampleOptions], by simp [sampleOptions]⟩ (by decide)

/-! ## The report -/

/-- **What the program reports.**  For any events, any allocator and any server that serves it: if
Redis and ZeroMQ can be enabled as far as they are asked for, and all packets have both addresses,
then the output at the end is what the calls of the report make of the sinks.  A file that could not
be opened is one of these, which takes nothing.  The report begins with the names that have been
read back, and the flows that are open at the end are closed in it if nothing was missing. -/
theorem run_reports (c : Codec) (srv : Redis σ) (al : Allocator) (fuel : Nat) (env : Environment)
    (opt : Options) (st : σ) (hversion : opt.version = false) (hserves : Serves c srv env opt st)
    (henabled : Enabled srv env opt st) (haddr : ∀ p ∈ packets (env.events opt), p.HasAddrs)
    (hfuel : (env.events opt).length < fuel) :
    ∃ w o out, prepare c srv env opt st = some (w, true) ∧
      run c srv al fuel env opt st = some o ∧ o.output = some (out.atEnd (env.complete opt)) ∧
      o.rc = (if env.complete opt then 0 else 1) ∧
      (report w.1.dnsDb.revMap (env.events opt) (env.complete opt)).foldlM Call.run
        (env.sinks opt) = some out := by
  obtain ⟨w, w', outs, hprepare, hsinks, -, hjournal, hrun⟩ :=
    run_finish c srv al hversion hserves henabled haddr hfuel
  obtain ⟨o, out, hfinish, hout, hrc, -, hreport⟩ := hjournal.finish hfuel outs (env.failure opt)
    (env.progressAll opt) (env.complete opt)
  exact ⟨w, o, out, hprepare, hrun.trans hfinish, hout, hrc, hsinks ▸ hreport⟩

/-- `-r a.pcap -d 0` -/
def namingOptions : Options :=
  { sampleOptions with readFile := [lit "a.pcap"], redisDb := some (lit "0") }

/-- The server can be reached, and the file brings two answers and a packet. -/
def namingEnvironment : Environment :=
  { sampleEnvironment with
    connect := fun _ _ ↦ .connected
    source := fun _ _ ↦ .ok [(.dnsAn, prefixAnswers), (.ipv6Packet, mixedPacket)] }

/-- There is a name of the address that the packet comes from. -/
def namingStore : Redis.Store :=
  (Redis.store.command ∅
    (.lpush [10, 10, 10, 10] (format.pack (sampleAnswer "A" "c.example." 10).record))).1

theorem namingOptions_serves :
    Serves format Redis.store namingEnvironment namingOptions namingStore where
  reply _ _ _ _ := rfl
  load db hdb w hcall := by
    obtain rfl := Option.some.inj hdb
    obtain ⟨rfl, -⟩ := Prod.mk.inj hcall
    rfl

theorem run_reports_sample : ∃ w o out,
    prepare format Redis.store namingEnvironment namingOptions namingStore = some (w, true) ∧
      run format Redis.store .above 20 namingEnvironment namingOptions namingStore = some o ∧
      o.output = some (out.atEnd (namingEnvironment.complete namingOptions)) ∧
      o.rc = (if namingEnvironment.complete namingOptions then 0 else 1) ∧
      (report w.1.dnsDb.revMap (namingEnvironment.events namingOptions)
        (namingEnvironment.complete namingOptions)).foldlM Call.run
          (namingEnvironment.sinks namingOptions) = some out :=
  run_reports format Redis.store .above 20 namingEnvironment namingOptions namingStore rfl
    namingOptions_serves
    ⟨by intro db hdb; obtain rfl := Option.some.inj hdb; rfl,
      by simp [namingOptions, sampleOptions]⟩
    (by decide) (by decide)

end Run

end DnsHive
