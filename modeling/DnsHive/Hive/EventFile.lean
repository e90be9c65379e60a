import DnsHive.Flow.Ledger
import DnsHive.Hive.Journal

/-!
# The file of the events

If the events are written to a file, then its bytes say what the program has reported, and nothing
else.

* `event_file` — what has been written to the stream decodes to one map for each call of the report,
  in their order; and so does the file if the program gets to its end, where the stream is closed.
* `event_file_accounts` — the ends of the flows in the file of a complete run add up to the packets
  of the capture.

A program that is cut short leaves the stream open, and what is left in its buffer never gets to the
file.  Then the file is only a part of what `event_file` says of the stream.

The conditions are the ranges of the types in the source, and that no string is longer than the
format allows: `InRange`.
-/

set_option autoImplicit false

namespace DnsHive

open Chase Msgpack Swarm

/-! ## Ranges -/

/-- The ranges of the types in the source, and the length that a string may have in the format. -/
structure Swarm.Property.InRange (p : Property) : Prop where
  /-- `time_t` -/
  tvSec : -2 ^ 63 ≤ p.tvSec ∧ p.tvSec < 2 ^ 63
  srcAddr : p.srcAddr.length < 2 ^ 32
  dstAddr : p.dstAddr.length < 2 ^ 32
  /-- `int` -/
  srcPort : -2 ^ 31 ≤ p.srcPort ∧ p.srcPort < 2 ^ 31
  dstPort : -2 ^ 31 ≤ p.dstPort ∧ p.dstPort < 2 ^ 31

/-- The length that a string may have in the format. -/
structure Answer.InRange (r : Answer) : Prop where
  name : r.name.length < 2 ^ 32
  addr : r.addr.length < 2 ^ 32
  dstAddr : r.dstAddr.length < 2 ^ 32

/-- All that is read is in range. -/
structure InRange (known : StdMap) (es : List Event) : Prop where
  known : ∀ k name, known.lookup k = some name → name.length < 2 ^ 32
  answers : ∀ r ∈ es.flatMap answersOf, r.InRange
  packets : ∀ p ∈ packets es, p.InRange

variable {known : StdMap} {es : List Event}

theorem firstName_mem {f : Answer → Option Bytes} {rs : List Answer} {k name : Bytes}
    (h : firstName f rs k = some name) : ∃ r ∈ rs, r.name = name := by
  obtain ⟨r, hr, hname⟩ := List.mem_map.mp (List.mem_of_mem_head? h)
  exact ⟨r, (List.mem_filter.mp hr).1, hname⟩

/-- The names are in range. -/
theorem nameAt_length {rs : List Answer} (hknown : ∀ k name, known.lookup k = some name →
    name.length < 2 ^ 32) (hrs : ∀ r ∈ rs, r.InRange) {text : Bytes} (htext : text.length < 2 ^ 32)
    (bytes : Bytes) : (nameAt known rs text bytes).length < 2 ^ 32 := by
  have hfirst {f : Answer → Option Bytes} {k name : Bytes} (h : firstName f rs k = some name) :
      name.length < 2 ^ 32 := by
    obtain ⟨r, hr, rfl⟩ := firstName_mem h
    exact (hrs r hr).name
  rw [nameAt]
  cases hname : (known.lookup bytes).or (firstName Answer.key rs bytes) with
  | none => exact htext
  | some name =>
    have hlinks : ∀ a b, aliases rs a = some b → b.length < 2 ^ 32 := fun _ _ h ↦ hfirst h
    refine follow_of_links hlinks 10 ?_
    rcases Option.or_eq_some_iff.mp hname with h | ⟨-, h⟩
    · exact hknown _ _ h
    · exact hfirst h

/-- A new flow is in range. -/
theorem Flow.new_inRange {p : Property} (hp : p.InRange) {src dst : Bytes}
    (hsrc : src.length < 2 ^ 32) (hdst : dst.length < 2 ^ 32) : (Flow.new p src dst).InRange where
  baseTs := hp.tvSec
  cName := hsrc
  sName := hdst
  cPort := hp.srcPort
  sPort := hp.dstPort
  cSize := Nat.two_pow_pos 64
  sSize := Nat.two_pow_pos 64
  cPkt := Nat.two_pow_pos 64
  sPkt := Nat.two_pow_pos 64

/-- A flow in range is in range after an update, since the counters wrap. -/
theorem Flow.update_inRange {f : Flow} (hf : f.InRange) (p : Property) :
    (f.update p).InRange := by
  have hsize (n : Nat) : sizeT n < 2 ^ 64 := Nat.mod_lt _ (by decide)
  rw [Flow.update_eq]
  refine ⟨hf.baseTs, hf.cName, hf.sName, hf.cPort, hf.sPort, ?_, ?_, ?_, ?_⟩ <;> dsimp only <;>
    split
  · exact hsize _
  · exact hf.cSize
  · exact hf.sSize
  · exact hsize _
  · exact hsize _
  · exact hf.cPkt
  · exact hf.sPkt
  · exact hsize _

theorem Answer.call_valid {r : Answer} (hr : r.InRange) : ∀ c ∈ r.call, c.Valid := by
  intro c hc
  rw [Answer.call] at hc
  split at hc
  · rename_i h
    obtain rfl := Option.some.inj hc
    refine ⟨?_, hr.name, hr.addr, hr.dstAddr⟩
    rcases h.2 with (ha | haaaa) | hc
    · exact .inl ha
    · exact .inr (.inl haaaa)
    · exact .inr (.inr hc)
  · cases hc

theorem Notice.call_valid {n : Notice} (hn : n.flow.InRange) : n.call.Valid := by
  cases n <;> exact hn

/-- Everything in the journal is in range. -/
structure Journal.InRange (J : Journal) : Prop where
  flows : ∀ f ∈ J.roster.flows, f.InRange
  calls : ∀ c ∈ J.calls, c.Valid

theorem Journal.InRange.packet {J : Journal} (h : J.InRange) {p : Property} {names : Bytes × Bytes}
    (hp : p.InRange) (hsrc : names.1.length < 2 ^ 32) (hdst : names.2.length < 2 ^ 32) :
    InRange { J with
      roster := (J.roster.observe p names).1
      calls := J.calls ++ (J.roster.observe p names).2.map Notice.call } := by
  obtain ⟨hflows, hnotices⟩ := Roster.forall_observe h.flows (Flow.new_inRange hp hsrc hdst)
    fun f hf ↦ Flow.update_inRange hf p
  refine ⟨hflows, List.forall_mem_append.mpr ⟨h.calls, ?_⟩⟩
  exact List.forall_mem_map.mpr fun n hn ↦ Notice.call_valid (hnotices n hn)

theorem packets_append (es es' : List Event) : packets (es ++ es') = packets es ++ packets es' := by
  rw [packets, List.filter_append, List.map_append]
  rfl

theorem InRange.append_left {es' : List Event} (h : InRange known (es ++ es')) :
    InRange known es where
  known := h.known
  answers r hr := h.answers r (by
    rw [List.flatMap_append]
    exact List.mem_append_left _ hr)
  packets p hp := h.packets p (by
    rw [packets_append]
    exact List.mem_append_left _ hp)

/-- **The journal is in range**, since what is read is. -/
theorem journal_inRange (h : InRange known es) : (journal known es).InRange := by
  induction es using List.reverseRecOn with
  | nil => exact ⟨by simp [journal, Journal.init, Roster.init, Roster.flows], by
      simp [journal, Journal.init]⟩
  | append_singleton es e ih =>
    have hjournal := ih h.append_left
    rw [journal_concat]
    by_cases he : e.1.isPacket
    · have hp : e.2.InRange := h.packets e.2 (by
        rw [packets_append]
        simp [packets, he])
      cases hnames : namesAt known (journal known es).answers e.2 with
      | none => simpa only [Journal.note, he, if_true, hnames] using hjournal
      | some names =>
        obtain ⟨sAddr, -, dAddr, -, rfl⟩ : ∃ sAddr, e.2.srcPtr = some sAddr ∧ ∃ dAddr,
            e.2.dstPtr = some dAddr ∧
            (nameAt known (journal known es).answers e.2.srcAddr (sAddr.toBytes e.2.srcLen),
              nameAt known (journal known es).answers e.2.dstAddr (dAddr.toBytes e.2.srcLen)) =
                names := by
          simpa [namesAt, Option.bind_eq_some_iff] using hnames
        have hanswers : ∀ r ∈ (journal known es).answers, r.InRange := by
          rw [journal_answers]
          exact h.append_left.answers
        rw [Journal.note_packet he hnames rfl]
        exact hjournal.packet hp (nameAt_length h.known hanswers hp.srcAddr _)
          (nameAt_length h.known hanswers hp.dstAddr _)
    · have hrs : ∀ r ∈ DnsDB.answers e.2, r.InRange := fun r hr ↦ h.answers r (by
        rw [List.flatMap_append, List.flatMap_singleton, answersOf, if_neg he]
        exact List.mem_append_right _ hr)
      rw [Journal.note_answers he]
      refine ⟨hjournal.flows, List.forall_mem_append.mpr ⟨hjournal.calls, ?_⟩⟩
      intro c hc
      obtain ⟨r, hr, hcall⟩ := List.mem_filterMap.mp hc
      exact Answer.call_valid (hrs r hr) c hcall

theorem report_valid (h : InRange known es) (close : Bool) :
    ∀ c ∈ report known es close, c.Valid := by
  refine List.forall_mem_append.mpr ⟨(journal_inRange h).calls, ?_⟩
  cases close with
  | false => simp
  | true =>
    refine List.forall_mem_map.mpr fun n hn ↦ Notice.call_valid ?_
    exact Roster.forall_destroy (journal_inRange h).flows n hn

/-! ## The file -/

variable {σ : Type}

section File

variable {env : Environment} {opt : Options} {path : Bytes}

theorem Output.atEnd_ofs {out : Output} {written : List Record} (henabled : out.enableMsgpackOfs)
    (hofs : out.ofs = ⟨true, false, written⟩) (ok : Bool) :
    (out.atEnd ok).ofs = ⟨!ok, false, written⟩ := by
  cases ok with
  | false => exact hofs
  | true =>
    rw [Output.atEnd, if_pos rfl, Output.destroy, if_pos henabled, hofs]
    rfl

theorem Output.atEnd_zmqSock (out : Output) (ok : Bool) : (out.atEnd ok).zmqSock = out.zmqSock := by
  rw [Output.atEnd, Output.destroy]
  split
  · split <;> rfl
  · rfl

/-- The sinks get one record for each call, and the stream is closed at the end, if it is. -/
theorem decode_calls (hpath : opt.msgpackPath = some path) (hopens : env.opens path)
    {calls : List Call} (hvalid : ∀ c ∈ calls, c.Valid) {out : Output}
    (h : calls.foldlM Call.run (env.sinks opt) = some out) (ok : Bool) :
    ∃ written, (out.atEnd ok).ofs = ⟨!ok, false, written⟩ ∧
      decode (written.flatMap format.pack) = some (calls.map fun c ↦ unpacked c.pairs) ∧
      (out.atEnd ok).zmqSock = opt.zmqAddr.map fun _ ↦ ⟨true, written⟩ := by
  have henabled : (env.sinks opt).enableMsgpackOfs := by rw [Environment.sinks, hpath]; rfl
  have hempty : (env.sinks opt).ofs = ⟨true, false, []⟩ := by
    rw [Environment.sinks, hpath]
    simp [Ofstream.open, Output.init, hopens]
  rw [run_calls hvalid] at h
  obtain rfl := Option.some.inj h
  have hofs := publish_ofs (calls.map fun c ↦ packed c.pairs) henabled
  rw [hempty, write_open, List.nil_append] at hofs
  refine ⟨_, Output.atEnd_ofs (by rw [publish_enabled, henabled]) hofs ok, ?_, ?_⟩
  · have hfits : ∀ pairs ∈ calls.map Call.pairs, MapFits pairs :=
      List.forall_mem_map.mpr fun c hc ↦ Call.mapFits_pairs (hvalid c hc)
    simpa [List.flatMap_map, Function.comp_def] using decode_packed hfits
  · rw [Output.atEnd_zmqSock, publish_zmqSock, Environment.sinks, Option.map_map]
    rfl

/-- **The stream is the report.**  For any run in which Redis and ZeroMQ could be enabled and the
file could be opened: what has been written to the stream decodes to one map for each call of the
report, in their order, that holds the arguments of the call; and the socket has been sent the same
records.  This is so also if the program is cut short.  If it is not, then this is what is in the
file. -/
theorem event_file (srv : Redis σ) (al : Allocator) (fuel : Nat) (env : Environment)
    (opt : Options) (st : σ) (path : Bytes) (hversion : opt.version = false)
    (hpath : opt.msgpackPath = some path) (hopens : env.opens path)
    (hserves : Serves format srv env opt st) (henabled : Enabled srv env opt st)
    (haddr : ∀ p ∈ packets (env.events opt), p.HasAddrs)
    (hrange : ∀ w, prepare format srv env opt st = some (w, true) →
      InRange w.1.dnsDb.revMap (env.events opt))
    (hfuel : (env.events opt).length < fuel) :
    ∃ w o out objects, prepare format srv env opt st = some (w, true) ∧
      run format srv al fuel env opt st = some o ∧ o.output = some out ∧
      out.ofs.failed = false ∧ decode (out.ofs.written.flatMap format.pack) = some objects ∧
      List.Forall₂ Tells (report w.1.dnsDb.revMap (env.events opt) (env.complete opt)) objects ∧
      (env.complete opt → ∀ file, out.ofs.Holds format.pack file → decode file = some objects) ∧
      out.zmqSock = opt.zmqAddr.map fun _ ↦ ⟨true, out.ofs.written⟩ := by
  obtain ⟨w, w', outs, hprepare, hsinks, -, hjournal, hrun⟩ :=
    run_finish format srv al hversion hserves henabled haddr hfuel
  obtain ⟨o, out, hfinish, hout, -, -, hreport⟩ := hjournal.finish hfuel outs (env.failure opt)
    (env.progressAll opt) (env.complete opt)
  have hvalid := report_valid (hrange w hprepare) (env.complete opt)
  obtain ⟨written, hofs, hdecode, hsock⟩ :=
    decode_calls hpath hopens hvalid (hsinks ▸ hreport) (env.complete opt)
  refine ⟨w, o, _, _, hprepare, hrun.trans hfinish, hout, by rw [hofs], by rw [hofs, hdecode], ?_,
    ?_, by rw [hsock, hofs]⟩
  · rw [List.forall₂_map_right_iff, List.forall₂_same]
    exact fun c hc ↦ Call.tells_unpacked (hvalid c hc)
  · intro hcomplete file hfile
    rw [hofs, hcomplete] at hfile
    rw [hfile.2 rfl, hdecode]

end File

/-! ## Adding up -/

/-- The value of an entry with this key. -/
def entryAt (key : Bytes) : Object × Object → Option Scalar
  | (.scalar (.raw k), .scalar v) => if k = key then some v else none
  | _ => none

/-- The value under a key of a map. -/
def valueAt (key : Bytes) : Object → Option Scalar
  | .map kvs => kvs.findSome? (entryAt key)
  | _ => none

/-- The number under a key of a map, or 0. -/
def numberAt (key : Bytes) (o : Object) : Nat :=
  match valueAt key o with
  | some (.int i) => i.toNat
  | _ => 0

/-- What a reader adds up: the numbers under two keys, if it is the end of a flow. -/
def endedAt (key key' : Bytes) (o : Object) : Nat :=
  if valueAt (lit "event") o = some (.raw (lit "flow:end")) then numberAt key o + numberAt key' o
  else 0

/-- The packets that are counted by the end of a flow. -/
def endedPkt : Object → Nat := endedAt (lit "c_pkt") (lit "s_pkt")

/-- The bytes that are counted by the end of a flow. -/
def endedSize : Object → Nat := endedAt (lit "c_size") (lit "s_size")

/-- The flow that a notice closes. -/
def Notice.ended : Notice → Option Flow
  | opened _ => none
  | closed f => some f

theorem valueAt_event (c : Call) :
    valueAt (lit "event") (unpacked c.pairs) = some (.raw c.kind.event) := rfl

/-- A reader finds the counters of a flow in the report of its end, and none elsewhere. -/
theorem ended_unpacked (c : Call) :
    endedPkt (unpacked c.pairs) =
        ((c.notice.bind Notice.ended).map fun f ↦ f.cPkt + f.sPkt).getD 0 ∧
      endedSize (unpacked c.pairs) =
        ((c.notice.bind Notice.ended).map fun f ↦ f.cSize + f.sSize).getD 0 := by
  rw [endedPkt, endedSize, endedAt, endedAt, valueAt_event]
  cases c with
  | dnsAnswer ts name type addr dstAddr =>
    rw [Call.kind]
    split <;> exact ⟨rfl, rfl⟩
  | newFlow f => exact ⟨rfl, rfl⟩
  | expireFlow f => exact ⟨rfl, rfl⟩

theorem sum_ended (g : Flow → Nat) (calls : List Call) :
    (calls.map fun c ↦ ((c.notice.bind Notice.ended).map g).getD 0).sum =
      (((calls.filterMap Call.notice).filterMap Notice.ended).map g).sum := by
  rw [List.filterMap_filterMap]
  induction calls with
  | nil => rfl
  | cons c calls ih =>
    rw [List.map_cons, List.sum_cons, ih, List.filterMap_cons]
    cases c.notice.bind Notice.ended with
    | none => simp
    | some f => simp

theorem ended_notices (trace : List Action) :
    (trace.filterMap Action.notice).filterMap Notice.ended =
      (trace.filterMap Action.ended).map Prod.snd := by
  rw [List.filterMap_filterMap, List.map_filterMap]
  exact List.filterMap_congr fun a _ ↦ by cases a <;> rfl

/-- The flows that are closed in the report are those of blocks of packets. -/
theorem Played.blocks {ins : List (DnsDB × Property)}
    (h : Played (journal known es) (packets es) ins) (haddr : ∀ p ∈ packets es, p.HasAddrs) :
    ∃ blocks : List Block, (blocks.flatMap Block.inputs).Perm ins ∧
      ((report known es true).filterMap Call.notice).filterMap Notice.ended =
        (blocks.map Block.ending).map Prod.snd := by
  obtain ⟨haddr', -⟩ := calls_of_packets h.inputs haddr
  obtain ⟨trace, blocks, hlife, hcounted, hended⟩ :=
    booked_of_lifetime .above haddr' ins.length.lt_succ_self
  have hnotices := lifetime_noticed .above ins.length.lt_succ_self
  rw [hlife, h.lifetime] at hnotices
  cases hnotices with
  | some hnotices => exact ⟨blocks, hcounted.inputs, by rw [hnotices, ended_notices, hended]⟩

/-- What the ends of the flows in the report add up to. -/
theorem Played.conserved {ins : List (DnsDB × Property)}
    (h : Played (journal known es) (packets es) ins) (haddr : ∀ p ∈ packets es, p.HasAddrs) :
    Wraps (((report known es true).map fun c ↦ endedPkt (unpacked c.pairs)).sum)
        (packets es).length ∧
      Wraps (((report known es true).map fun c ↦ endedSize (unpacked c.pairs)).sum)
        ((packets es).map Property.len).sum := by
  obtain ⟨blocks, hperm, hended⟩ := h.blocks haddr
  have hpackets := ended_packets hperm
  have hbytes := ended_bytes hperm
  simp only [ended_unpacked, sum_ended, hended, List.map_map]
  rw [List.map_map] at hpackets hbytes
  rw [← h.inputs, List.length_map, List.map_map]
  exact ⟨hpackets, hbytes⟩

/-- **The file accounts for every packet.**  Whoever reads the file after a complete run and adds up
what the ends of the flows count has the number of packets of the capture, and of their bytes,
modulo `2^64`, and exactly if there are fewer than that. -/
theorem event_file_accounts (srv : Redis σ) (al : Allocator) (fuel : Nat) (env : Environment)
    (opt : Options) (st : σ) (path : Bytes) (hversion : opt.version = false)
    (hpath : opt.msgpackPath = some path) (hopens : env.opens path)
    (hserves : Serves format srv env opt st) (henabled : Enabled srv env opt st)
    (hcomplete : env.complete opt) (haddr : ∀ p ∈ packets (env.events opt), p.HasAddrs)
    (hrange : ∀ w, prepare format srv env opt st = some (w, true) →
      InRange w.1.dnsDb.revMap (env.events opt))
    (hfuel : (env.events opt).length < fuel) :
    ∃ o out objects, run format srv al fuel env opt st = some o ∧ o.output = some out ∧
      (∀ file, out.ofs.Holds format.pack file → decode file = some objects) ∧
      decode (out.ofs.written.flatMap format.pack) = some objects ∧
      Wraps (objects.map endedPkt).sum (packets (env.events opt)).length ∧
      Wraps (objects.map endedSize).sum ((packets (env.events opt)).map Property.len).sum := by
  obtain ⟨w, w', outs, hprepare, hsinks, -, hjournal, hrun⟩ :=
    run_finish format srv al hversion hserves henabled haddr hfuel
  obtain ⟨o, out, hfinish, hout, -, -, hreport⟩ := hjournal.finish hfuel outs (env.failure opt)
    (env.progressAll opt) (env.complete opt)
  have hvalid := report_valid (hrange w hprepare) (env.complete opt)
  obtain ⟨written, hofs, hdecode, -⟩ :=
    decode_calls hpath hopens hvalid (hsinks ▸ hreport) (env.complete opt)
  obtain ⟨ins, hplayed, -⟩ := hjournal.enrolled
  obtain ⟨hpackets, hbytes⟩ := hplayed.conserved haddr
  refine ⟨o, _, _, hrun.trans hfinish, hout, ?_, by rw [hofs, hdecode], ?_, ?_⟩
  · intro file hfile
    rw [hofs, hcomplete] at hfile
    rw [hfile.2 rfl, hdecode]
  · rwa [List.map_map, hcomplete]
  · rwa [List.map_map, hcomplete]

/-! ## A file -/

/-- `-r a.pcap -m a.msg` -/
def fileOptions : Options :=
  { sampleOptions with readFile := [lit "a.pcap"], msgpackPath := some (lit "a.msg") }

theorem fileOptions_inRange (w : Hive × Redis.Store)
    (h : prepare format Redis.store sampleEnvironment fileOptions ∅ = some (w, true)) :
    InRange w.1.dnsDb.revMap (sampleEnvironment.events fileOptions) := by
  have hrev : w.1.dnsDb.revMap = ∅ := by
    obtain ⟨rfl, -⟩ := Prod.mk.inj (Option.some.inj h)
    rfl
  have hpackets : packets (sampleEnvironment.events fileOptions) = [samplePacket [1] 5] := rfl
  have hanswers : (sampleEnvironment.events fileOptions).flatMap answersOf = [] := rfl
  refine ⟨fun k name hname ↦ ?_, ?_, ?_⟩
  · rw [hrev, Finmap.lookup_empty] at hname
    cases hname
  · rw [hanswers]
    simp
  · rw [hpackets, List.forall_mem_singleton]
    exact ⟨by decide, by decide, by decide, by decide, by decide⟩

theorem event_file_sample : ∃ w o out objects,
    prepare format Redis.store sampleEnvironment fileOptions ∅ = some (w, true) ∧
      run format Redis.store .above 20 sampleEnvironment fileOptions ∅ = some o ∧
      o.output = some out ∧ out.ofs.failed = false ∧
      decode (out.ofs.written.flatMap format.pack) = some objects ∧
      List.Forall₂ Tells (report w.1.dnsDb.revMap (sampleEnvironment.events fileOptions)
        (sampleEnvironment.complete fileOptions)) objects ∧
      (sampleEnvironment.complete fileOptions →
        ∀ file, out.ofs.Holds format.pack file → decode file = some objects) ∧
      out.zmqSock = fileOptions.zmqAddr.map fun _ ↦ ⟨true, out.ofs.written⟩ :=
  event_file Redis.store .above 20 sampleEnvironment fileOptions ∅ (lit "a.msg") rfl rfl rfl
    ⟨by simp [fileOptions, sampleOptions], by simp [fileOptions, sampleOptions]⟩
    ⟨by simp [fileOptions, sampleOptions], by simp [fileOptions, sampleOptions]⟩ (by decide)
    fileOptions_inRange (by decide)

theorem event_file_accounts_sample : ∃ o out objects,
    run format Redis.store .above 20 sampleEnvironment fileOptions ∅ = some o ∧
      o.output = some out ∧
      (∀ file, out.ofs.Holds format.pack file → decode file = some objects) ∧
      decode (out.ofs.written.flatMap format.pack) = some objects ∧
      Wraps (objects.map endedPkt).sum (packets (sampleEnvironment.events fileOptions)).length ∧
      Wraps (objects.map endedSize).sum
        ((packets (sampleEnvironment.events fileOptions)).map Property.len).sum :=
  event_file_accounts Redis.store .above 20 sampleEnvironment fileOptions ∅ (lit "a.msg") rfl rfl
    rfl ⟨by simp [fileOptions, sampleOptions], by simp [fileOptions, sampleOptions]⟩
    ⟨by simp [fileOptions, sampleOptions], by simp [fileOptions, sampleOptions]⟩ (by decide)
    (by decide) fileOptions_inRange (by decide)

end DnsHive
