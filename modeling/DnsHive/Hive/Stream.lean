import DnsHive.Hive.Sinks
import DnsHive.Lib.MsgpackStream

/-!
# Reading the event stream

Whoever reads the events has nothing but the bytes.  `stream_decodes` says what is found in all that
has been written to the stream: one map for every call, in the order of the calls, that names the
kind of the call and holds its arguments (`Tells`).  That is what is in the file when the stream has
been closed.

A call is refused if the type of the answer is none of the three; the other conditions of
`Call.Valid` are the ranges of the types in the source, and the length that a string may have in the
format.
-/

set_option autoImplicit false

namespace DnsHive

open Msgpack

/-- A call of the three functions that pack an event. -/
inductive Call where
  | dnsAnswer (ts : UInt64) (name type addr dstAddr : Bytes)
  | newFlow (f : Flow)
  | expireFlow (f : Flow)

/-- The kinds of events. -/
inductive Kind where
  | address
  | cname
  | flowNew
  | flowEnd
  deriving DecidableEq

/-- The name of a kind in the stream. -/
def Kind.event : Kind → Bytes
  | address => lit "dns:address"
  | cname => lit "dns:cname"
  | flowNew => lit "flow:new"
  | flowEnd => lit "flow:end"

/-- The ranges of the types in the source, and the length that a string may have in the format. -/
structure Flow.InRange (f : Flow) : Prop where
  /-- `time_t` -/
  baseTs : -2 ^ 63 ≤ f.baseTs ∧ f.baseTs < 2 ^ 63
  cName : f.cName.length < 2 ^ 32
  sName : f.sName.length < 2 ^ 32
  /-- `int` -/
  cPort : -2 ^ 31 ≤ f.cPort ∧ f.cPort < 2 ^ 31
  sPort : -2 ^ 31 ≤ f.sPort ∧ f.sPort < 2 ^ 31
  /-- `size_t` -/
  cSize : f.cSize < 2 ^ 64
  sSize : f.sSize < 2 ^ 64
  cPkt : f.cPkt < 2 ^ 64
  sPkt : f.sPkt < 2 ^ 64

namespace Call

/-- What the call packs. -/
def record : Call → Option Record
  | dnsAnswer ts name type addr dstAddr => Output.dnsAnswer ts name type addr dstAddr
  | newFlow f => some (Output.newFlow f)
  | expireFlow f => some (Output.expireFlow f)

/-- The call itself. -/
def run (out : Output) (c : Call) : Option Output := c.record.map out.publish

/-- The kind of the event. -/
def kind : Call → Kind
  | dnsAnswer _ _ type _ _ => if type = lit "CNAME" then .cname else .address
  | newFlow _ => .flowNew
  | expireFlow _ => .flowEnd

/-- The arguments of the call under the names of their fields, in the order of the source. -/
def arguments : Call → List (Bytes × Scalar)
  | dnsAnswer ts name type addr dstAddr =>
    [(lit "ts", .double ts), (lit "src", .raw dstAddr), (lit "type", .raw type),
      (lit "name", .raw name), (lit "res", .raw addr)]
  | newFlow f =>
    [(lit "ts", .int f.baseTs), (lit "client", .raw f.cName), (lit "c_port", .int f.cPort),
      (lit "server", .raw f.sName), (lit "s_port", .int f.sPort)]
  | expireFlow f =>
    [(lit "ts", .int f.baseTs), (lit "client", .raw f.cName), (lit "c_size", .int f.cSize),
      (lit "c_pkt", .int f.cPkt), (lit "c_port", .int f.cPort), (lit "server", .raw f.sName),
      (lit "s_size", .int f.sSize), (lit "s_pkt", .int f.sPkt), (lit "s_port", .int f.sPort)]

/-- The type of an answer is one of the three, and the strings are not too long. -/
def Valid : Call → Prop
  | dnsAnswer _ name type addr dstAddr =>
    (type = lit "A" ∨ type = lit "AAAA" ∨ type = lit "CNAME") ∧
      name.length < 2 ^ 32 ∧ addr.length < 2 ^ 32 ∧ dstAddr.length < 2 ^ 32
  | newFlow f | expireFlow f => f.InRange

/-- The event and the arguments. -/
def pairs (c : Call) : List (Scalar × Scalar) :=
  (.raw (lit "event"), .raw c.kind.event) :: c.arguments.map fun kv ↦ (.raw kv.1, kv.2)

end Call

/-- What the map for a call says. -/
structure Says (c : Call) (kvs : List (Object × Object)) : Prop where
  /-- There are as many pairs as the header declares. -/
  declared : ∃ calls, c.record = some (.packMap kvs.length :: calls)
  nodup : (kvs.map Prod.fst).Nodup
  /-- The event is that of the call, and of no other kind. -/
  event : ∀ k : Kind, (.scalar (.raw (lit "event")), .scalar (.raw k.event)) ∈ kvs ↔ k = c.kind
  /-- The other pairs are the arguments. -/
  arguments : ∀ kv ∈ c.arguments, (.scalar (.raw kv.1), .scalar kv.2) ∈ kvs
  length : kvs.length = c.arguments.length + 1

/-- The object is the map for the call. -/
def Tells (c : Call) (o : Object) : Prop := ∃ kvs, o = .map kvs ∧ Says c kvs

theorem Kind.event_injective {k k' : Kind} (h : k.event = k'.event) : k = k' := by
  revert h
  cases k <;> cases k' <;> decide

/-! ## One call -/

namespace Call

variable {c : Call}

/-- A valid call packs one map. -/
theorem record_eq (hvalid : c.Valid) : c.record = some (packed c.pairs) := by
  cases c with
  | dnsAnswer ts name type addr dstAddr =>
    obtain ⟨rfl | rfl | rfl, -⟩ := hvalid <;> rfl
  | newFlow f => rfl
  | expireFlow f => rfl

/-- Every field has a name of its own. -/
theorem keys_nodup (c : Call) : (lit "event" :: c.arguments.map Prod.fst).Nodup := by
  cases c with
  | dnsAnswer ts name type addr dstAddr => simp only [arguments, List.map]; decide
  | newFlow f => simp only [arguments, List.map]; decide
  | expireFlow f => simp only [arguments, List.map]; decide

theorem fits_arguments (hvalid : c.Valid) : ∀ kv ∈ c.arguments, kv.2.Fits := by
  cases c with
  | dnsAnswer ts name type addr dstAddr =>
    obtain ⟨htype, hname, haddr, hdst⟩ := hvalid
    have hshort : type.length < 2 ^ 32 := by
      obtain rfl | rfl | rfl := htype <;> decide
    simp only [arguments, List.forall_mem_cons, Scalar.Fits]
    exact ⟨trivial, hdst, hshort, hname, haddr, by simp⟩
  | newFlow f =>
    obtain ⟨hts, hclient, hserver, hcport, hsport, -, -, -, -⟩ := hvalid
    simp only [arguments, List.forall_mem_cons, Scalar.Fits]
    exact ⟨⟨by omega, by omega⟩, hclient, ⟨by omega, by omega⟩, hserver, ⟨by omega, by omega⟩,
      by simp⟩
  | expireFlow f =>
    obtain ⟨hts, hclient, hserver, hcport, hsport, hcsize, hssize, hcpkt, hspkt⟩ := hvalid
    simp only [arguments, List.forall_mem_cons, Scalar.Fits]
    exact ⟨⟨by omega, by omega⟩, hclient, ⟨by omega, by omega⟩, ⟨by omega, by omega⟩,
      ⟨by omega, by omega⟩, hserver, ⟨by omega, by omega⟩, ⟨by omega, by omega⟩,
      ⟨by omega, by omega⟩, by simp⟩

theorem mapFits_pairs (hvalid : c.Valid) : MapFits c.pairs := by
  have hlength : c.arguments.length ≤ 9 := by cases c <;> simp [arguments]
  have hkeys : ∀ key ∈ lit "event" :: c.arguments.map Prod.fst, key.length < 2 ^ 32 := by
    cases c <;> simp only [arguments, List.map] <;> decide
  have hevent : c.kind.event.length < 2 ^ 32 := by cases c.kind <;> decide
  rw [List.forall_mem_cons, List.forall_mem_map] at hkeys
  refine ⟨by simp only [pairs, List.length_cons, List.length_map]; omega, ?_⟩
  rw [pairs, List.forall_mem_cons, List.forall_mem_map]
  exact ⟨⟨hkeys.1, hevent⟩, fun kv hkv ↦ ⟨hkeys.2 kv hkv, fits_arguments hvalid kv hkv⟩⟩

theorem tells_unpacked (hvalid : c.Valid) : Tells c (unpacked c.pairs) := by
  have hnodup := List.nodup_cons.mp (keys_nodup c)
  refine ⟨_, rfl, ?_, ?_, fun k ↦ ?_, fun kv hkv ↦ ?_, ?_⟩
  · rw [record_eq hvalid, List.length_map]
    exact ⟨_, rfl⟩
  · have hkeys : ((c.pairs.map fun kv ↦ (Object.scalar kv.1, Object.scalar kv.2)).map Prod.fst) =
        (lit "event" :: c.arguments.map Prod.fst).map fun key ↦ .scalar (.raw key) := by
      simp [pairs, Function.comp_def]
    rw [hkeys]
    exact (keys_nodup c).map fun _ _ h ↦ by simpa using h
  · constructor
    · intro hmem
      simp only [pairs, List.map_cons, List.map_map, List.mem_cons, List.mem_map, Prod.mk.injEq,
        Function.comp_apply, Object.scalar.injEq, Scalar.raw.injEq, true_and] at hmem
      obtain hevent | ⟨kv, hkv, hkey, -⟩ := hmem
      · exact Kind.event_injective hevent
      · exact absurd (hkey ▸ List.mem_map_of_mem hkv) hnodup.1
    · rintro rfl
      simp [pairs]
  · exact List.mem_map.mpr ⟨(.raw kv.1, kv.2), by simpa [pairs] using Or.inr hkv, rfl⟩
  · simp [pairs]

end Call

/-! ## The stream -/

variable {out : Output} {calls : List Call}

/-- Valid calls return, and hand one record each to the sinks. -/
theorem run_calls (hvalid : ∀ c ∈ calls, c.Valid) :
    calls.foldlM Call.run out =
      some ((calls.map fun c ↦ packed c.pairs).foldl Output.publish out) := by
  induction calls generalizing out with
  | nil => rfl
  | cons c calls ih =>
    rw [List.forall_mem_cons] at hvalid
    rw [List.foldlM_cons, Call.run, Call.record_eq hvalid.1, Option.map_some]
    exact ih hvalid.2

/-- **The stream decodes back to the events.**  After any calls, the bytes that have been written to
the stream, to which nothing had been written before, are read as one map for each call, in order,
and nothing is left over. -/
theorem stream_decodes (henabled : out.enableMsgpackOfs) (hempty : out.ofs = ⟨true, false, []⟩)
    (hvalid : ∀ c ∈ calls, c.Valid) :
    ∃ out' objects, calls.foldlM Call.run out = some out' ∧ out'.ofs.failed = false ∧
      decode (out'.ofs.written.flatMap format.pack) = some objects ∧
      List.Forall₂ Tells calls objects := by
  refine ⟨_, calls.map fun c ↦ unpacked c.pairs, run_calls hvalid, ?_⟩
  rw [publish_ofs _ henabled, hempty, write_open, List.nil_append]
  refine ⟨rfl, ?_, ?_⟩
  · have hfits : ∀ pairs ∈ calls.map Call.pairs, MapFits pairs := by
      rw [List.forall_mem_map]
      exact fun c hc ↦ Call.mapFits_pairs (hvalid c hc)
    simpa [List.flatMap_map, Function.comp_def] using decode_packed hfits
  · rw [List.forall₂_map_right_iff, List.forall₂_same]
    exact fun c hc ↦ Call.tells_unpacked (hvalid c hc)

/-- One call of each function. -/
def sampleStream : List Call :=
  let f := Flow.new (Swarm.samplePacket [1] 5) (lit "10.10.10.10") (lit "b.example.")
  [.dnsAnswer 0 (lit "b.example.") (lit "A") (lit "20.20.20.20") (lit "10.10.10.10"),
    .newFlow f, .expireFlow (f.update (Swarm.samplePacket [1] 6))]

theorem stream_decodes_sample : ∃ out' objects,
    sampleStream.foldlM Call.run (Output.init.enableMsgpack (fun _ ↦ true) (lit "a.msg")).1 =
        some out' ∧
      out'.ofs.failed = false ∧
      decode (out'.ofs.written.flatMap format.pack) = some objects ∧
      List.Forall₂ Tells sampleStream objects := by
  refine stream_decodes rfl rfl ?_
  simp only [sampleStream, List.forall_mem_cons, Call.Valid]
  refine ⟨by decide, ⟨?_, ?_, ?_, ?_, ?_, ?_, ?_, ?_, ?_⟩, ⟨?_, ?_, ?_, ?_, ?_, ?_, ?_, ?_, ?_⟩,
    by simp⟩ <;> decide

end DnsHive
