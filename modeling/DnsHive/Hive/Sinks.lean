import DnsHive.Hive.Basic

/-!
# Enabling the sinks

A sink that has been enabled should get every event from then on, and one that could not be enabled
should get none: `AllOrNothing`.  Neither of the two sinks is enabled in this way.

* `enable_msgpack_ofs` catches an exception that a stream without an exception mask never throws, so
  that it reports success although no file is open, and every event is lost.
* `enable_zmq` keeps the socket before it binds it, so that after a failure events are sent to a
  socket that nobody can reach.

Both do what they should exactly if the call below them succeeds (`enable_allOrNothing`).
-/

set_option autoImplicit false

namespace DnsHive

variable {out : Output}

/-- A sink, and what it is to be opened at. -/
inductive Sink where
  /-- A file in the MessagePack format. -/
  | msgpack (path : Bytes)
  /-- A ZeroMQ publisher. -/
  | zmq (addr : Bytes)

namespace Sink

/-- `Hive::enable_msgpack_ofs` or `Hive::enable_zmq` -/
def enable (env : Environment) (h : Hive) : Sink → Hive × Bool
  | msgpack path => h.enableMsgpackOfs env path
  | zmq addr => h.enableZmq env addr

/-- What has been handed to the sink, if there is an open file or a bound socket. -/
def handed (out : Output) : Sink → Option (List Record)
  | msgpack _ => if out.ofs.isOpen then some out.ofs.written else none
  | zmq _ => out.zmqSock.bind fun s ↦ if s.bound then some s.sent else none

/-- No event is handed to the sink at all. -/
def Disabled (out : Output) : Sink → Prop
  | msgpack _ => out.enableMsgpackOfs = false
  | zmq _ => out.zmqSock = none

/-- The sink cannot be opened, for this reason if one is given. -/
def Fails (env : Environment) : Sink → Bytes → Prop
  | msgpack path, _ => env.opens path = false
  | zmq addr, what => env.bind (lit "tcp://" ++ addr) = some what

/-- The call below succeeds: the file can be opened, and the stream has none open; or the socket can
be bound. -/
def Opens (env : Environment) (out : Output) : Sink → Prop
  | msgpack path => out.ofs.isOpen = false ∧ env.opens path
  | zmq addr => env.bind (lit "tcp://" ++ addr) = none

end Sink

/-- **All or nothing.**  If the sink is reported to be enabled, then from now on every record is
handed to an open file or a bound socket, once and in order.  If it is not, the reason is kept, and
nothing else has changed in the output: the sink is disabled, or one that has been enabled before is
still in use. -/
structure AllOrNothing (env : Environment) (sink : Sink) (h : Hive) : Prop where
  all : (sink.enable env h).2 = true → ∃ before, ∀ records,
    sink.handed ((sink.enable env h).1.publish records).output = some (before ++ records)
  nothing : (sink.enable env h).2 = false →
    sink.Fails env (sink.enable env h).1.errmsg ∧
    (sink.enable env h).1.output = { h.output with errmsg := (sink.enable env h).1.errmsg } ∧
    (sink.Disabled (sink.enable env h).1.output ∨ (sink.handed (sink.enable env h).1.output).isSome)

/-! ## What the sinks get -/

/-- The socket gets every record. -/
theorem publish_zmqSock (out : Output) (records : List Record) :
    (records.foldl Output.publish out).zmqSock =
      out.zmqSock.map fun s ↦ { s with sent := s.sent ++ records } := by
  induction records generalizing out with
  | nil => simp
  | cons r rs ih =>
    have hone : (out.publish r).zmqSock =
        out.zmqSock.map fun s ↦ { s with sent := s.sent ++ [r] } := by
      rw [Output.publish, Output.zmqPub, Output.writeStream]
      split <;> rfl
    rw [List.foldl_cons, ih, hone, Option.map_map]
    simp [Function.comp_def]

/-- The file gets every record if it is open, and none if there is an error. -/
theorem publish_ofs (records : List Record) (henabled : out.enableMsgpackOfs) :
    (records.foldl Output.publish out).ofs = records.foldl Ofstream.write out.ofs := by
  induction records generalizing out with
  | nil => rfl
  | cons r rs ih =>
    have hone : out.publish r =
        { (out.zmqPub r) with ofs := out.ofs.write r, enableMsgpackOfs := true } := by
      rw [Output.publish, Output.writeStream, if_pos henabled]
      simp [Output.zmqPub, henabled]
    rw [List.foldl_cons, List.foldl_cons, ih (by rw [hone]), hone]

theorem publish_enabled (records : List Record) :
    (records.foldl Output.publish out).enableMsgpackOfs = out.enableMsgpackOfs := by
  induction records generalizing out with
  | nil => rfl
  | cons r rs ih =>
    have hone : (out.publish r).enableMsgpackOfs = out.enableMsgpackOfs := by
      rw [Output.publish, Output.zmqPub, Output.writeStream]
      split <;> rfl
    rw [List.foldl_cons, ih, hone]

theorem write_open (records : List Record) (written : List Record) :
    records.foldl Ofstream.write ⟨true, false, written⟩ = ⟨true, false, written ++ records⟩ := by
  induction records generalizing written with
  | nil => simp
  | cons r rs ih =>
    have hone : Ofstream.write ⟨true, false, written⟩ r = ⟨true, false, written ++ [r]⟩ := rfl
    rw [List.foldl_cons, hone, ih, List.append_assoc, List.singleton_append]

/-- A stream that has failed gets nothing any more. -/
theorem write_failed (records : List Record) {ofs : Ofstream} (hfailed : ofs.failed) :
    records.foldl Ofstream.write ofs = ofs := by
  induction records with
  | nil => rfl
  | cons r rs ih =>
    have hone : ofs.write r = ofs := by
      obtain ⟨isOpen, failed, written⟩ := ofs
      obtain rfl : failed = true := hfailed
      simp [Ofstream.write]
    rw [List.foldl_cons, hone, ih]

/-! ## The calls -/

variable {env : Environment} {h : Hive}

/-- The file is enabled, whatever happens. -/
theorem enableMsgpackOfs_eq (env : Environment) (h : Hive) (path : Bytes) :
    h.enableMsgpackOfs env path =
      ({ h with output := { h.output with
          ofs := h.output.ofs.open (env.opens path), enableMsgpackOfs := true } }, true) := rfl

theorem enableZmq_of_bound {addr : Bytes} (hbind : env.bind (lit "tcp://" ++ addr) = none) :
    h.enableZmq env addr =
      ({ h with output := { h.output with zmqSock := some ⟨true, []⟩ } }, true) := by
  simp [Hive.enableZmq, Output.enableZmq, hbind]

/-- The socket stays although it is not bound. -/
theorem enableZmq_of_error {addr what : Bytes}
    (hbind : env.bind (lit "tcp://" ++ addr) = some what) :
    h.enableZmq env addr = ({ h with
      output := { h.output with zmqSock := some ⟨false, []⟩, errmsg := what }
      errmsg := what }, false) := by
  simp [Hive.enableZmq, Output.enableZmq, hbind]

/-- What a file has got that has just been enabled. -/
theorem handed_msgpack (env : Environment) (h : Hive) (path : Bytes) (records : List Record) :
    (Sink.msgpack path).handed ((h.enableMsgpackOfs env path).1.publish records).output =
      if h.output.ofs.isOpen then some h.output.ofs.written
      else if env.opens path then some records else none := by
  rw [enableMsgpackOfs_eq, Hive.publish, Sink.handed, publish_ofs records rfl, Ofstream.open]
  cases hopen : h.output.ofs.isOpen with
  | true => simp [write_failed records]
  | false =>
    cases hopens : env.opens path with
    | true => simp [write_open records]
    | false => simp [write_failed records]

theorem msgpack_allOrNothing (env : Environment) (h : Hive) (path : Bytes) :
    AllOrNothing env (.msgpack path) h ↔ (Sink.msgpack path).Opens env h.output := by
  constructor
  · intro hall
    obtain ⟨before, hbefore⟩ := hall.all rfl
    simp only [Sink.enable, handed_msgpack] at hbefore
    -- two sequences of records that are handed over alike
    have hnil := hbefore []
    have hone := hbefore [[]]
    cases hopen : h.output.ofs.isOpen with
    | true =>
      rw [hopen, if_pos rfl] at hnil hone
      have hsame := congrArg List.length (Option.some.inj (hnil.symm.trans hone))
      simp at hsame
    | false =>
      cases hopens : env.opens path with
      | true => exact ⟨hopen, hopens⟩
      | false => simp [hopen, hopens] at hnil
  · rintro ⟨hclosed, hopens⟩
    refine ⟨fun _ ↦ ⟨[], fun records ↦ ?_⟩, fun hfalse ↦ nomatch hfalse⟩
    simp only [Sink.enable, handed_msgpack, hclosed, hopens]
    rfl

theorem zmq_allOrNothing (env : Environment) (h : Hive) (addr : Bytes) :
    AllOrNothing env (.zmq addr) h ↔ (Sink.zmq addr).Opens env h.output := by
  cases hbind : env.bind (lit "tcp://" ++ addr) with
  | none =>
    refine ⟨fun _ ↦ hbind, fun _ ↦ ⟨fun _ ↦ ⟨[], fun records ↦ ?_⟩, fun hfalse ↦ ?_⟩⟩
    · rw [Sink.enable, enableZmq_of_bound hbind, Hive.publish, Sink.handed, publish_zmqSock]
      simp
    · rw [Sink.enable, enableZmq_of_bound hbind] at hfalse
      cases hfalse
  | some what =>
    refine ⟨fun hall ↦ ?_, fun hopens ↦ ?_⟩
    · have hnothing := hall.nothing (by rw [Sink.enable, enableZmq_of_error hbind])
      rw [Sink.enable, enableZmq_of_error hbind] at hnothing
      -- neither disabled nor in use
      simp [Sink.Disabled, Sink.handed] at hnothing
    · rw [Sink.Opens, hbind] at hopens
      cases hopens

/-- **When a sink is enabled all or nothing.**  In every state of the program, for every path or
address, and for all events afterwards: exactly if the call below succeeds. -/
theorem enable_allOrNothing (env : Environment) (sink : Sink) (h : Hive) :
    AllOrNothing env sink h ↔ sink.Opens env h.output := by
  cases sink with
  | msgpack path => exact msgpack_allOrNothing env h path
  | zmq addr => exact zmq_allOrNothing env h addr

/-- No file can be opened, and no socket bound. -/
def failingEnvironment : Environment where
  connect _ _ := .null
  bind _ := some (lit "Address already in use")
  opens _ := false
  source _ _ := .error []

/-- The file is reported to be enabled and gets nothing, and the socket is reported to have failed
and is used. -/
theorem enable_not_allOrNothing :
    ¬ AllOrNothing failingEnvironment (.msgpack (lit "/nonexistent/a.msg")) Hive.init ∧
      ¬ AllOrNothing failingEnvironment (.zmq (lit "*:9000")) Hive.init := by
  refine ⟨fun h ↦ ?_, fun h ↦ ?_⟩
  · obtain ⟨before, hbefore⟩ := h.all rfl
    have hnil : (Sink.msgpack (lit "/nonexistent/a.msg")).handed
        ((Hive.init.enableMsgpackOfs failingEnvironment (lit "/nonexistent/a.msg")).1.publish
          []).output = none := rfl
    exact absurd (hnil.symm.trans (hbefore [])) (by simp)
  · obtain ⟨-, -, hdisabled | hhanded⟩ := h.nothing rfl
    · exact absurd hdisabled (by simp [Sink.Disabled, Sink.enable, Hive.enableZmq,
        Output.enableZmq, failingEnvironment])
    · exact absurd hhanded (by simp [Sink.handed, Sink.enable, Hive.enableZmq, Output.enableZmq,
        failingEnvironment])

end DnsHive
