import DnsHive.DnsDB.Connect
import DnsHive.Flow.Handler

/-!
# `Hive`: the handlers and their sinks

The hive owns the two handlers and the output they share.  While it captures, the decoder calls the
handlers with the packets, one event after the other; what they publish goes to the output.

What the program finds outside itself is in `Environment`: the answers of the network, of the file
system, and the packets of a device or a file.
-/

set_option autoImplicit false

namespace DnsHive

open Msgpack Swarm

/-- The events that have a handler. -/
inductive EvName where
  | dnsAn | mdnsAn | llmnrAn | ipv4Packet | ipv6Packet
  deriving DecidableEq

/-- What a capture calls the handlers with. -/
abbrev Event := EvName × Property

/-- `set_handler`: these events go to `ip_flow_`, the others to `dns_db_`. -/
def EvName.isPacket : EvName → Bool
  | dnsAn | mdnsAn | llmnrAn => false
  | ipv4Packet | ipv6Packet => true

/-- What the program meets. -/
structure Environment where
  /-- `redisConnect(host, port)` -/
  connect : Bytes → Int → Connection
  /-- `bind(addr)`, with the text of the error if it throws one. -/
  bind : Bytes → Option Bytes
  /-- If `std::ofstream::open(path)` opens the file. -/
  opens : Bytes → Bool
  /-- A device or a file: `errmsg()` if it is not `ready()`, or else the events it brings. -/
  source : (dev : Bool) → Bytes → Except Bytes (List Event)

/-- The record that is published for an action. -/
def Action.record : Action → Option Record
  | .newFlow _ f => some (Output.newFlow f)
  | .expireFlow _ f => some (Output.expireFlow f)
  | _ => none

/-- `class Hive`, where `nd_` is `EvName.isPacket`. -/
structure Hive where
  dnsDb : DnsDB
  ipFlow : FlowHandler
  output : Output
  errmsg : Bytes

namespace Hive

/-- `Hive::Hive ()` -/
def init : Hive where
  dnsDb := { DnsDB.init with output := true }
  ipFlow := FlowHandler.init true
  output := Output.init
  errmsg := []

/-- The records reach the output one after the other. -/
def publish (h : Hive) (records : List Record) : Hive :=
  { h with output := records.foldl Output.publish h.output }

section Capture

variable {σ : Type} (c : Codec) (srv : Redis σ) (al : Allocator) (fuel : Nat) (env : Environment)

/-- One call of a handler, with what is done to the flows. -/
def deliver (w : Hive × σ) (e : Event) : Option ((Hive × σ) × List Action) := do
  let (h, st) := w
  if e.1.isPacket then
    let (ipFlow, acts) ← h.ipFlow.recv al fuel (h.dnsDb, e.2)
    return (({ h with ipFlow := ipFlow }.publish (acts.filterMap Action.record), st), acts)
  else
    let ((dnsDb, st), records) ← DnsDB.recv c srv (h.dnsDb, st) e.2
    return (({ h with dnsDb := dnsDb }.publish records, st), [])

/-- `bool Hive::capture (const std::string &arg, bool dev)` -/
def capture (w : Hive × σ) (arg : Bytes) (dev : Bool) :
    Option ((Hive × σ) × List Action × Bool) := do
  match env.source dev arg with
  | .error errmsg => return (({ w.1 with errmsg := errmsg }, w.2), [], false)
  | .ok events =>
    let (w, outs) ← Machine.run (deliver c srv al fuel) w events
    return (w, outs.flatten, true)

/-- `bool Hive::enable_redis_db (...)`.  The number that `load_redis_db` returns is not looked
at. -/
def enableRedisDb (w : Hive × σ) (host port db : Bytes) : Option ((Hive × σ) × Bool) := do
  let (h, st) := w
  let ((dnsDb, st), ok) := DnsDB.enableRedisDb srv env.connect (h.dnsDb, st) host port db
  if ok then
    let ((dnsDb, st), _) ← DnsDB.loadRedisDb c srv (dnsDb, st)
    return (({ h with dnsDb := dnsDb }, st), true)
  else return (({ h with dnsDb := dnsDb, errmsg := dnsDb.errmsg }, st), false)

/-- `bool Hive::enable_zmq (const std::string &addr)` -/
def enableZmq (h : Hive) (addr : Bytes) : Hive × Bool :=
  let (output, ok) := h.output.enableZmq env.bind addr
  if ok then ({ h with output := output }, true)
  else ({ h with output := output, errmsg := output.errmsg }, false)

/-- `bool Hive::enable_msgpack_ofs (const std::string &addr)` -/
def enableMsgpackOfs (h : Hive) (path : Bytes) : Hive × Bool :=
  let (output, ok) := h.output.enableMsgpack env.opens path
  if ok then ({ h with output := output }, true)
  else ({ h with output := output, errmsg := output.errmsg }, false)

/-- `Hive::~Hive ()`.  The flows that are still open are closed while there is an output, which is
destroyed after that. -/
def destroy (h : Hive) : Option (Hive × List Action) := do
  let (ipFlow, acts) ← h.ipFlow.destroy fuel
  let h := { h with ipFlow := ipFlow }.publish (acts.filterMap Action.record)
  return ({ h with output := h.output.destroy }, acts)

end Capture

/-- The hive is destroyed if its flows can be. -/
theorem destroy_eq {fuel : Nat} {h : Hive} {s : FlowHandler} {acts : List Action}
    (hdestroy : h.ipFlow.destroy fuel = some (s, acts)) :
    h.destroy fuel = some ({ h with
      ipFlow := s
      output := ((acts.filterMap Action.record).foldl Output.publish h.output).destroy
    }, acts) := by
  rw [destroy, hdestroy]
  rfl

end Hive

end DnsHive
