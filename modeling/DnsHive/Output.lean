import DnsHive.Flow.Basic

/-!
# `Output`: the records of the events

Every event is packed into one MessagePack map and handed to the enabled sinks, a file and a
socket.  The records are given by the calls of the packer in the order of the source.
-/

set_option autoImplicit false

namespace DnsHive

open Msgpack

/-- What one event packs. -/
abbrev Record := List Token

/-- `pk.pack(s)` for a string. -/
def str (s : Bytes) : Token := .pack (.raw s)

/-- `pk.pack(i)` for an integer. -/
def int (i : Int) : Token := .pack (.int i)

/-- A `zmq::socket_t` of type `ZMQ_PUB`: if it is bound, and what has been given to `send`. -/
structure Socket where
  bound : Bool
  sent : List Record

/-- A `std::ofstream`: if a file is open, if an error bit is set, and what has been written to the
stream.  That is not what is in the file, see `Ofstream.Holds`. -/
structure Ofstream where
  isOpen : Bool
  failed : Bool
  written : List Record

/-- `open`, where `opens` says if the file can be opened.  It sets `failbit` if it cannot, or if
there is an open file already; otherwise the file is empty and the error bits are cleared. -/
def Ofstream.open (ofs : Ofstream) (opens : Bool) : Ofstream :=
  if !ofs.isOpen && opens then ⟨true, false, []⟩ else { ofs with failed := true }

/-- `write`, which does nothing but set an error bit if there is one set, or no open file.  What is
written goes to the buffer of the stream. -/
def Ofstream.write (ofs : Ofstream) (buf : Record) : Ofstream :=
  if ofs.isOpen && !ofs.failed then { ofs with written := ofs.written ++ [buf] }
  else { ofs with failed := true }

/-- `close`, which sets `failbit` if there is no open file. -/
def Ofstream.close (ofs : Ofstream) : Ofstream :=
  if ofs.isOpen then { ofs with isOpen := false } else { ofs with failed := true }

/-- What can be in the file.  The stream writes its buffer to the file when it likes, and the rest
when it is closed; a program that ends with an open stream loses the rest. -/
def Ofstream.Holds (pack : Record → Bytes) (ofs : Ofstream) (file : Bytes) : Prop :=
  file <+: ofs.written.flatMap pack ∧ (ofs.isOpen = false → file = ofs.written.flatMap pack)

/-- `class Output` -/
structure Output where
  zmqSock : Option Socket
  enableMsgpackOfs : Bool
  ofs : Ofstream
  errmsg : Bytes

namespace Output

def kEvent : Bytes := lit "event"
def kTs : Bytes := lit "ts"
def kType : Bytes := lit "type"
def kSrc : Bytes := lit "src"
def kName : Bytes := lit "name"
def kRes : Bytes := lit "res"
def kClient : Bytes := lit "client"
def kServer : Bytes := lit "server"

/-- `void Output::dns_answer(...)`.  It does not return if its assertion fails. -/
def dnsAnswer (ts : UInt64) (name type addr dstAddr : Bytes) : Option Record := do
  let event ←
    if type = lit "A" ∨ type = lit "AAAA" then some (lit "dns:address")
    else if type = lit "CNAME" then some (lit "dns:cname")
    else none
  return [.packMap 6,
    str kEvent, str event,
    str kTs, .pack (.double ts),
    str kSrc, str dstAddr,
    str kType, str type,
    str kName, str name,
    str kRes, str addr]

/-- `void Output::new_flow(const Flow &f)` -/
def newFlow (f : Flow) : Record :=
  [.packMap 6,
    str kEvent, str (lit "flow:new"),
    str kTs, int f.baseTs,
    str kClient, str f.cName,
    str (lit "c_port"), int f.cPort,
    str kServer, str f.sName,
    str (lit "s_port"), int f.sPort]

/-- `void Output::expire_flow(const Flow &f)` -/
def expireFlow (f : Flow) : Record :=
  [.packMap 10,
    str kEvent, str (lit "flow:end"),
    str kTs, int f.baseTs,
    str kClient, str f.cName,
    str (lit "c_size"), int f.cSize,
    str (lit "c_pkt"), int f.cPkt,
    str (lit "c_port"), int f.cPort,
    str kServer, str f.sName,
    str (lit "s_size"), int f.sSize,
    str (lit "s_pkt"), int f.sPkt,
    str (lit "s_port"), int f.sPort]

/-! ## The sinks -/

/-- `Output::Output()` -/
def init : Output := ⟨none, false, ⟨false, false, []⟩, []⟩

/-- `bool Output::enable_zmq(const std::string &addr)`, where `bind` gives the text of the error it
throws, if it does. -/
def enableZmq (bind : Bytes → Option Bytes) (out : Output) (addr : Bytes) : Output × Bool :=
  match bind (lit "tcp://" ++ addr) with
  | some what => ({ out with zmqSock := some ⟨false, []⟩, errmsg := what }, false)
  | none => ({ out with zmqSock := some ⟨true, []⟩ }, true)

/-- `bool Output::enable_msgpack_ofs(const std::string &path)`, where `opens` says if the file can
be opened.  The stream has no exception mask, so that nothing is thrown if it cannot. -/
def enableMsgpack (opens : Bytes → Bool) (out : Output) (path : Bytes) : Output × Bool :=
  ({ out with ofs := out.ofs.open (opens path), enableMsgpackOfs := true }, true)

/-- `void Output::write_stream(const msgpack::sbuffer &buf)` -/
def writeStream (out : Output) (buf : Record) : Output :=
  if out.enableMsgpackOfs then { out with ofs := out.ofs.write buf } else out

/-- `void Output::zmq_pub(const msgpack::sbuffer &buf)` -/
def zmqPub (out : Output) (buf : Record) : Output :=
  { out with zmqSock := out.zmqSock.map fun s ↦ { s with sent := s.sent ++ [buf] } }

/-- The end of every function that packs a record. -/
def publish (out : Output) (buf : Record) : Output := (out.writeStream buf).zmqPub buf

/-- `Output::~Output()`.  What has been sent by the socket stays sent. -/
def destroy (out : Output) : Output :=
  if out.enableMsgpackOfs then { out with ofs := out.ofs.close } else out

end Output

end DnsHive
