import DnsHive.Hive.Basic

/-!
# `run`: the program

The options say which sinks to enable and what to read.  Each stage that fails prints the reason and
ends the program with the code 1, and does so without deleting the hive.
-/

set_option autoImplicit false

namespace DnsHive

open Msgpack

/-- `optparse::Values`, for the options of the program.  The ones that are not set are `none`, and
`-r` may be given several times. -/
structure Options where
  version : Bool
  /-- `run` calls `enable_quiet` for this one, which only switches off the lines on `std::cout`. -/
  quiet : Bool
  readFile : List Bytes
  interface : Option Bytes
  redisDb : Option Bytes
  redisHost : Bytes
  redisPort : Bytes
  zmqAddr : Option Bytes
  msgpackPath : Option Bytes

/-- What has happened when `run` returns. -/
structure Outcome (σ : Type) where
  rc : Int
  cerr : List Bytes
  /-- What was done to the flows. -/
  trace : List Action
  /-- What the sinks have got, unless there was no hive. -/
  output : Option Output
  /-- The state of the Redis server. -/
  server : σ

section Run

variable {σ : Type} (c : Codec) (srv : Redis σ) (al : Allocator) (fuel : Nat) (env : Environment)

/-- `Error: ...`, and the hive as it is. -/
def Outcome.error (w : Hive × σ) (cerr : List Bytes) (trace : List Action) : Outcome σ :=
  ⟨1, cerr ++ [lit "Error: " ++ w.1.errmsg], trace, some w.1.output, w.2⟩

/-- Enable redis DB -/
def prepareRedis (opt : Options) (st : σ) : Option ((Hive × σ) × Bool) :=
  match opt.redisDb with
  | some db => Hive.enableRedisDb c srv env (Hive.init, st) opt.redisHost opt.redisPort db
  | none => some ((Hive.init, st), true)

/-- Enable ZeroMQ PUB server -/
def prepareZmq (opt : Options) (h : Hive) : Hive × Bool :=
  match opt.zmqAddr with
  | some addr => h.enableZmq env addr
  | none => (h, true)

/-- Enable MsgPack object -/
def prepareMsgpack (opt : Options) (h : Hive) : Hive × Bool :=
  match opt.msgpackPath with
  | some path => h.enableMsgpackOfs env path
  | none => (h, true)

/-- Everything up to the capture: the hive, and if nothing has failed.  What is printed to
`std::cout` is not modelled, and `enable_quiet` is left out with it. -/
def prepare (opt : Options) (st : σ) : Option ((Hive × σ) × Bool) := do
  let ((h, st), ok) ← prepareRedis c srv env opt st
  if !ok then return ((h, st), false)
  let (h, ok) := prepareZmq env opt h
  if !ok then return ((h, st), false)
  let (h, ok) := prepareMsgpack env opt h
  return ((h, st), ok)

/-- The loop over the files: the hive, what was printed, what was done to the flows, and if every
file could be opened. -/
def readFiles : List Bytes → Hive × σ → Option ((Hive × σ) × List Bytes × List Action × Bool)
  | [], w => some (w, [], [], true)
  | file :: files, w => do
    let (w, acts, ok) ← Hive.capture c srv al fuel env w file false
    if !ok then return (w, [lit "Read file: " ++ file], acts, false)
    let (w, cerr, rest, ok) ← readFiles files w
    return (w, (lit "Read file: " ++ file) :: cerr, acts ++ rest, ok)

/-- Monitor the interface, or read the files. -/
def captureAll (opt : Options) (w : Hive × σ) :
    Option ((Hive × σ) × List Bytes × List Action × Bool) :=
  match opt.interface, opt.readFile with
  | some interface, _ => do
    let (w, acts, ok) ← Hive.capture c srv al fuel env w interface true
    return (w, [lit "Interface: " ++ interface], acts, ok)
  | none, [] => some (w, [lit "No file and interface to capture. exiting..."], [], true)
  | none, files => readFiles c srv al fuel env files w

/-- `int run(const optparse::Values &opt, const std::vector<std::string> &args)` -/
def run (opt : Options) (st : σ) : Option (Outcome σ) := do
  if opt.version then return ⟨0, [], [], none, st⟩
  let (w, ok) ← prepare c srv env opt st
  if !ok then return .error w [] []
  let (w, cerr, acts, ok) ← captureAll c srv al fuel env opt w
  if !ok then return .error w cerr acts
  -- `delete h`
  let (h, rest) ← w.1.destroy fuel
  return ⟨0, cerr, acts ++ rest, some h.output, w.2⟩

end Run

end DnsHive
