import DnsHive.LRUHash.Basic
import DnsHive.Swarm

/-!
# `Flow`: one conversation of a session

A flow is opened by the first packet of a session and counts the packets of both ways.  The way of
the first packet is the client's.

Text output is left out, and with it the members that only it would read: `proto_`, `c_addr_`,
`s_addr_` and `syn_ts_`.
-/

set_option autoImplicit false

namespace DnsHive

open Swarm

/-- `class Flow` -/
structure Flow where
  /-- `key_` and `len_` -/
  key : Bytes
  hash : Nat
  baseTs : Int
  /-- `last_ts_`, which the constructor leaves uninitialised: `none` until the first `update`. -/
  lastTs : Option Int
  dir : Int
  cPkt : Nat
  cSize : Nat
  cName : Bytes
  cPort : Int
  sPkt : Nat
  sSize : Nat
  sName : Bytes
  sPort : Int
  deriving DecidableEq

namespace Flow

/-- `Flow::Flow(const swarm::Property &p, const std::string &src, const std::string &dst)` -/
def new (p : Property) (src dst : Bytes) : Flow where
  key := p.ssnLabel
  hash := p.hashValue
  dir := p.dir
  baseTs := p.tvSec
  lastTs := none
  cPkt := 0
  cSize := 0
  cName := src
  cPort := p.srcPort
  sPkt := 0
  sSize := 0
  sName := dst
  sPort := p.dstPort

/-- `void Flow::update(const swarm::Property &p)` -/
def update (f : Flow) (p : Property) : Flow :=
  let f := { f with lastTs := some p.tvSec }
  if f.dir = p.dir then
    { f with cPkt := sizeT (f.cPkt + 1), cSize := sizeT (f.cSize + p.len) }
  else
    { f with sPkt := sizeT (f.sPkt + 1), sSize := sizeT (f.sSize + p.len) }

/-- `Flow::hash` and `Flow::match`, which compares the two lengths and then the bytes. -/
instance : NodeClass Flow Bytes := ⟨Flow.hash, fun f key ↦ f.key = key⟩

end Flow

/-! ## What an update changes -/

namespace Flow

variable (f : Flow) (p : Property)

/-- An update moves `last_ts_` and adds to the counters of one side. -/
theorem update_eq :
    f.update p =
      { f with
        lastTs := some p.tvSec
        cPkt := if f.dir = p.dir then sizeT (f.cPkt + 1) else f.cPkt
        cSize := if f.dir = p.dir then sizeT (f.cSize + p.len) else f.cSize
        sPkt := if f.dir = p.dir then f.sPkt else sizeT (f.sPkt + 1)
        sSize := if f.dir = p.dir then f.sSize else sizeT (f.sSize + p.len) } := by
  by_cases h : f.dir = p.dir <;> simp [update, h]

@[simp] theorem update_key : (f.update p).key = f.key := by rw [update_eq]

@[simp] theorem update_hash : (f.update p).hash = f.hash := by rw [update_eq]

@[simp] theorem update_dir : (f.update p).dir = f.dir := by rw [update_eq]

@[simp] theorem update_lastTs : (f.update p).lastTs = some p.tvSec := by rw [update_eq]

end Flow

end DnsHive
