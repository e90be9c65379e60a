import Mathlib.Order.Lattice.Nat
import DnsHive.DnsDB.Basic

/-!
# `FlowHandler`: packets into flows

Every packet first advances the flow table by the time that has passed since the packet before, and
the flows that come due are examined: one that has been active within the last `TIMEOUT` seconds is
put back, any other one is reported and deleted.  Then the flow of the packet's session is looked
up, or opened, and updated.

What the handler does to the flows and to its output is recorded as a list of `Action`s.  The flows
live where the allocator puts them: any address that is free (`Allocator`).

`none` stands for a failed assertion, the use of a pointer or a member that holds nothing, or a
loop that has not ended.
-/

set_option autoImplicit false

namespace DnsHive

open Swarm

/-- `new`: the address of the `k`-th object, given what is allocated. -/
structure Allocator where
  addr : Nat → Finset Ptr → Addr
  fresh : ∀ k live, Ptr.node (addr k live) ∉ live

/-- The first address above this one. -/
def Ptr.next : Ptr → Addr
  | .node x => x + 1
  | _ => 0

/-- The allocator that never goes below an address in use, for concrete runs. -/
def Allocator.above : Allocator where
  addr _ live := live.sup Ptr.next
  fresh _ _ h := Nat.not_succ_le_self _ (Finset.le_sup (f := Ptr.next) h)

/-- What a call does, in order. -/
inductive Action where
  /-- `flow_table_.put(tick, x)` on this table, with the value it returns. -/
  | put (table : LRUHash Flow) (tick : Nat) (x : Ptr) (rc : Bool)
  /-- `output_->new_flow(*x)` -/
  | newFlow (x : Ptr) (f : Flow)
  /-- `output_->expire_flow(*x)` -/
  | expireFlow (x : Ptr) (f : Flow)
  /-- `delete x` -/
  | delete (x : Ptr) (f : Flow)
  /-- `x->update(p)`, on the flow as it is before. -/
  | update (x : Ptr) (f : Flow) (p : Property)

/-- `class FlowHandler` -/
structure FlowHandler where
  flowTable : LRUHash Flow
  /-- `output_` is not null. -/
  output : Bool
  lastTs : Int
  /-- How many flows have been allocated. -/
  allocated : Nat

namespace FlowHandler

/-- `const int TIMEOUT` -/
def timeout : Nat := 300

/-- The number of time slots of `flow_table_`. -/
def slots : Nat := 600

/-- `FlowHandler::FlowHandler ()` and `set_output` -/
def init (output : Bool) : FlowHandler := ⟨LRUHash.init slots 0, output, 0, 0⟩

/-- `if (this->output_) ...` -/
def report (output : Bool) (a : Action) : List Action := if output then [a] else []

/-- `dynamic_cast<Flow*>(node)`, and the flow there. -/
def castFlow (h : Heap Ptr Flow) : Option Ptr → Option (Option (Ptr × Flow))
  | none => some none
  | some x => if x ∈ h.live then some ((h.obj x).map fun f ↦ (x, f)) else none

/-- `this->flow_table_.put(TIMEOUT, ef)` -/
def putFlow (s : FlowHandler) (x : Ptr) : Option (FlowHandler × List Action) := do
  let (t, rc) ← s.flowTable.put timeout x
  return ({ s with flowTable := t }, [.put s.flowTable timeout x rc])

/-- `this->output_->expire_flow(*ef)` if there is an output, and `delete ef`. -/
def closeFlow (s : FlowHandler) (x : Ptr) (f : Flow) : Option (FlowHandler × List Action) := do
  let h ← s.flowTable.heap.delete x
  return ({ s with flowTable.heap := h }, report s.output (.expireFlow x f) ++ [.delete x f])

/-- The loop that pops the expired flows and puts back those that are `active`. -/
def popLoop (active : Flow → Option Bool) : Nat → FlowHandler → Option (FlowHandler × List Action)
  | 0, _ => none
  | fuel + 1, s => do
    let (node, t) ← s.flowTable.pop
    let s := { s with flowTable := t }
    match ← castFlow t.heap node with
    | none => return (s, [])
    | some (ef, f) => do
      let (s, acts) ← if ← active f then s.putFlow ef else s.closeFlow ef f
      let (s, rest) ← popLoop active fuel s
      return (s, acts ++ rest)

/-- `p.tv_sec() < ef->last_ts() + TIMEOUT` -/
def active (now : Int) (f : Flow) : Option Bool := do
  let last ← f.lastTs
  return now < last + timeout

/-- Timeout handling.  The ticks are the difference of two positive times. -/
def checkTimeout (fuel : Nat) (s : FlowHandler) (now : Int) :
    Option (FlowHandler × List Action) :=
  if 0 < s.lastTs ∧ s.lastTs < now then do
    let t ← s.flowTable.prog fuel (now - s.lastTs).toNat
    popLoop (active now) fuel { s with flowTable := t }
  else some (s, [])

/-- Look up host name, for both ends.  Without both of the addresses the assertion fails. -/
def hosts (db : DnsDB) (p : Property) : Option (Bytes × Bytes) :=
  match p.srcPtr, p.dstPtr with
  | some sAddr, some dAddr =>
    -- the length of the source address serves both of the lookups
    some ((db.lookup sAddr p.srcLen).getD p.srcAddr, (db.lookup dAddr p.srcLen).getD p.dstAddr)
  | _, _ => none

/-- Allocation of a new `Flow`. -/
def openFlow (al : Allocator) (s : FlowHandler) (p : Property) (src dst : Bytes) :
    Option (FlowHandler × (Ptr × Flow) × List Action) := do
  let x := Ptr.node (al.addr s.allocated s.flowTable.heap.live)
  let f := Flow.new p src dst
  let h ← s.flowTable.heap.new x f
  let (s, acts) ← { s with flowTable.heap := h, allocated := s.allocated + 1 }.putFlow x
  return (s, (x, f), acts ++ report s.output (.newFlow x f))

/-- `void FlowHandler::recv (swarm::ev_id eid, const swarm::Property &p)`, with the names known to
`db_` at that moment. -/
def recv (al : Allocator) (fuel : Nat) (s : FlowHandler) (i : DnsDB × Property) :
    Option (FlowHandler × List Action) := do
  let (db, p) := i
  let (s, due) ← s.checkTimeout fuel p.tvSec
  let s := { s with lastTs := p.tvSec }
  let (src, dst) ← hosts db p
  let node ← s.flowTable.get fuel p.hashValue p.ssnLabel
  let (s, (x, f), opened) ←
    match ← castFlow s.flowTable.heap node with
    | some f => some (s, f, [])
    | none => s.openFlow al p src dst
  let h ← s.flowTable.heap.write x (f.update p)
  return ({ s with flowTable.heap := h }, due ++ opened ++ [.update x f p])

/-- `FlowHandler::~FlowHandler ()` -/
def destroy (fuel : Nat) (s : FlowHandler) : Option (FlowHandler × List Action) := do
  let t ← s.flowTable.flush fuel
  popLoop (fun _ ↦ some false) fuel { s with flowTable := t }

/-- What a handler does from its construction to its end. -/
def lifetime (al : Allocator) (fuel : Nat) (output : Bool) (ins : List (DnsDB × Property)) :
    Option (List Action) := do
  let (s, outs) ← Machine.run (recv al fuel) (init output) ins
  let (_, acts) ← destroy fuel s
  return outs.flatten ++ acts

/-- Packets of two sessions with one hash, for concrete runs.  The last one comes when its session
has been idle for so long that it closes the flow and opens another one. -/
def sampleCalls : List (DnsDB × Property) :=
  [(DnsDB.init, samplePacket [1] 5), (DnsDB.init, samplePacket [2] 5),
    (DnsDB.init, samplePacket [2] 304), (DnsDB.init, samplePacket [1] 306)]

end FlowHandler

end DnsHive
