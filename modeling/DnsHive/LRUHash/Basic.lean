import Mathlib.Data.Finset.Image
import Mathlib.Data.Finset.Union
import DnsHive.LRUHash.Node

/-!
# `LRUHash`: the table over the pointers

A table owns a vector of buckets, a vector of time slots and the root of the queue of expired
nodes.  All of them are `NodeRoot`s, so they are addresses like those of the client's nodes: `Ptr`.

* `put` chains a node into the bucket its hash selects and into the slot `tick` ticks ahead.
* `get` searches one bucket.
* `prog` advances the clock, moving the nodes of every slot it passes into the expired queue.
* `pop` takes a node out of that queue, and `flush` moves everything there.

`size_t` arithmetic wraps at `2^64` (`sizeT`).  The two `while`/`for` loops that follow pointers
take fuel; `none` stands for a fault or for a loop that has not ended.
-/

set_option autoImplicit false

namespace DnsHive

/-- The address of a node of the client. -/
abbrev Addr := Nat

/-- A `Node *`: the three kinds of roots of the table, and the client's nodes. -/
inductive Ptr where
  /-- `bucket_[i].root_` -/
  | bucket (i : Nat)
  /-- `timeslot_[i].root_` -/
  | slot (i : Nat)
  /-- `exp_node_` -/
  | exp
  | node (x : Addr)
  deriving DecidableEq, Repr

theorem Ptr.node_injective : Function.Injective Ptr.node := fun _ _ h ↦ Ptr.node.inj h

/-- Conversion to `size_t`. -/
def sizeT (n : Nat) : Nat := n % 2 ^ 64

/-- `class LRUHash`.  The constructor never leaves the vector of buckets empty. -/
structure LRUHash (α : Type) where
  /-- `timeslot_.size()` -/
  timeslotSize : Nat
  /-- `bucket_.size()` -/
  bucketSize : Nat
  /-- `curr_tick_` -/
  currTick : Nat
  heap : Heap Ptr α
  bucketSize_pos : 0 < bucketSize

namespace LRUHash

variable {α κ : Type}

/-- `static const size_t DEFAULT_BUCKET_SIZE` -/
def defaultBucketSize : Nat := 1031

/-- The memory right after construction: the roots, all of whose pointers are null. -/
def rootHeap (n m : Nat) : Heap Ptr α where
  live := insert .exp ((Finset.range m).image .bucket ∪ (Finset.range n).image .slot)
  next := fun _ ↦ none
  prev := fun _ ↦ none
  link := fun _ ↦ none
  obj := fun _ ↦ none

/-- `LRUHash::LRUHash(size_t timeslot_size, size_t bucket_size)` -/
def init (timeslotSize bucketSize : Nat) : LRUHash α where
  timeslotSize := timeslotSize
  bucketSize := if bucketSize = 0 then defaultBucketSize else bucketSize
  currTick := 0
  heap := rootHeap timeslotSize (if bucketSize = 0 then defaultBucketSize else bucketSize)
  bucketSize_pos := by
    split
    · decide
    · omega

/-- `a % size`, which traps for an empty vector. -/
def modSize (a size : Nat) : Option Nat := if size = 0 then none else some (a % size)

/-- `bool LRUHash::put(size_t tick, Node *node)` -/
def put [NodeClass α κ] (s : LRUHash α) (tick : Nat) (node : Ptr) : Option (LRUHash α × Bool) :=
  if s.timeslotSize ≤ tick then
    some (s, false)
  else do
    let hash ← s.heap.hash node
    let ptr ← modSize hash s.bucketSize
    let h ← s.heap.attach (.bucket ptr) node
    let tp ← modSize (sizeT (tick + s.currTick)) s.timeslotSize
    let h ← h.pushLink (.slot tp) node
    return ({ s with heap := h }, true)

/-- `Node *LRUHash::get(uint64_t hv, const void *key, size_t len)` -/
def get [NodeClass α κ] (fuel : Nat) (s : LRUHash α) (hv : Nat) (key : κ) :
    Option (Option Ptr) := do
  let ptr ← modSize hv s.bucketSize
  s.heap.search fuel (.bucket ptr) hv key

/-- The `while` loop of `prog`: empty one time slot into the expired queue. -/
def drainSlot (tp : Nat) : Nat → Heap Ptr α → Option (Heap Ptr α)
  | 0, _ => none
  | fuel + 1, h => do
    let (node, h) ← h.popLink (.slot tp)
    match node with
    | none => return h
    | some node =>
      let h ← h.detach node
      let h ← h.pushLink .exp node
      drainSlot tp fuel h

/-- The `for` loop of `prog`, with `left` turns to go from the index `i` on. -/
def progFrom (fuel : Nat) (s : LRUHash α) : Nat → Nat → Heap Ptr α → Option (Heap Ptr α)
  | _, 0, h => some h
  | i, left + 1, h => do
    let tp ← modSize (sizeT (s.currTick + i)) s.timeslotSize
    let h ← drainSlot tp fuel h
    progFrom fuel s (i + 1) left h

/-- `void LRUHash::prog(size_t tick)` -/
def prog (fuel : Nat) (s : LRUHash α) (tick : Nat) : Option (LRUHash α) := do
  let h ← progFrom fuel s 0 tick s.heap
  return { s with currTick := sizeT (s.currTick + tick), heap := h }

/-- `Node *LRUHash::pop()` -/
def pop (s : LRUHash α) : Option (Option Ptr × LRUHash α) := do
  let (node, h) ← s.heap.popLink .exp
  return (node, { s with heap := h })

/-- `void LRUHash::flush()` -/
def flush (fuel : Nat) (s : LRUHash α) : Option (LRUHash α) := prog fuel s s.timeslotSize

/-! ## Which chains an address is on -/

/-- `p` can be reached in the bucket `i`. -/
def InBucket (s : LRUHash α) (i : Nat) (p : Ptr) : Prop :=
  Relation.TransGen (fun a b ↦ s.heap.next a = some b) (.bucket i) p

/-- `p` can be reached in the time slot `j`. -/
def InSlot (s : LRUHash α) (j : Nat) (p : Ptr) : Prop :=
  Relation.TransGen (fun a b ↦ s.heap.link a = some b) (.slot j) p

/-- `p` can be reached in the queue of expired nodes. -/
def InQueue (s : LRUHash α) (p : Ptr) : Prop :=
  Relation.TransGen (fun a b ↦ s.heap.link a = some b) .exp p

/-! ## The table as a machine

A client calls the five public functions, and between the calls it owns the nodes: it constructs
them, assigns their members and deletes them. -/

/-- What a client can do. -/
inductive Op (α κ : Type) where
  | put (tick : Nat) (node : Addr)
  | get (hv : Nat) (key : κ)
  | prog (tick : Nat)
  | pop
  | flush
  | new (x : Addr) (v : α)
  | write (x : Addr) (v : α)
  | delete (x : Addr)

/-- What it gets back. -/
inductive Out where
  | unit
  | bool (b : Bool)
  | node (p : Option Ptr)
  deriving DecidableEq, Repr

/-- One step of the client against the pointers. -/
def step [NodeClass α κ] (fuel : Nat) (s : LRUHash α) : Op α κ → Option (LRUHash α × Out)
  | .put tick x => do
    let (s, b) ← s.put tick (.node x)
    return (s, .bool b)
  | .get hv key => do
    let p ← s.get fuel hv key
    return (s, .node p)
  | .prog tick => do
    let s ← s.prog fuel tick
    return (s, .unit)
  | .pop => do
    let (p, s) ← s.pop
    return (s, .node p)
  | .flush => do
    let s ← s.flush fuel
    return (s, .unit)
  | .new x v => do
    let h ← s.heap.new (.node x) v
    return ({ s with heap := h }, .unit)
  | .write x v => do
    let h ← s.heap.write (.node x) v
    return ({ s with heap := h }, .unit)
  | .delete x => do
    let h ← s.heap.delete (.node x)
    return ({ s with heap := h }, .unit)

end LRUHash

end DnsHive
