import Mathlib.Data.Finset.Basic
import DnsHive.Lib.Chain

/-!
# `LRUHash::Node`: the pointer operations

A node of the table carries three pointers: `next_` and `prev_` chain it into a bucket, and `link_`
chains it into a time slot or into the queue of expired nodes.  This file models the memory they
live in, `Heap`, and the member functions of `LRUHash::Node` over it, statement by statement.

Memory is partial.  An address is `live` between the `new` and the `delete` of the object there,
and reading or writing through any other pointer is undefined in C++; here it is a fault, `none`.
So a function that is shown to return `some` is shown not to follow a dangling pointer.

The virtual functions `hash` and `match` are what a class derived from `Node` supplies, so they are
the instance `NodeClass` of the type `α` of the objects.  A `NodeRoot` holds no object of the
client: its `obj` is `none`, its `hash()` is `0` and its `match` is false.

Every function has one lemma that says what it computes when it does not fault, in terms of the
updates of `Intrusive`; nothing above this file unfolds them.
-/

set_option autoImplicit false

namespace DnsHive

/-- The virtual functions of `LRUHash::Node`, for client objects of type `α`.  The pair of a key
pointer and a length is one value of type `κ`. -/
class NodeClass (α : Type) (κ : outParam Type) where
  /-- `uint64_t hash()` -/
  hash : α → Nat
  /-- `bool match(const void *key, size_t len)` -/
  isMatch : α → κ → Bool

/-- The simplest client, for concrete runs: an object is its hash and its key. -/
structure Sample where
  hash : Nat
  key : Nat

instance : NodeClass Sample Nat := ⟨Sample.hash, fun v key ↦ v.key = key⟩

/-- Memory holding nodes at addresses `A`.  `update_` is written by the constructor only and read
nowhere, so it has no field here. -/
structure Heap (A α : Type) where
  /-- The addresses at which an object exists. -/
  live : Finset A
  /-- `next_` -/
  next : A → Option A
  /-- `prev_` -/
  prev : A → Option A
  /-- `link_` -/
  link : A → Option A
  /-- The object of the derived class, `none` for a `NodeRoot`. -/
  obj : A → Option α

namespace Heap

variable {A α κ : Type} [DecidableEq A]

/-! ## Reading and writing through a pointer -/

/-- `p->next_` is read, which faults unless `p` leads to a node. -/
def readNext (h : Heap A α) (p : A) : Option (Option A) :=
  if p ∈ h.live then some (h.next p) else none

def readPrev (h : Heap A α) (p : A) : Option (Option A) :=
  if p ∈ h.live then some (h.prev p) else none

def readLink (h : Heap A α) (p : A) : Option (Option A) :=
  if p ∈ h.live then some (h.link p) else none

def writeNext (h : Heap A α) (p : A) (v : Option A) : Option (Heap A α) :=
  if p ∈ h.live then some { h with next := Function.update h.next p v } else none

def writePrev (h : Heap A α) (p : A) (v : Option A) : Option (Heap A α) :=
  if p ∈ h.live then some { h with prev := Function.update h.prev p v } else none

def writeLink (h : Heap A α) (p : A) (v : Option A) : Option (Heap A α) :=
  if p ∈ h.live then some { h with link := Function.update h.link p v } else none

/-- `node->hash()` -/
def hash [NodeClass α κ] (h : Heap A α) (p : A) : Option Nat :=
  if p ∈ h.live then some ((h.obj p).elim 0 NodeClass.hash) else none

/-- `node->match(key, len)` -/
def isMatch [NodeClass α κ] (h : Heap A α) (p : A) (key : κ) : Option Bool :=
  if p ∈ h.live then some ((h.obj p).elim false (NodeClass.isMatch · key)) else none

section Live

variable {h : Heap A α} {p : A}

@[simp] theorem readNext_live (hp : p ∈ h.live) : h.readNext p = some (h.next p) := if_pos hp

@[simp] theorem readPrev_live (hp : p ∈ h.live) : h.readPrev p = some (h.prev p) := if_pos hp

@[simp] theorem readLink_live (hp : p ∈ h.live) : h.readLink p = some (h.link p) := if_pos hp

@[simp] theorem writeNext_live {v : Option A} (hp : p ∈ h.live) :
    h.writeNext p v = some { h with next := Function.update h.next p v } := if_pos hp

@[simp] theorem writePrev_live {v : Option A} (hp : p ∈ h.live) :
    h.writePrev p v = some { h with prev := Function.update h.prev p v } := if_pos hp

@[simp] theorem writeLink_live {v : Option A} (hp : p ∈ h.live) :
    h.writeLink p v = some { h with link := Function.update h.link p v } := if_pos hp

@[simp] theorem hash_live [NodeClass α κ] (hp : p ∈ h.live) :
    h.hash p = some ((h.obj p).elim 0 NodeClass.hash) := if_pos hp

@[simp] theorem isMatch_live [NodeClass α κ] {key : κ} (hp : p ∈ h.live) :
    h.isMatch p key = some ((h.obj p).elim false (NodeClass.isMatch · key)) := if_pos hp

end Live

/-! ## The objects: construction, assignment, deletion

These are the steps of the client, which owns the nodes. -/

/-- `new` at a free address `p`: the constructor `Node::Node` clears the three pointers. -/
def new (h : Heap A α) (p : A) (v : α) : Option (Heap A α) :=
  if p ∈ h.live then none else
    some
      { live := insert p h.live
        next := Function.update h.next p none
        prev := Function.update h.prev p none
        link := Function.update h.link p none
        obj := Function.update h.obj p (some v) }

/-- `delete`.  The memory keeps its bytes, but no later access may touch it. -/
def delete (h : Heap A α) (p : A) : Option (Heap A α) :=
  if p ∈ h.live then some { h with live := h.live.erase p, obj := Function.update h.obj p none }
  else none

/-- Assigning the members of the derived class. -/
def write (h : Heap A α) (p : A) (v : α) : Option (Heap A α) :=
  if p ∈ h.live then some { h with obj := Function.update h.obj p (some v) } else none

/-! ## The member functions of `LRUHash::Node` -/

/-- `void Node::attach(Node *node)` -/
def attach (h : Heap A α) (this node : A) : Option (Heap A α) := do
  let prev := this
  let next ← h.readNext this
  let h ← h.writePrev node (some prev)
  let h ← h.writeNext node next
  let h ← h.writeNext prev (some node)
  match next with
  | some next => h.writePrev next (some node)
  | none => return h

/-- `void Node::detach()` -/
def detach (h : Heap A α) (this : A) : Option (Heap A α) := do
  let next ← h.readNext this
  let prev ← h.readPrev this
  let h ← match next with
    | some next => h.writePrev next prev
    | none => some h
  let h ← match prev with
    | some prev => h.writeNext prev next
    | none => some h
  let h ← h.writePrev this none
  h.writeNext this none

/-- `void Node::push_link(Node *node)` -/
def pushLink (h : Heap A α) (this node : A) : Option (Heap A α) := do
  let next ← h.readLink this
  let h ← h.writeLink node next
  h.writeLink this (some node)

/-- `Node *Node::pop_link()` -/
def popLink (h : Heap A α) (this : A) : Option (Option A × Heap A α) := do
  let node ← h.readLink this
  match node with
  | some node => do
    let next ← h.readLink node
    let h ← h.writeLink this next
    return (some node, h)
  | none => return (none, h)

/-- The loop of `Node::search`, from the pointer `node` on.  `fuel` bounds the number of times the
loop condition is evaluated. -/
def searchFrom [NodeClass α κ] (h : Heap A α) (hv : Nat) (key : κ) :
    Nat → Option A → Option (Option A)
  | 0, _ => none
  | _ + 1, none => some none
  | fuel + 1, some node => do
    let hash ← h.hash node
    -- `&&` calls `match` only on a node whose hash agrees
    let found ← if hash = hv then h.isMatch node key else some false
    if found then return some node
    let next ← h.readNext node
    searchFrom h hv key fuel next

/-- `Node *Node::search(uint64_t hv, const void *key, size_t len)` -/
def search [NodeClass α κ] (fuel : Nat) (h : Heap A α) (this : A) (hv : Nat) (key : κ) :
    Option (Option A) := do
  let next ← h.readNext this
  searchFrom h hv key fuel next

/-! ## What the member functions compute -/

variable {h : Heap A α}

theorem attach_eq {this node : A} (ht : this ∈ h.live) (hn : node ∈ h.live)
    (hnext : ∀ q, h.next this = some q → q ∈ h.live) :
    h.attach this node = some
      { h with
        next := Intrusive.push h.next this node
        prev := Intrusive.insertPrev h.next h.prev this node } := by
  cases hq : h.next this with
  | none => simp [attach, ht, hn, hq, Intrusive.push, Intrusive.insertPrev]
  | some q => simp [attach, ht, hn, hq, hnext q hq, Intrusive.push, Intrusive.insertPrev]

theorem detach_eq {this : A} (ht : this ∈ h.live)
    (hnext : ∀ q, h.next this = some q → q ∈ h.live)
    (hprev : ∀ q, h.prev this = some q → q ∈ h.live) :
    h.detach this = some
      { h with
        next := Intrusive.unlink h.next h.prev this
        prev := Intrusive.unlink h.prev h.next this } := by
  cases hn : h.next this with
  | none =>
    cases hp : h.prev this with
    | none => simp [detach, ht, hn, hp, Intrusive.unlink]
    | some p => simp [detach, ht, hn, hp, hprev p hp, Intrusive.unlink]
  | some n =>
    cases hp : h.prev this with
    | none => simp [detach, ht, hn, hp, hnext n hn, Intrusive.unlink]
    | some p => simp [detach, ht, hn, hp, hnext n hn, hprev p hp, Intrusive.unlink]

theorem pushLink_eq {this node : A} (ht : this ∈ h.live) (hn : node ∈ h.live) :
    h.pushLink this node = some { h with link := Intrusive.push h.link this node } := by
  simp [pushLink, ht, hn, Intrusive.push]

theorem popLink_none {this : A} (ht : this ∈ h.live) (hl : h.link this = none) :
    h.popLink this = some (none, h) := by
  simp [popLink, ht, hl]

theorem popLink_some {this node : A} (ht : this ∈ h.live) (hn : node ∈ h.live)
    (hl : h.link this = some node) :
    h.popLink this = some (some node, { h with link := Intrusive.pop h.link this node }) := by
  simp [popLink, ht, hl, hn, Intrusive.pop]

/-- What `search` tests a node for. -/
def hit [NodeClass α κ] (h : Heap A α) (hv : Nat) (key : κ) (p : A) : Bool :=
  (h.obj p).elim 0 NodeClass.hash = hv && (h.obj p).elim false (NodeClass.isMatch · key)

theorem searchFrom_eq [NodeClass α κ] {hv : Nat} {key : κ} {fuel : Nat} {r : A} {xs : List A}
    (hc : Intrusive.Singly h.next r xs) (hl : ∀ p ∈ xs, p ∈ h.live) (hf : xs.length < fuel) :
    searchFrom h hv key fuel (h.next r) = some (xs.find? (h.hit hv key)) := by
  induction xs generalizing r fuel with
  | nil =>
    obtain ⟨fuel, rfl⟩ : ∃ k, fuel = k + 1 := ⟨fuel - 1, by simp at hf; omega⟩
    rw [Intrusive.singly_nil] at hc
    simp [searchFrom, hc]
  | cons x xs ih =>
    obtain ⟨fuel, rfl⟩ : ∃ k, fuel = k + 1 := ⟨fuel - 1, by simp at hf; omega⟩
    have hx : x ∈ h.live := hl x (by simp)
    have hrest : searchFrom h hv key fuel (h.next x) = some (xs.find? (h.hit hv key)) :=
      ih hc.2 (fun p hp ↦ hl p (List.mem_cons_of_mem _ hp)) (by simpa using hf)
    rw [hc.1, List.find?_cons]
    by_cases hv' : (h.obj x).elim 0 NodeClass.hash = hv
    · cases hm : (h.obj x).elim false (NodeClass.isMatch · key) with
      | true => simp [searchFrom, hx, hit, hv', hm]
      | false => simpa [searchFrom, hx, hit, hv', hm] using hrest
    · simpa [searchFrom, hx, hit, hv'] using hrest

/-- **`search` returns the first hit of the chain**, and needs as many turns as there are nodes. -/
theorem search_eq [NodeClass α κ] {hv : Nat} {key : κ} {fuel : Nat} {this : A} {xs : List A}
    (ht : this ∈ h.live) (hc : Intrusive.Singly h.next this xs) (hl : ∀ p ∈ xs, p ∈ h.live)
    (hf : xs.length < fuel) :
    h.search fuel this hv key = some (xs.find? (h.hit hv key)) := by
  simp [search, ht, searchFrom_eq hc hl hf]

end Heap

end DnsHive
