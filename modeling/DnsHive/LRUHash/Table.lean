import DnsHive.Lib.Machine
import DnsHive.Lib.StableSort
import DnsHive.LRUHash.Basic

/-!
# The timed table: what `LRUHash` is for

Seen from outside, an `LRUHash` is a clock, the nodes it holds with the tick each one is due after,
and a stack of the nodes that have come due.  `Table` is that picture, with no pointers, no buckets
and no slots in it, and the functions below say what each operation of the class means there.

* A node put with `tick` gets the deadline `clock + tick`, if `tick` is less than the number of
  slots.
* `get` finds the node put last among those that match.
* Advancing the clock by `k` expires the nodes whose deadline is before `clock + k`.  They go on
  top of the stack, the latest deadline topmost and, among equal deadlines, in the order in which
  they were put.

The objects at the nodes belong to the client, so the table shares them with it: `obj`.
-/

set_option autoImplicit false

namespace DnsHive

/-- A held node. -/
structure Entry where
  node : Addr
  /-- The last value of the clock at which the node is still held. -/
  deadline : Nat
  deriving DecidableEq, Repr

/-- The abstract table. -/
structure Table (α : Type) where
  clock : Nat
  /-- The held nodes, put last first. -/
  held : List Entry
  /-- The expired nodes, the next to be popped first. -/
  expired : List Addr
  /-- The objects the client has at its nodes. -/
  obj : Addr → Option α

namespace Table

variable {α κ : Type}

/-- The table right after construction. -/
def empty : Table α := ⟨0, [], [], fun _ ↦ none⟩

/-- The held nodes. -/
def nodes (T : Table α) : List Addr := T.held.map Entry.node

/-- The hash of the object at `x`. -/
def hashOf [NodeClass α κ] (T : Table α) (x : Addr) : Nat := (T.obj x).elim 0 NodeClass.hash

/-- Does the object at `x` have the hash `hv` and match the key? -/
def hits [NodeClass α κ] (T : Table α) (hv : Nat) (key : κ) (x : Addr) : Bool :=
  T.hashOf x = hv && (T.obj x).elim false (NodeClass.isMatch · key)

/-- `put`: the tick has to be less than the number of slots. -/
def put (n : Nat) (T : Table α) (tick : Nat) (x : Addr) : Table α × Bool :=
  if n ≤ tick then (T, false)
  else ({ T with held := ⟨x, T.clock + tick⟩ :: T.held }, true)

/-- `get`: the node put last among those that match. -/
def get [NodeClass α κ] (T : Table α) (hv : Nat) (key : κ) : Option Addr :=
  T.nodes.find? (T.hits hv key)

/-- The nodes that advancing the clock by `tick` expires, in the order in which they are then
popped. -/
def batch (T : Table α) (tick : Nat) : List Entry :=
  StableSort.descending Entry.deadline
    (T.held.filter fun e ↦ e.deadline < T.clock + tick).reverse

/-- `prog`: what is due by then expires. -/
def prog (T : Table α) (tick : Nat) : Table α :=
  { T with
    clock := T.clock + tick
    held := T.held.filter fun e ↦ T.clock + tick ≤ e.deadline
    expired := (T.batch tick).map Entry.node ++ T.expired }

/-- `pop`: the top of the stack. -/
def pop (T : Table α) : Option Addr × Table α :=
  (T.expired.head?, { T with expired := T.expired.tail })

/-- The client has this object at `x` now. -/
def new (T : Table α) (x : Addr) (v : α) : Table α :=
  { T with obj := Function.update T.obj x (some v) }

/-- The client has no object at `x` any more. -/
def delete (T : Table α) (x : Addr) : Table α := { T with obj := Function.update T.obj x none }

/-- One step of the client against the table. -/
def step [NodeClass α κ] (n : Nat) (T : Table α) : LRUHash.Op α κ → Table α × LRUHash.Out
  | .put tick x => ((T.put n tick x).1, .bool (T.put n tick x).2)
  | .get hv key => (T, .node ((T.get hv key).map .node))
  | .prog tick => (T.prog tick, .unit)
  | .pop => (T.pop.2, .node (T.pop.1.map .node))
  | .flush => (T.prog n, .unit)
  | .new x v => (T.new x v, .unit)
  | .write x v => (T.new x v, .unit)
  | .delete x => (T.delete x, .unit)

/-! ## The contract of the client -/

/-- What a client has to respect.  A node may be put only while the table does not own it, its hash
must not change while it is held, and it must not be deleted while the table owns it. -/
def Admissible [NodeClass α κ] (T : Table α) : LRUHash.Op α κ → Prop
  | .put _ x => (T.obj x).isSome ∧ x ∉ T.nodes ++ T.expired
  | .new x _ => T.obj x = none
  | .write x v => (T.obj x).isSome ∧ (x ∈ T.nodes → NodeClass.hash v = T.hashOf x)
  | .delete x => (T.obj x).isSome ∧ x ∉ T.nodes ++ T.expired
  | _ => True

instance [NodeClass α κ] (T : Table α) (op : LRUHash.Op α κ) : Decidable (T.Admissible op) := by
  cases op with
  | put _ x => exact inferInstanceAs (Decidable ((T.obj x).isSome ∧ x ∉ T.nodes ++ T.expired))
  | new x _ => exact decidable_of_iff ((T.obj x).isNone) (by simp [Admissible])
  | write x v =>
    exact inferInstanceAs
      (Decidable ((T.obj x).isSome ∧ (x ∈ T.nodes → NodeClass.hash v = T.hashOf x)))
  | delete x => exact inferInstanceAs (Decidable ((T.obj x).isSome ∧ x ∉ T.nodes ++ T.expired))
  | _ => exact .isTrue trivial

/-- How far an operation advances the clock of a table with `n` slots. -/
def ticks (n : Nat) : LRUHash.Op α κ → Nat
  | .prog tick => tick
  | .flush => n
  | _ => 0

end Table

end DnsHive
