import DnsHive.Lib.Msgpack

/-!
# What the decoder hands over

Packets are captured and decoded by the library `swarm`, which calls the handlers of the program
with one `Property` for each packet.  A `Property` is modelled by what its member functions return;
only the functions the program calls for its results are here.

Times are integers: the program adds and subtracts small numbers to times that a capture can hold,
and signed overflow is undefined.
-/

set_option autoImplicit false

namespace DnsHive

/-- The bytes of a string literal. -/
def lit (s : String) : Bytes := s.toList.map fun c ↦ UInt8.ofNat c.toNat

/-- A `void *` that is not null: the bytes from that address on. -/
abbrev VoidPtr := Nat → UInt8

/-- `std::string(static_cast<char *>(ptr), len)` -/
def VoidPtr.toBytes (ptr : VoidPtr) (len : Nat) : Bytes := (List.range len).map ptr

namespace Swarm

/-- A decoded value of a packet: its text, and where its bytes are. -/
structure Value where
  /-- `repr()` -/
  repr : Bytes
  /-- `ptr(&len)`, null if there are none. -/
  ptr : Option VoidPtr
  len : Nat

/-- `swarm::Property` -/
structure Property where
  /-- `tv_sec()` -/
  tvSec : Int
  /-- `ts()` -/
  ts : UInt64
  /-- `len()` -/
  len : Nat
  /-- `ssn_label(&len)`: the bytes that tell sessions apart. -/
  ssnLabel : Bytes
  /-- `hash_value()` -/
  hashValue : Nat
  /-- `dir()`: which of the two ways of the session the packet goes. -/
  dir : Int
  /-- `src_addr(&len)` and the length it writes. -/
  srcPtr : Option VoidPtr
  srcLen : Nat
  /-- `dst_addr(&len)` and the length it writes. -/
  dstPtr : Option VoidPtr
  dstLen : Nat
  /-- `src_addr()`, the text of the address. -/
  srcAddr : Bytes
  dstAddr : Bytes
  srcPort : Int
  dstPort : Int
  /-- `value_size(key)` -/
  valueSize : Bytes → Nat
  /-- `value(key, i)` -/
  value : Bytes → Nat → Value

/-- The packet has both of its addresses. -/
def Property.HasAddrs (p : Property) : Prop := p.srcPtr.isSome ∧ p.dstPtr.isSome

instance (p : Property) : Decidable p.HasAddrs :=
  inferInstanceAs (Decidable (p.srcPtr.isSome ∧ p.dstPtr.isSome))

/-- A packet of the session `label`, for concrete runs.  Its hash is a function of the label. -/
def samplePacket (label : Bytes) (tvSec : Int) : Property where
  tvSec := tvSec
  ts := 0
  len := 60
  ssnLabel := label
  hashValue := label.length
  dir := 0
  srcPtr := some fun _ ↦ 10
  srcLen := 4
  dstPtr := some fun _ ↦ 20
  dstLen := 4
  srcAddr := lit "10.10.10.10"
  dstAddr := lit "20.20.20.20"
  srcPort := 1024
  dstPort := 80
  valueSize := fun _ ↦ 0
  value := fun _ _ ↦ ⟨[], none, 0⟩

end Swarm

end DnsHive
