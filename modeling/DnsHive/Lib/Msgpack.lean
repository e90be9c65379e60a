import Mathlib.Algebra.Group.Int.Defs
import Mathlib.Algebra.Group.Nat.Defs
import Mathlib.Data.List.Basic

/-!
# MessagePack

A packer is called with headers and values, one after the other: `Token`.  An unpacker turns bytes
into an `Object`.  A `Codec` is such a pair, and the only thing a program needs of it is that it
gets back the maps it packed (`Codec.Inverts`).

`format` is the encoding itself, for the tokens above: the shortest header that fits, followed by
the bytes or the big-endian number.  Reading stops after one object and ignores what follows.
-/

set_option autoImplicit false

/-- A `std::string`, which may hold any bytes. -/
abbrev Bytes := List UInt8

namespace Msgpack

/-- A value without parts. -/
inductive Scalar where
  | raw (s : Bytes)
  /-- A `double`, by its bit pattern. -/
  | double (bits : UInt64)
  | int (i : Int)
  deriving DecidableEq, Repr

/-- An unpacked value. -/
inductive Object where
  | nil
  | boolean (b : Bool)
  | scalar (v : Scalar)
  | array (elems : List Object)
  | map (pairs : List (Object × Object))

/-- One call of a packer. -/
inductive Token where
  | packMap (n : Nat)
  | pack (v : Scalar)
  deriving DecidableEq, Repr

/-- The calls that pack a map. -/
def packed (pairs : List (Scalar × Scalar)) : List Token :=
  .packMap pairs.length :: pairs.flatMap fun kv ↦ [.pack kv.1, .pack kv.2]

/-- The map they pack. -/
def unpacked (pairs : List (Scalar × Scalar)) : Object :=
  .map (pairs.map fun kv ↦ (.scalar kv.1, .scalar kv.2))

/-- A packer and an unpacker. -/
structure Codec where
  pack : List Token → Bytes
  unpack : Bytes → Option Object

/-- Unpacking inverts packing, for this map. -/
def Codec.Inverts (c : Codec) (pairs : List (Scalar × Scalar)) : Prop :=
  c.unpack (c.pack (packed pairs)) = some (unpacked pairs)

/-! ## The format -/

/-- The `k` lowest bytes of `n`, highest first. -/
def bigEndian : Nat → Nat → Bytes
  | 0, _ => []
  | k + 1, n => UInt8.ofNat (n / 256 ^ k) :: bigEndian k n

/-- The number written in `k` bytes, and the rest. -/
def readBigEndian : Nat → Nat → Bytes → Option (Nat × Bytes)
  | 0, acc, bs => some (acc, bs)
  | _ + 1, _, [] => none
  | k + 1, acc, b :: bs => readBigEndian k (acc * 256 + b.toNat) bs

/-- `pack_raw_body` after `pack_raw`. -/
def encodeRaw (s : Bytes) : Bytes :=
  if s.length < 32 then UInt8.ofNat (0xa0 + s.length) :: s
  else if s.length < 2 ^ 16 then 0xda :: bigEndian 2 s.length ++ s
  else 0xdb :: bigEndian 4 s.length ++ s

/-- The shortest of the formats for an integer. -/
def encodeInt (i : Int) : Bytes :=
  if 0 ≤ i then
    if i < 2 ^ 7 then [UInt8.ofNat i.toNat]
    else if i < 2 ^ 8 then 0xcc :: bigEndian 1 i.toNat
    else if i < 2 ^ 16 then 0xcd :: bigEndian 2 i.toNat
    else if i < 2 ^ 32 then 0xce :: bigEndian 4 i.toNat
    else 0xcf :: bigEndian 8 i.toNat
  else
    if -2 ^ 5 ≤ i then [UInt8.ofNat (2 ^ 8 + i).toNat]
    else if -2 ^ 7 ≤ i then 0xd0 :: bigEndian 1 (2 ^ 8 + i).toNat
    else if -2 ^ 15 ≤ i then 0xd1 :: bigEndian 2 (2 ^ 16 + i).toNat
    else if -2 ^ 31 ≤ i then 0xd2 :: bigEndian 4 (2 ^ 32 + i).toNat
    else 0xd3 :: bigEndian 8 (2 ^ 64 + i).toNat

/-- `pack_map` -/
def encodeMap (n : Nat) : Bytes :=
  if n < 16 then [UInt8.ofNat (0x80 + n)]
  else if n < 2 ^ 16 then 0xde :: bigEndian 2 n
  else 0xdf :: bigEndian 4 n

/-- The bytes of one call of the packer. -/
def encodeToken : Token → Bytes
  | .packMap n => encodeMap n
  | .pack (.raw s) => encodeRaw s
  | .pack (.double bits) => 0xcb :: bigEndian 8 bits.toNat
  | .pack (.int i) => encodeInt i

/-- A number of `k` bytes, as a two's complement. -/
def signed (k n : Nat) : Int := if n < 2 ^ (8 * k - 1) then n else n - 2 ^ (8 * k)

/-- The first `n` bytes, and the rest. -/
def readRaw (n : Nat) (bs : Bytes) : Option (Object × Bytes) :=
  if bs.length < n then none else some (.scalar (.raw (bs.take n)), bs.drop n)

mutual

/-- One object and the bytes after it.  `fuel` bounds the depth and the width of the object. -/
def readObject : Nat → Bytes → Option (Object × Bytes)
  | 0, _ | _ + 1, [] => none
  | fuel + 1, b :: bs =>
    let t := b.toNat
    if t < 0x80 then some (.scalar (.int t), bs)
    else if t < 0x90 then readPairs fuel (t - 0x80) bs
    else if t < 0xa0 then readArray fuel (t - 0x90) bs
    else if t < 0xc0 then readRaw (t - 0xa0) bs
    else if t = 0xc0 then some (.nil, bs)
    else if t = 0xc2 then some (.boolean false, bs)
    else if t = 0xc3 then some (.boolean true, bs)
    else if t = 0xcb then
      (readBigEndian 8 0 bs).map fun r ↦ (.scalar (.double (UInt64.ofNat r.1)), r.2)
    else if 0xcc ≤ t ∧ t ≤ 0xcf then
      (readBigEndian (2 ^ (t - 0xcc)) 0 bs).map fun r ↦ (.scalar (.int r.1), r.2)
    else if 0xd0 ≤ t ∧ t ≤ 0xd3 then
      (readBigEndian (2 ^ (t - 0xd0)) 0 bs).map fun r ↦
        (.scalar (.int (signed (2 ^ (t - 0xd0)) r.1)), r.2)
    else if t = 0xda then (readBigEndian 2 0 bs).bind fun r ↦ readRaw r.1 r.2
    else if t = 0xdb then (readBigEndian 4 0 bs).bind fun r ↦ readRaw r.1 r.2
    else if t = 0xdc then (readBigEndian 2 0 bs).bind fun r ↦ readArray fuel r.1 r.2
    else if t = 0xdd then (readBigEndian 4 0 bs).bind fun r ↦ readArray fuel r.1 r.2
    else if t = 0xde then (readBigEndian 2 0 bs).bind fun r ↦ readPairs fuel r.1 r.2
    else if t = 0xdf then (readBigEndian 4 0 bs).bind fun r ↦ readPairs fuel r.1 r.2
    else if 0xe0 ≤ t then some (.scalar (.int (t - 256)), bs)
    else none

/-- An array of `n` elements. -/
def readArray : Nat → Nat → Bytes → Option (Object × Bytes)
  | _, 0, bs => some (.array [], bs)
  | 0, _ + 1, _ => none
  | fuel + 1, n + 1, bs => do
    let (v, bs) ← readObject fuel bs
    match ← readArray fuel n bs with
    | (.array vs, bs) => return (.array (v :: vs), bs)
    | _ => none

/-- A map of `n` pairs. -/
def readPairs : Nat → Nat → Bytes → Option (Object × Bytes)
  | _, 0, bs => some (.map [], bs)
  | 0, _ + 1, _ => none
  | fuel + 1, n + 1, bs => do
    let (k, bs) ← readObject fuel bs
    let (v, bs) ← readObject fuel bs
    match ← readPairs fuel n bs with
    | (.map kvs, bs) => return (.map ((k, v) :: kvs), bs)
    | _ => none

end

/-- The format as a codec. -/
def format : Codec where
  pack := List.flatMap encodeToken
  unpack bs := (readObject (bs.length + 1) bs).map Prod.fst

end Msgpack
