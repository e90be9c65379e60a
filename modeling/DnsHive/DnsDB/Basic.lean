import Mathlib.Data.Finmap
import DnsHive.Lib.Machine
import DnsHive.Output
import DnsHive.Redis

/-!
# `DnsDB`: the names of the addresses

The database keeps two maps, from the bytes of an address to a name (`rev_map_`) and from a name to
the one it stands for (`cname_map_`).  Every answer of type A or AAAA is also pushed to a list in
Redis, and every answer is published as an event.  At the start of the program the first map can be
read back from Redis: `loadRedisDb`.

`none` stands for a failed assertion, an uncaught exception or a null pointer that is followed.
-/

set_option autoImplicit false

namespace DnsHive

open Msgpack Swarm

/-- `std::map<std::string, std::string>` -/
abbrev StdMap := Finmap fun _ : Bytes ↦ Bytes

/-- `map.insert(std::make_pair(key, value))`, which keeps the value of a key that is there. -/
def StdMap.insertNew (m : StdMap) (key value : Bytes) : StdMap :=
  if key ∈ m then m else m.insert key value

/-- `class DnsDB` -/
structure DnsDB where
  cnameMap : StdMap
  revMap : StdMap
  /-- `redis_ctx_` is not null. -/
  redisCtx : Bool
  /-- `output_` is not null. -/
  output : Bool
  errmsg : Bytes

/-- The arguments of `DnsDB::insert`. -/
structure Answer where
  name : Bytes
  type : Bytes
  addr : Bytes
  ptr : Option VoidPtr
  len : Nat
  ts : UInt64
  dstAddr : Bytes

namespace Answer

/-- The answer carries an address. -/
def IsAddress (r : Answer) : Prop := r.type = lit "A" ∨ r.type = lit "AAAA"

/-- The answer carries an alias. -/
def IsCname (r : Answer) : Prop := r.type = lit "CNAME"

instance (r : Answer) : Decidable r.IsAddress :=
  inferInstanceAs (Decidable (r.type = lit "A" ∨ r.type = lit "AAAA"))

instance (r : Answer) : Decidable r.IsCname := inferInstanceAs (Decidable (r.type = lit "CNAME"))

/-- What `DnsDB::insert` packs for Redis. -/
def record (r : Answer) : Record :=
  [.packMap 5,
    str (lit "ts"), .pack (.double r.ts),
    str (lit "src"), str r.dstAddr,
    str (lit "type"), str r.type,
    str (lit "name"), str r.name,
    str (lit "addr"), str r.addr]

end Answer

namespace DnsDB

/-- `DnsDB::DnsDB()` -/
def init : DnsDB := ⟨∅, ∅, false, false, []⟩

/-! ## Looking a name up -/

/-- `static const size_t MAX_RECUR` -/
def maxRecur : Nat := 10

/-- The loop of `lookup`, with `left` turns to go. -/
def followCname (cnameMap : StdMap) : Nat → Bytes → Bytes
  | 0, name => name
  | left + 1, name =>
    match cnameMap.lookup name with
    | some target => followCname cnameMap left target
    | none => name

/-- `const std::string *DnsDB::lookup(void *addr, size_t len)` -/
def lookup (db : DnsDB) (addr : VoidPtr) (len : Nat) : Option Bytes :=
  (db.revMap.lookup (addr.toBytes len)).map (followCname db.cnameMap maxRecur)

/-! ## Recording an answer -/

section Insert

variable {σ : Type} (c : Codec) (srv : Redis σ)

/-- `void DnsDB::insert(...)`: the new database, the new state of the server, and the events. -/
def insert (w : DnsDB × σ) (r : Answer) : Option ((DnsDB × σ) × List Record) :=
  match r.ptr with
  | none => some (w, [])
  | some ptr => do
    let (db, st) := w
    let db :=
      if r.IsCname then { db with cnameMap := db.cnameMap.insertNew r.addr r.name } else db
    let (db, st) ←
      if r.IsAddress then
        let key := ptr.toBytes r.len
        let db := { db with revMap := db.revMap.insertNew key r.name }
        let buf := c.pack r.record
        if db.redisCtx then
          let (st, com) := srv.command st (.lpush key buf)
          -- `freeReplyObject` follows the pointer
          com.map fun _ ↦ (db, st)
        else some (db, st)
      else some (db, st)
    let events ←
      if r.IsAddress ∨ r.IsCname then
        if db.output then (Output.dnsAnswer r.ts r.name r.type r.addr r.dstAddr).map ([·])
        else some []
      else some []
    return ((db, st), events)

/-- The answers of a packet, as `DnsDB::recv` reads them. -/
def answers (p : Property) : List Answer :=
  (List.range (p.valueSize (lit "dns.an_name"))).map fun i ↦
    { name := (p.value (lit "dns.an_name") i).repr
      type := (p.value (lit "dns.an_type") i).repr
      addr := (p.value (lit "dns.an_data") i).repr
      ptr := (p.value (lit "dns.an_data") i).ptr
      len := (p.value (lit "dns.an_data") i).len
      ts := p.ts
      dstAddr := p.dstAddr }

/-- `void DnsDB::recv(swarm::ev_id eid, const swarm::Property &p)` -/
def recv (w : DnsDB × σ) (p : Property) : Option ((DnsDB × σ) × List Record) := do
  let (w, events) ← Machine.run (insert c srv) w (answers p)
  return (w, events.flatten)

end Insert

/-! ## Reading the names back from Redis -/

section Load

variable {σ : Type} (c : Codec) (srv : Redis σ)

/-- `obj.convert(&s)` for a string, which throws for anything else. -/
def convert : Object → Option Bytes
  | .scalar (.raw s) => some s
  | _ => none

/-- The loop over the pairs of a record: the value of its first field `name`, if it has one. -/
def nameField : List (Object × Object) → Option (Option Bytes)
  | [] => some none
  | (k, v) :: pairs => do
    let k ← convert k
    if k = lit "name" then
      let name ← convert v
      return some name
    else nameField pairs

/-- The name in the bytes of a record.  `obj.via.map` is read without a look at the type, which is
undefined for anything but a map. -/
def recordName (buf : Bytes) : Option (Option Bytes) := do
  match ← c.unpack buf with
  | .map pairs => nameField pairs
  | _ => none

/-- The loop over `key_list`.  It asks for the list of `key`, the variable of the loop before, and
not for that of `*it`. -/
def loadKeys (key : Bytes) : List Bytes → StdMap × σ × Int → Option (StdMap × σ × Int)
  | [], acc => some acc
  | _ :: it, (revMap, st, rc) => do
    let (st, rep) := srv.command st (.lrangeLast key)
    let rep ← rep
    match rep.element with
    | [] => loadKeys key it (revMap, st, rc)
    | element :: _ => do
      match ← recordName c element.text with
      | some name => loadKeys key it (revMap.insertNew key name, st, rc + 1)
      | none => loadKeys key it (revMap, st, rc)

/-- `int DnsDB::load_redis_db()` -/
def loadRedisDb (w : DnsDB × σ) : Option ((DnsDB × σ) × Int) := do
  let (db, st) := w
  let (st, com) := srv.command st .keys
  let com ← com
  match com with
  | .array elements => do
    let keyList := elements.map Redis.Reply.text
    let key := keyList.getLastD []
    let (revMap, st, rc) ← loadKeys c srv key keyList (db.revMap, st, 0)
    return (({ db with revMap := revMap }, st), rc)
  | com =>
    -- `errmsg_ += com->type` appends a character
    let errmsg := lit "invalid data type (" ++ [UInt8.ofNat com.type] ++ lit ")"
    return (({ db with errmsg := errmsg }, st), -1)

end Load

end DnsDB

end DnsHive
