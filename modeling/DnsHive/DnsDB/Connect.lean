import DnsHive.DnsDB.Basic

/-!
# Connecting to Redis

`DnsDB::enable_redis_db` reads the port with `strtol`, connects and selects a database.  Whenever
one of these fails, the reason is kept and there is no connection afterwards.
-/

set_option autoImplicit false

namespace DnsHive

open Swarm

/-- What `redisConnect` returns: null, a context that is in error, or a connection. -/
inductive Connection where
  | null
  | failed (errstr : Bytes)
  | connected

/-- `s.c_str()`, which is read up to the first null byte. -/
def cStr (s : Bytes) : Bytes := s.takeWhile (· ≠ 0)

/-! ## `strtol` -/

namespace Strtol

/-- `isspace` -/
def isSpace (b : UInt8) : Bool := b = 32 ∨ 9 ≤ b ∧ b ≤ 13

/-- The value of a digit of any base. -/
def digit (b : UInt8) : Option Nat :=
  if 48 ≤ b ∧ b ≤ 57 then some (b.toNat - 48)
  else if 97 ≤ b ∧ b ≤ 122 then some (b.toNat - 87)
  else if 65 ≤ b ∧ b ≤ 90 then some (b.toNat - 55)
  else none

/-- Is it a digit of this base? -/
def isDigit (base : Nat) (b : UInt8) : Bool := (digit b).any (· < base)

/-- The sign, and what comes after it. -/
def sign : Bytes → Int × Bytes
  | 43 :: s => (1, s)
  | 45 :: s => (-1, s)
  | s => (1, s)

/-- The base that a prefix gives, and what comes after the prefix. -/
def base : Bytes → Nat × Bytes
  | 48 :: 120 :: b :: s => if isDigit 16 b then (16, b :: s) else (8, 48 :: 120 :: b :: s)
  | 48 :: 88 :: b :: s => if isDigit 16 b then (16, b :: s) else (8, 48 :: 88 :: b :: s)
  | 48 :: s => (8, 48 :: s)
  | s => (10, s)

/-- The number that the digits stand for. -/
def number (base : Nat) (s : Bytes) : Nat :=
  s.foldl (fun n b ↦ n * base + (digit b).getD 0) 0

end Strtol

/-- `strtol(s, &e, 0)`: the number, between `LONG_MIN` and `LONG_MAX`, and `e`. -/
def strtol (s : Bytes) : Int × Bytes :=
  let (sign, rest) := Strtol.sign (s.dropWhile Strtol.isSpace)
  let (base, rest) := Strtol.base rest
  match rest.takeWhile (Strtol.isDigit base) with
  | [] => (0, s)
  | digits =>
    (max (-2 ^ 63) (min (2 ^ 63 - 1) (sign * Strtol.number base digits)),
      rest.dropWhile (Strtol.isDigit base))

namespace DnsDB

/-- `bool DnsDB::enable_redis_db(...)` -/
def enableRedisDb {σ : Type} (srv : Redis σ) (connect : Bytes → Int → Connection)
    (w : DnsDB × σ) (host port dbName : Bytes) : (DnsDB × σ) × Bool :=
  let (db, st) := w
  let (p, e) := strtol (cStr port)
  -- the number is cut to an `int`
  let p := p.bmod (2 ^ 32)
  let fail (db : DnsDB) (st : σ) (errmsg : Bytes) : (DnsDB × σ) × Bool :=
    (({ db with redisCtx := false, errmsg := errmsg }, st), false)
  if e ≠ [] then fail db st (lit "port number \"" ++ port ++ lit "\" should be digit")
  else
    match connect (cStr host) p with
    | .null => fail db st (lit "Critical Error in hiredis")
    | .failed errstr => fail db st errstr
    | .connected =>
      let (st, com) := srv.command st (.select (cStr dbName))
      match com with
      | none =>
        fail db st (lit "Critical error in hiredis to select DB \"" ++ dbName ++ lit "\"")
      | some (.error str) => fail db st str
      | some _ => (({ db with redisCtx := true }, st), true)

end DnsDB

end DnsHive
