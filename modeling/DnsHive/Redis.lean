import Mathlib.Data.List.AList
import Mathlib.Logic.Function.Basic
import DnsHive.Swarm

/-!
# Redis, as the program sees it

The program sends four commands over a connection and reads the replies.  The server is not part of
the program: it is a parameter, `Redis σ`, with states `σ` about which nothing is known but what
`Redis.Lawful` says of the lists it stores.

`Redis.store` is the smallest server that obeys these laws, for concrete runs.
-/

set_option autoImplicit false

namespace DnsHive

namespace Redis

/-- The commands of the program. -/
inductive Command where
  /-- `select %s` -/
  | select (db : Bytes)
  /-- `keys *` -/
  | keys
  /-- `lpush %b %b` -/
  | lpush (key value : Bytes)
  /-- `lrange %b -1 -1` -/
  | lrangeLast (key : Bytes)
  deriving DecidableEq

/-- `struct redisReply` -/
inductive Reply where
  | string (s : Bytes)
  | array (elements : List Reply)
  | integer (i : Int)
  | nil
  | status (s : Bytes)
  | error (s : Bytes)

namespace Reply

/-- `type`, as `hiredis` numbers them. -/
def type : Reply → Nat
  | string _ => 1
  | array _ => 2
  | integer _ => 3
  | nil => 4
  | status _ => 5
  | error _ => 6

/-- `str`, of the length `len`.  The replies without a text have a null pointer and the length 0,
which makes an empty string. -/
def text : Reply → Bytes
  | string s | status s | error s => s
  | array _ | integer _ | nil => []

/-- `element`, which is null unless the reply is an array with elements. -/
def element : Reply → List Reply
  | array elements => elements
  | _ => []

end Reply

end Redis

/-- A server: `redisCommand` changes its state and returns a reply, or null. -/
structure Redis (σ : Type) where
  command : σ → Redis.Command → σ × Option Redis.Reply

namespace Redis

/-- **What the program relies on.**  In every state there is a list for each key; `lpush` prepends,
`lrange k -1 -1` returns the last element, and `keys *` lists the keys whose list is not empty, each
one once and in any order. -/
structure Lawful {σ : Type} (srv : Redis σ) (lists : σ → Bytes → List Bytes) : Prop where
  lpush_lists : ∀ st k v, lists (srv.command st (.lpush k v)).1 =
    Function.update (lists st) k (v :: lists st k)
  lpush_reply : ∀ st k v, (srv.command st (.lpush k v)).2.isSome
  lrange_lists : ∀ st k, lists (srv.command st (.lrangeLast k)).1 = lists st
  lrange_reply : ∀ st k, (srv.command st (.lrangeLast k)).2 =
    some (.array ((lists st k).getLast?.toList.map .string))
  keys_lists : ∀ st, lists (srv.command st .keys).1 = lists st
  keys_reply : ∀ st, ∃ ks : List Bytes, (srv.command st .keys).2 = some (.array (ks.map .string)) ∧
    ks.Nodup ∧ ∀ k, k ∈ ks ↔ lists st k ≠ []

/-! ## A server -/

/-- The records by key, for each key the newest one and the others. -/
abbrev Store := AList fun _ : Bytes ↦ Bytes × List Bytes

/-- The records under a key, newest first. -/
def Store.lists (st : Store) (k : Bytes) : List Bytes :=
  (st.lookup k).elim [] fun records ↦ records.1 :: records.2

/-- A server that keeps its lists in memory. -/
def store : Redis Store where
  command st
    | .select _ => (st, some (.status (lit "OK")))
    | .keys => (st, some (.array (st.keys.map .string)))
    | .lpush k v => (st.insert k (v, Store.lists st k),
        some (.integer ((Store.lists st k).length + 1)))
    | .lrangeLast k => (st, some (.array ((Store.lists st k).getLast?.toList.map .string)))

theorem Store.lists_insert (st : Store) (k v : Bytes) :
    Store.lists (st.insert k (v, Store.lists st k)) =
      Function.update (Store.lists st) k (v :: Store.lists st k) := by
  funext k'
  by_cases hk : k' = k
  · subst hk
    simp [Store.lists]
  · simp [Store.lists, AList.lookup_insert_ne hk, hk]

theorem Store.mem_keys (st : Store) (k : Bytes) : k ∈ st.keys ↔ Store.lists st k ≠ [] := by
  rw [← AList.mem_keys, ← AList.lookup_isSome, Store.lists]
  cases st.lookup k <;> simp

theorem store_lawful : store.Lawful Store.lists where
  lpush_lists := Store.lists_insert
  lpush_reply _ _ _ := rfl
  lrange_lists _ _ := rfl
  lrange_reply _ _ := rfl
  keys_lists _ := rfl
  keys_reply st := ⟨st.keys, rfl, st.keys_nodup, Store.mem_keys st⟩

end Redis

end DnsHive
