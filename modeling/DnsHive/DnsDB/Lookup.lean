import DnsHive.Lib.Chase
import DnsHive.DnsDB.Answers

/-!
# Tracing the aliases

The loop of `DnsDB::lookup` is a bounded walk along the links of `cname_map_`, a partial map that
untrusted answers have built.  It ends at the last name of the chain, if there is one within ten
links, and at the tenth otherwise (`lookup_exact`).

No answer ever changes a link, so that a walk can only get longer: the name of an address is later
one that the name before is an alias for, in as many links as were left (`lookup_extends`).
-/

set_option autoImplicit false

namespace DnsHive

open Chase Msgpack

namespace DnsDB

/-- The partial map `cname_map_`. -/
def cname (db : DnsDB) (name : Bytes) : Option Bytes := db.cnameMap.lookup name

theorem followCname_eq (db : DnsDB) (n : Nat) (name : Bytes) :
    followCname db.cnameMap n name = follow db.cname n name := by
  induction n generalizing name with
  | zero => rfl
  | succ n ih =>
    rw [followCname, follow, cname]
    cases db.cnameMap.lookup name with
    | none => rfl
    | some target => exact ih target

theorem lookup_eq (db : DnsDB) (addr : VoidPtr) (len : Nat) :
    db.lookup addr len =
      (db.revMap.lookup (addr.toBytes len)).map (follow db.cname maxRecur) := by
  rw [lookup]
  exact congrArg (Option.map · _) (funext (db.followCname_eq maxRecur))

theorem cname_isSome_iff (db : DnsDB) (name : Bytes) :
    (db.cname name).isSome ↔ name ∈ db.cnameMap := Finmap.lookup_isSome

end DnsDB

/-- **What a lookup finds.**  There is no name exactly if none is recorded.  Otherwise it is the one
`k` links after the recorded name, where `k` is the least number, up to ten, of links after which
there is no other one, and ten if there is no such number.  It has one more link exactly if the
chain has eleven, and never if all the links there are would fit and the chain is not cyclic. -/
theorem lookup_exact (db : DnsDB) (addr : VoidPtr) (len : Nat) :
    (db.lookup addr len = none ↔ addr.toBytes len ∉ db.revMap) ∧
      ∀ name₀, db.revMap.lookup (addr.toBytes len) = some name₀ →
        ∃ k name, db.lookup addr len = some name ∧ Walk db.cname 10 name₀ k name ∧
          (name ∈ db.cnameMap ↔ (iter db.cname 11 name₀).isSome) ∧
          (db.cnameMap.keys.card ≤ 10 → ¬ Cyclic db.cname name₀ → name ∉ db.cnameMap) := by
  constructor
  · rw [DnsDB.lookup_eq, Option.map_eq_none_iff, Finmap.lookup_eq_none]
  · intro name₀ hname
    obtain ⟨k, hwalk⟩ := walk_follow db.cname 10 name₀
    have hkeys : ∀ name, (db.cname name).isSome → name ∈ db.cnameMap.keys := fun name h ↦
      Finmap.mem_keys.mpr ((db.cname_isSome_iff name).mp h)
    refine ⟨k, follow db.cname 10 name₀, ?_, hwalk, ?_, fun hcard hacyclic ↦ ?_⟩
    · rw [DnsDB.lookup_eq, hname]
      rfl
    · rw [← db.cname_isSome_iff]
      exact follow_link_iff 10 name₀
    · rw [← db.cname_isSome_iff, follow_end hkeys hcard hacyclic]
      exact Bool.false_ne_true

/-- A chain of two links. -/
example : (DnsDB.lookup { DnsDB.init with
    revMap := (∅ : StdMap).insert [1] [2]
    cnameMap := ((∅ : StdMap).insert [2] [3]).insert [3] [4] } (fun _ ↦ 1) 1) = some [4] := by
  rfl

/-! ## More answers -/

theorem Learned.cname_mono {db db' : DnsDB} {rs : List Answer} (h : Learned db rs db')
    (name target : Bytes) (hlink : db.cname name = some target) : db'.cname name = some target := by
  rw [DnsDB.cname] at hlink ⊢
  rw [h.cnameMap, hlink, Option.some_or]

/-- The walk of a later lookup begins with the one of an earlier lookup. -/
theorem Learned.lookup_of_iter {db db' : DnsDB} {rs : List Answer} (h : Learned db rs db')
    {addr : VoidPtr} {len k : Nat} {name₀ name : Bytes}
    (hname : db.revMap.lookup (addr.toBytes len) = some name₀) (hk : k ≤ 10)
    (hiter : iter db.cname k name₀ = some name) :
    db'.lookup addr len = some (follow db'.cname (10 - k) name) := by
  have hname' : db'.revMap.lookup (addr.toBytes len) = some name₀ := by
    rw [h.revMap, hname, Option.some_or]
  rw [DnsDB.lookup_eq, hname', Option.map_some, Option.some_inj]
  exact follow_of_iter hk (iter_mono h.cname_mono hiter)

/-- **Names only extend along aliases.**  From any database, more answers are taken if Redis answers
where it is asked.  When they have been, an address that had a name `k` links after the recorded one
has a name, at most `10 - k` links after the one it had; and after ten links it keeps the name. -/
theorem lookup_extends {σ : Type} (c : Codec) (srv : Redis σ) (db : DnsDB) (st : σ)
    (rs : List Answer) :
    ((db.redisCtx → ∀ st k v, (srv.command st (.lpush k v)).2.isSome) →
      (Machine.run (DnsDB.insert c srv) (db, st) rs).isSome) ∧
    ∀ w' outs, Machine.run (DnsDB.insert c srv) (db, st) rs = some (w', outs) →
      ∀ addr len name, db.lookup addr len = some name →
        ∀ k name₀, k ≤ 10 → db.revMap.lookup (addr.toBytes len) = some name₀ →
          iter db.cname k name₀ = some name →
          ∃ j name', w'.1.lookup addr len = some name' ∧ j ≤ 10 - k ∧
            iter w'.1.cname j name = some name' ∧ (k = 10 → name' = name) := by
  constructor
  · intro hreply
    obtain ⟨w', outs, hrun, -⟩ := taken_isSome c srv (db, st) rs hreply
    rw [hrun]
    rfl
  · intro w' outs hrun addr len name _ k name₀ hk hname hiter
    have hlearned : Learned db rs w'.1 := .of_taken (taken_of_run hrun)
    obtain ⟨j, hwalk⟩ := walk_follow w'.1.cname (10 - k) name
    refine ⟨j, _, hlearned.lookup_of_iter hname hk hiter, hwalk.le, hwalk.iter_eq, ?_⟩
    rintro rfl
    rfl

/-! ## Answers alone -/

/-- What the answers say about the aliases of a name. -/
def aliases (rs : List Answer) : Bytes → Option Bytes := firstName Answer.alias rs

/-- What a lookup finds if there was nothing but the answers. -/
theorem Learned.lookup_of_empty {db db' : DnsDB} {rs : List Answer} (h : Learned db rs db')
    (hrev : db.revMap = ∅) (hcname : db.cnameMap = ∅) (addr : VoidPtr) (len : Nat) :
    db'.lookup addr len =
      (firstName Answer.key rs (addr.toBytes len)).map (follow (aliases rs) 10) := by
  have halias : db'.cname = aliases rs := by
    funext target
    rw [DnsDB.cname, h.cnameMap, hcname]
    rfl
  rw [DnsDB.lookup_eq, halias, h.revMap, hrev]
  rfl

end DnsHive
