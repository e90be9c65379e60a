import DnsHive.DnsDB.Lookup
import DnsHive.DnsDB.Restart

/-!
# The names after a restart

Redis keeps the names of the addresses, but not the aliases.  So an address that is restored shows
the name that was recorded for it, whatever aliases the process before had traced from there: it
shows the same name as before exactly if the trace went nowhere (`restart_keeps_name`).
-/

set_option autoImplicit false

namespace DnsHive

open Chase Msgpack

variable {σ : Type} {c : Codec} {srv : Redis σ} {lists : σ → Bytes → List Bytes}

/-- Answers keep memory and Redis in agreement. -/
theorem agree_of_taken {w w' : DnsDB × σ} {rs : List Answer} {outs : List (List Record)}
    (hsrv : srv.Lawful lists) (hredis : w.1.redisCtx) (hcodec : ∀ r ∈ rs, c.Inverts r.fields)
    (hagree : Agree c w.1.revMap (lists w.2)) (h : Taken c srv w rs outs w') :
    Agree c w'.1.revMap (lists w'.2) := by
  induction h with
  | nil => exact hagree
  | snoc hruns heffect ih =>
    have hredis' := (Learned.of_taken hruns).redisCtx ▸ hredis
    exact heffect.agree hsrv hredis' (hcodec _ (by simp))
      (ih fun r hr ↦ hcodec r (List.mem_append_left _ hr))

/-- The aliases lead nowhere: there is none, or they come back after one, two, five or ten links. -/
def Untraced (rs : List Answer) (name : Bytes) : Prop :=
  aliases rs name = none ∨ ∃ p, p ∣ 10 ∧ iter (aliases rs) p name = some name

/-- Without aliases, a lookup finds the recorded name. -/
theorem DnsDB.lookup_of_reloaded (output : Bool) (m : StdMap) (addr : VoidPtr) (len : Nat) :
    lookup { fresh output with revMap := m } addr len = m.lookup (addr.toBytes len) := by
  have hnone (name : Bytes) : follow ({ fresh output with revMap := m } : DnsDB).cname 10 name =
      name := follow_of_none (Finmap.lookup_empty name) 10
  rw [lookup_eq]
  cases m.lookup (addr.toBytes len) with
  | none => rfl
  | some name => simp only [Option.map_some, maxRecur, hnone]

/-- **When an address keeps its name.**  For all answers that an initially empty database has taken,
with Redis: a process started afterwards shows the same name for an address it has restored exactly
if the aliases of the name recorded first for that address lead nowhere. -/
theorem restart_keeps_name (c : Codec) (srv : Redis σ) (lists : σ → Bytes → List Bytes)
    (hsrv : srv.Lawful lists) (output : Bool) (st : σ) (hempty : ∀ k, lists st k = [])
    (rs : List Answer) (hcodec : ∀ r ∈ rs, c.Inverts r.fields) :
    ∃ w outs w' rc, Machine.run (DnsDB.insert c srv) (DnsDB.fresh output, st) rs = some (w, outs) ∧
      DnsDB.loadRedisDb c srv (DnsDB.fresh output, w.2) = some (w', rc) ∧
      ∀ addr len, addr.toBytes len ∈ w'.1.revMap →
        (w'.1.lookup addr len = w.1.lookup addr len ↔
          ∃ name, firstName Answer.key rs (addr.toBytes len) = some name ∧ Untraced rs name) := by
  obtain ⟨w, outs, hrun, htaken⟩ := taken_isSome c srv (DnsDB.fresh output, st) rs
    fun _ ↦ hsrv.lpush_reply
  have hlearned := Learned.of_taken htaken
  have hagree := agree_of_taken hsrv rfl hcodec (.empty hempty) htaken
  obtain ⟨m, st', ks, hload, -, -, hm⟩ := DnsDB.loadRedisDb_eq hsrv output hagree
  refine ⟨w, outs, _, _, hrun, hload, fun addr len hmem ↦ ?_⟩
  -- an address that is restored has the name that was recorded for it first
  have hname : m.lookup (addr.toBytes len) = firstName Answer.key rs (addr.toBytes len) := by
    have hk := hm (addr.toBytes len)
    by_cases hlast : ks.getLast? = some (addr.toBytes len)
    · rw [hk, if_pos hlast, hlearned.revMap]
      rfl
    · rw [if_neg hlast, Finmap.lookup_eq_none] at hk
      exact absurd hmem hk
  obtain ⟨name, hfirst⟩ := Finmap.mem_iff.mp hmem
  rw [DnsDB.lookup_of_reloaded, hlearned.lookup_of_empty rfl rfl, hname, ← hname, hfirst]
  simp only [Option.map_some, Option.some_inj, Untraced, exists_eq_left']
  rw [eq_comm, follow_eq_self_iff (Nat.succ_ne_zero 9)]

theorem restart_keeps_name_sample :
    ∃ w outs w' rc, Machine.run (DnsDB.insert format Redis.store) (DnsDB.fresh true, ∅)
        sampleAnswers = some (w, outs) ∧
      DnsDB.loadRedisDb format Redis.store (DnsDB.fresh true, w.2) = some (w', rc) ∧
      ∀ addr len, addr.toBytes len ∈ w'.1.revMap →
        (w'.1.lookup addr len = w.1.lookup addr len ↔
          ∃ name, firstName Answer.key sampleAnswers (addr.toBytes len) = some name ∧
            Untraced sampleAnswers name) :=
  restart_keeps_name format Redis.store Redis.Store.lists Redis.store_lawful true ∅ (fun _ ↦ rfl)
    sampleAnswers sampleAnswers_inverts

/-- An address, and an alias for its name. -/
def aliasedAddress : List Answer :=
  [sampleAnswer "A" "a.example." 1,
    { sampleAnswer "CNAME" "www.example." 2 with addr := lit "a.example." }]

/-- The alias is forgotten. -/
theorem restart_forgets_alias :
    ∃ w outs w' rc, Machine.run (DnsDB.insert format Redis.store) (DnsDB.fresh true, ∅)
        aliasedAddress = some (w, outs) ∧
      DnsDB.loadRedisDb format Redis.store (DnsDB.fresh true, w.2) = some (w', rc) ∧
      [1, 1, 1, 1] ∈ w'.1.revMap ∧
      w.1.lookup (fun _ ↦ 1) 4 = some (lit "www.example.") ∧
      w'.1.lookup (fun _ ↦ 1) 4 = some (lit "a.example.") := by
  refine ⟨_, _, _, _, rfl, rfl, ?_, rfl, rfl⟩
  rw [← Finmap.lookup_isSome]
  rfl

end DnsHive
