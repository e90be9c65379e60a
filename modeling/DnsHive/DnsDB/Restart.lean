import DnsHive.DnsDB.Agreement

/-!
# Restarting the program

A process that starts with Redis enabled reads the names back.  `loadRedisDb` collects all keys and
then asks once for each of them, but always for the list of the key it collected last; so it
restores that address and loses every other one (`loadRedisDb_eq`).

In a history of answers and restarts, memory is therefore what it was before each restart exactly if
no two addresses have been recorded by then (`restart_restores`).
-/

set_option autoImplicit false

namespace DnsHive

open Msgpack

variable {σ : Type} {c : Codec} {srv : Redis σ} {lists : σ → Bytes → List Bytes}

/-! ## Reading the names back -/

namespace DnsDB

/-- A database as it is when a process starts, with Redis. -/
def fresh (output : Bool) : DnsDB := { init with redisCtx := true, output := output }

theorem insertNew_twice (m : StdMap) (key v v' : Bytes) :
    (m.insertNew key v).insertNew key v' = m.insertNew key v := by
  refine if_pos ?_
  rw [← Finmap.lookup_isSome, StdMap.lookup_insertNew, if_pos rfl]
  cases m.lookup key <;> rfl

/-- The loop reads the list of one key, as often as there are keys. -/
theorem loadKeys_eq (hsrv : srv.Lawful lists) {key buf name : Bytes}
    (hname : recordName c buf = some (some name)) (ks : List Bytes) (m : StdMap) (st : σ) (rc : Int)
    (hbuf : (lists st key).getLast? = some buf) :
    ∃ st', lists st' = lists st ∧ loadKeys c srv key ks (m, st, rc) =
      some (if ks = [] then m else m.insertNew key name, st', rc + ks.length) := by
  induction ks generalizing m st rc with
  | nil => exact ⟨st, rfl, by simp [loadKeys]⟩
  | cons k ks ih =>
    have hlists := hsrv.lrange_lists st key
    obtain ⟨st', hst', hload⟩ := ih (m.insertNew key name) (srv.command st (.lrangeLast key)).1
      (rc + 1) (by rw [hlists, hbuf])
    refine ⟨st', hst'.trans hlists, ?_⟩
    have hreply := hsrv.lrange_reply st key
    rw [hbuf] at hreply
    have hturn : loadKeys c srv key (k :: ks) (m, st, rc) =
        loadKeys c srv key ks
          (m.insertNew key name, (srv.command st (.lrangeLast key)).1, rc + 1) := by
      simp [loadKeys, hreply, Redis.Reply.element, Redis.Reply.text, hname]
    rw [hturn, hload, insertNew_twice, ite_self, if_neg (List.cons_ne_nil k ks), List.length_cons]
    push_cast
    rw [add_assoc, add_comm (1 : Int)]

theorem map_text (ks : List Bytes) : (ks.map Redis.Reply.string).map Redis.Reply.text = ks := by
  simp [Function.comp_def, Redis.Reply.text]

/-- **Only the last key is restored.**  If the oldest records hold the names `names`, a fresh
process has the name of the key that came last in the enumeration and no other. -/
theorem loadRedisDb_eq (hsrv : srv.Lawful lists) (output : Bool) {names : StdMap} {st : σ}
    (hnames : Agree c names (lists st)) :
    ∃ (m : StdMap) (st' : σ) (ks : List Bytes),
      loadRedisDb c srv (fresh output, st) =
        some (({ fresh output with revMap := m }, st'), (ks.length : Int)) ∧
      lists st' = lists st ∧ (∀ k, k ∈ ks ↔ k ∈ names) ∧
      ∀ k, m.lookup k = if ks.getLast? = some k then names.lookup k else none := by
  obtain ⟨ks, hreply, -, hks⟩ := hsrv.keys_reply st
  have hmem : ∀ k, k ∈ ks ↔ k ∈ names := fun k ↦ (hks k).trans (hnames.keys k).symm
  have hlists := hsrv.keys_lists st
  rcases List.eq_nil_or_concat ks with rfl | ⟨ks', key, rfl⟩
  · refine ⟨∅, (srv.command st .keys).1, [], ?_, hlists, hmem, by simp⟩
    simp [loadRedisDb, hreply, loadKeys, fresh, init]
  · rw [List.concat_eq_append] at *
    have hkey : lists st key ≠ [] := (hks key).mp (by simp)
    obtain ⟨buf, hbuf⟩ := Option.isSome_iff_exists.mp (List.getLast?_isSome.mpr hkey)
    obtain ⟨name, hname, hlookup⟩ := hnames.names key buf hbuf
    obtain ⟨st', hst', hload⟩ := loadKeys_eq hsrv hname (ks' ++ [key]) ∅ (srv.command st .keys).1 0
      (by rw [hlists, hbuf])
    refine ⟨StdMap.insertNew ∅ key name, st', ks' ++ [key], ?_, hst'.trans hlists, hmem, fun k ↦ ?_⟩
    · simp only [List.append_eq_nil_iff, List.cons_ne_self, and_false, if_false, zero_add] at hload
      simp only [loadRedisDb, hreply, Option.bind_eq_bind, Option.bind_some, map_text,
        List.getLastD_concat]
      simp [hload, fresh, init]
    · rw [StdMap.lookup_insertNew, List.getLast?_concat]
      by_cases hk : k = key
      · subst hk
        simp [hlookup]
      · simp [hk, Ne.symm hk]

end DnsDB

/-! ## Histories -/

/-- An answer comes, or the process is started anew. -/
inductive Happening where
  | answer (r : Answer)
  | restart

/-- What happens, with the events that are published. -/
def happen (c : Codec) (srv : Redis σ) (output : Bool) (w : DnsDB × σ) :
    Happening → Option ((DnsDB × σ) × List Record)
  | .answer r => DnsDB.insert c srv w r
  | .restart => (DnsDB.loadRedisDb c srv (DnsDB.fresh output, w.2)).map fun r ↦ (r.1, [])

/-- The addresses that have been recorded. -/
def recorded (h : List Happening) : List Bytes :=
  h.filterMap fun
    | .answer r => r.key
    | .restart => none

/-- No two addresses have been recorded. -/
def OneAddress (h : List Happening) : Prop := ∀ k ∈ recorded h, ∀ k' ∈ recorded h, k = k'

/-- Reading the names back after this history gives the map that was in memory. -/
def Restored (c : Codec) (srv : Redis σ) (output : Bool) (st : σ) (h : List Happening) : Prop :=
  ∃ w outs w' rc, Machine.run (happen c srv output) (DnsDB.fresh output, st) h = some (w, outs) ∧
    DnsDB.loadRedisDb c srv (DnsDB.fresh output, w.2) = some (w', rc) ∧ w'.1.revMap = w.1.revMap

/-- `P` holds, at each restart, of what has happened before. -/
def AtRestarts (P : List Happening → Prop) (h : List Happening) : Prop :=
  ∀ pre post, h = pre ++ .restart :: post → P pre

theorem atRestarts_nil (P : List Happening → Prop) : AtRestarts P [] := by
  intro pre post h
  simp at h

theorem atRestarts_concat {P : List Happening → Prop} {h : List Happening} {a : Happening} :
    AtRestarts P (h ++ [a]) ↔ AtRestarts P h ∧ (a = .restart → P h) := by
  constructor
  · refine fun hP ↦ ⟨fun pre post hh ↦ hP pre (post ++ [a]) (by rw [hh]; simp), ?_⟩
    rintro rfl
    exact hP h [] rfl
  · rintro ⟨hP, ha⟩ pre post hh
    rcases List.eq_nil_or_concat post with rfl | ⟨post', b, rfl⟩
    · obtain ⟨rfl, hab⟩ := List.append_inj' hh rfl
      exact ha (List.singleton_injective hab)
    · have hh' : h ++ [a] = (pre ++ .restart :: post') ++ [b] := by simpa using hh
      exact hP pre post' (List.append_inj' hh' rfl).1

theorem recorded_concat (h : List Happening) (r : Answer) :
    recorded (h ++ [.answer r]) = recorded h ++ r.key.toList := by
  rw [recorded, List.filterMap_append]
  cases hk : r.key <;> simp [hk, recorded]

/-- Redis after a history: the oldest records hold the names `names`. -/
structure Archive (c : Codec) (lists : σ → Bytes → List Bytes) (h : List Happening) (st : σ)
    (names : StdMap) : Prop where
  agree : Agree c names (lists st)
  keys : ∀ k, k ∈ names ↔ k ∈ recorded h

/-- An answer is archived like it is kept in memory. -/
theorem Archive.answer {h : List Happening} {w w' : DnsDB × σ} {names : StdMap} {r : Answer}
    {events : List Record} (ha : Archive c lists h w.2 names)
    (heffect : Effect c srv w r w' events) (hsrv : srv.Lawful lists) (hredis : w.1.redisCtx)
    (hcodec : c.Inverts r.fields) :
    ∃ names', Archive c lists (h ++ [.answer r]) w'.2 names' ∧
      (w.1.revMap = names → w'.1.revMap = names') := by
  have hsame : r.key = none → ∀ k, k ∈ names ↔ k ∈ recorded (h ++ [.answer r]) := fun hkey k ↦ by
    rw [recorded_concat, hkey, Option.toList_none, List.append_nil, ha.keys k]
  cases heffect with
  | ignored hr =>
    have hkey : r.key = none := by
      by_contra hkey
      obtain ⟨k, hk⟩ := Option.ne_none_iff_exists'.mp hkey
      exact hr ⟨r.ptr_of_key hk, .inl (r.isAddress_of_key hk)⟩
    exact ⟨names, ⟨ha.agree, hsame hkey⟩, id⟩
  | aliased hptr hc => exact ⟨names, ⟨ha.agree, hsame (if_neg hc.not_isAddress)⟩, id⟩
  | @recorded k hra hkey =>
    refine ⟨names.insertNew k r.name, ⟨?_, fun k' ↦ ?_⟩, fun hm ↦ by rw [← hm]⟩
    · rw [if_pos hredis, hsrv.lpush_lists]
      exact ha.agree.push k hcodec
    · rw [recorded_concat, hkey, Option.toList_some, List.mem_append, List.mem_singleton,
        ← Finmap.lookup_isSome, StdMap.lookup_insertNew, ← ha.keys k', ← Finmap.lookup_isSome]
      by_cases hk : k' = k <;> simp [hk]

/-- A restart leaves Redis alone. -/
theorem Archive.restart {h : List Happening} {st st' : σ} {names : StdMap}
    (ha : Archive c lists h st names) (hlists : lists st' = lists st) :
    Archive c lists (h ++ [.restart]) st' names := by
  refine ⟨hlists ▸ ha.agree, fun k ↦ ?_⟩
  rw [ha.keys k, recorded, recorded, List.filterMap_append]
  simp

/-- After a history that has been run, the map is restored if the one read back is the same. -/
theorem restored_of_run {output : Bool} {st : σ} {h : List Happening} {w w' : DnsDB × σ}
    {outs : List (List Record)} {rc : Int}
    (hrun : Machine.run (happen c srv output) (DnsDB.fresh output, st) h = some (w, outs))
    (hload : DnsDB.loadRedisDb c srv (DnsDB.fresh output, w.2) = some (w', rc)) :
    Restored c srv output st h ↔ w'.1.revMap = w.1.revMap := by
  constructor
  · rintro ⟨w₁, outs₁, w₂, rc₁, hrun₁, hload₁, hsame⟩
    obtain ⟨rfl, -⟩ := Prod.mk.inj (Option.some.inj (hrun.symm.trans hrun₁))
    obtain ⟨rfl, -⟩ := Prod.mk.inj (Option.some.inj (hload.symm.trans hload₁))
    exact hsame
  · exact fun hsame ↦ ⟨w, outs, w', rc, hrun, hload, hsame⟩

/-- A map of which only the key enumerated last is left is the same exactly if there is no other. -/
theorem restored_iff {m names : StdMap} {ks : List Bytes} (hks : ∀ k, k ∈ ks ↔ k ∈ names)
    (hm : ∀ k, m.lookup k = if ks.getLast? = some k then names.lookup k else none) :
    m = names ↔ ∀ k ∈ names, ∀ k' ∈ names, k = k' := by
  constructor
  · rintro rfl k hk k' hk'
    have hlast : ∀ k ∈ m, ks.getLast? = some k := fun k hk ↦ by
      by_contra hne
      have hnone := hm k
      rw [if_neg hne, Finmap.lookup_eq_none] at hnone
      exact hnone hk
    exact Option.some.inj ((hlast k hk).symm.trans (hlast k' hk'))
  · intro hone
    refine Finmap.ext_lookup fun k ↦ ?_
    rw [hm k]
    split
    next => rfl
    next hne =>
      rw [eq_comm, Finmap.lookup_eq_none]
      refine fun hk ↦ hne ?_
      -- the last key of the enumeration is this one
      obtain ⟨k', hk'⟩ := Option.isSome_iff_exists.mp
        (List.getLast?_isSome.mpr (List.ne_nil_of_mem ((hks k).mpr hk)))
      rw [hk', hone k hk k' ((hks k').mp (List.mem_of_getLast? hk'))]

/-- What a history leaves behind.  If every restart in it restored the map, memory and Redis
agree. -/
theorem run_archive (hsrv : srv.Lawful lists) (output : Bool) {st : σ}
    (hempty : ∀ k, lists st k = []) (h : List Happening)
    (hcodec : ∀ r, .answer r ∈ h → c.Inverts r.fields) :
    ∃ w outs names, Machine.run (happen c srv output) (DnsDB.fresh output, st) h = some (w, outs) ∧
      w.1.redisCtx ∧ Archive c lists h w.2 names ∧
      (AtRestarts (Restored c srv output st) h ↔ AtRestarts OneAddress h) ∧
      (AtRestarts OneAddress h → w.1.revMap = names) := by
  induction h using List.reverseRecOn with
  | nil =>
    refine ⟨_, [], ∅, rfl, rfl, ⟨.empty hempty, fun k ↦ ?_⟩, ?_, fun _ ↦ rfl⟩
    · simp [recorded, Finmap.notMem_empty]
    · simp [atRestarts_nil]
  | append_singleton h a ih =>
    obtain ⟨w, outs, names, hrun, hredis, harchive, hiff, hmemory⟩ :=
      ih fun r hr ↦ hcodec r (List.mem_append_left _ hr)
    cases a with
    | answer r =>
      obtain ⟨w', events, hcall, heffect⟩ := insert_effect c srv w r fun _ ↦ hsrv.lpush_reply w.2
      obtain ⟨names', harchive', hmemory'⟩ :=
        harchive.answer heffect hsrv hredis (hcodec r (by simp))
      refine ⟨w', outs ++ [events], names', Machine.run_concat hrun hcall,
        heffect.redisCtx ▸ hredis, harchive', ?_, fun hone ↦ ?_⟩
      · simpa [atRestarts_concat] using hiff
      · exact hmemory' (hmemory (atRestarts_concat.mp hone).1)
    | restart =>
      obtain ⟨m, st', ks, hload, hlists, hks, hm⟩ :=
        DnsDB.loadRedisDb_eq hsrv output harchive.agree
      have hsame := restored_iff hks hm
      have hone : OneAddress h ↔ ∀ k ∈ names, ∀ k' ∈ names, k = k' := by
        simp only [OneAddress, harchive.keys]
      have hrestored : w.1.revMap = names → (Restored c srv output st h ↔ OneAddress h) := by
        intro hmem
        rw [restored_of_run hrun hload, hone, ← hsame, hmem]
      refine ⟨({ DnsDB.fresh output with revMap := m }, st'), outs ++ [[]], names,
        Machine.run_concat hrun (by simp [happen, hload]), rfl, harchive.restart hlists, ?_,
        fun hall ↦ ?_⟩
      · rw [atRestarts_concat, atRestarts_concat, hiff]
        exact and_congr_right fun hall ↦ by rw [hrestored (hmemory hall)]
      · exact hsame.mpr (hone.mp ((atRestarts_concat.mp hall).2 rfl))

/-- **When a restart restores the names.**  For every history that begins with an empty database and
every order of the keys: the history runs without a fault, and memory is the same before and after
each restart exactly if, at each restart, no two addresses have been recorded. -/
theorem restart_restores (c : Codec) (srv : Redis σ) (lists : σ → Bytes → List Bytes)
    (hsrv : srv.Lawful lists) (output : Bool) (st : σ) (hempty : ∀ k, lists st k = [])
    (h : List Happening) (hcodec : ∀ r, .answer r ∈ h → c.Inverts r.fields) :
    (∃ w outs, Machine.run (happen c srv output) (DnsDB.fresh output, st) h = some (w, outs)) ∧
      (AtRestarts (Restored c srv output st) h ↔ AtRestarts OneAddress h) := by
  obtain ⟨w, outs, -, hrun, -, -, hiff, -⟩ := run_archive hsrv output hempty h hcodec
  exact ⟨⟨w, outs, hrun⟩, hiff⟩

/-- One address with several names, and two restarts. -/
def sampleHistory : List Happening :=
  [.answer (sampleAnswer "A" "a.example." 1), .answer (sampleAnswer "CNAME" "b.example." 2),
    .restart, .answer (sampleAnswer "A" "c.example." 1), .restart]

theorem restart_restores_sample :
    (∃ w outs, Machine.run (happen format Redis.store true) (DnsDB.fresh true, ∅) sampleHistory =
        some (w, outs)) ∧
      (AtRestarts (Restored format Redis.store true ∅) sampleHistory ↔
        AtRestarts OneAddress sampleHistory) :=
  restart_restores format Redis.store Redis.Store.lists Redis.store_lawful true ∅ (fun _ ↦ rfl)
    sampleHistory fun r hr ↦ by
      simp only [sampleHistory, List.mem_cons, Happening.answer.injEq, reduceCtorEq, false_or,
        List.not_mem_nil, or_false] at hr
      rcases hr with rfl | rfl | rfl <;> exact format_inverts (by decide)

/-- Two addresses, and a restart. -/
def twoAddresses : List Happening :=
  [.answer (sampleAnswer "A" "a.example." 1), .answer (sampleAnswer "A" "b.example." 2)]

/-- The address recorded last is not restored. -/
theorem restart_loses :
    ¬ AtRestarts (Restored format Redis.store true ∅) (twoAddresses ++ [.restart]) := by
  intro h
  obtain ⟨w, outs, w', rc, hrun, hload, hsame⟩ := h twoAddresses [] rfl
  have hbefore : (Machine.run (happen format Redis.store true) (DnsDB.fresh true, ∅)
      twoAddresses).map (fun r ↦ r.1.1.revMap.lookup [2, 2, 2, 2]) =
        some (some (lit "b.example.")) := by rfl
  have hafter : (Machine.run (happen format Redis.store true) (DnsDB.fresh true, ∅)
      (twoAddresses ++ [.restart])).map (fun r ↦ r.1.1.revMap.lookup [2, 2, 2, 2]) =
        some none := by rfl
  have hrestart : happen format Redis.store true w .restart = some (w', []) := by
    simp [happen, hload]
  rw [Machine.run_concat hrun hrestart, Option.map_some, Option.some_inj] at hafter
  rw [hrun, Option.map_some, Option.some_inj] at hbefore
  rw [hsame, hbefore] at hafter
  simp at hafter

end DnsHive
