import DnsHive.DnsDB.Lookup

/-!
# The order of the answers

Answers about different addresses, and aliases of different names, do not interfere: a database
shows the same names after any two sequences that agree, for each address and for each alias, on the
names and their order (`answers_reorder`).  When an answer comes, and in which packet, does not
matter either.
-/

set_option autoImplicit false

namespace DnsHive

open Msgpack

/-- For each address and for each alias, both sequences have the same names in the same order.  So
it is if one is a permutation of the other that keeps the order of the answers with one key, and of
the aliases with one target, whatever times and hosts come with the answers. -/
structure SameOrder (rs rs' : List Answer) : Prop where
  address : ∀ k, (about Answer.key rs k).map Answer.name = (about Answer.key rs' k).map Answer.name
  target : ∀ target,
    (about Answer.alias rs target).map Answer.name = (about Answer.alias rs' target).map Answer.name

namespace SameOrder

theorem trans {rs rs' rs'' : List Answer} (h : SameOrder rs rs') (h' : SameOrder rs' rs'') :
    SameOrder rs rs'' :=
  ⟨fun k ↦ (h.address k).trans (h'.address k), fun t ↦ (h.target t).trans (h'.target t)⟩

theorem cons (r : Answer) {rs rs' : List Answer} (h : SameOrder rs rs') :
    SameOrder (r :: rs) (r :: rs') := by
  refine ⟨fun k ↦ ?_, fun target ↦ ?_⟩
  · have hrest := h.address k
    rw [about, about] at hrest ⊢
    by_cases hr : r.key = some k <;> simp [hr, hrest]
  · have hrest := h.target target
    rw [about, about] at hrest ⊢
    by_cases hr : r.alias = some target <;> simp [hr, hrest]

/-- Two neighbours can be exchanged, unless one `f` finds the same in both. -/
theorem about_swap {f : Answer → Option Bytes} {r r' : Answer}
    (h : ∀ k, ¬ (f r = some k ∧ f r' = some k)) (rs : List Answer) (k : Bytes) :
    about f (r :: r' :: rs) k = about f (r' :: r :: rs) k := by
  rw [about, about]
  by_cases hr : f r = some k
  · have hr' : f r' ≠ some k := fun hr' ↦ h k ⟨hr, hr'⟩
    simp [hr, hr']
  · simp [List.filter_cons, hr]

theorem swap {r r' : Answer} (hkey : ∀ k, ¬ (r.key = some k ∧ r'.key = some k))
    (halias : ∀ target, ¬ (r.alias = some target ∧ r'.alias = some target)) (rs : List Answer) :
    SameOrder (r :: r' :: rs) (r' :: r :: rs) :=
  ⟨fun k ↦ by rw [about_swap hkey], fun target ↦ by rw [about_swap halias]⟩

end SameOrder

variable {σ : Type} {c : Codec} {srv : Redis σ} {lists : σ → Bytes → List Bytes}

/-- The same names are shown, and the same ones are read in the records. -/
structure SameNames (c : Codec) (lists : σ → Bytes → List Bytes) (w w' : DnsDB × σ) : Prop where
  lookup : ∀ addr len, w.1.lookup addr len = w'.1.lookup addr len
  records : ∀ k, (lists w.2 k).map (DnsDB.recordName c) = (lists w'.2 k).map (DnsDB.recordName c)

/-- Without Redis, nothing is sent to the server. -/
theorem taken_server {w w' : DnsDB × σ} {rs : List Answer} {outs : List (List Record)}
    (hredis : ¬ w.1.redisCtx) (h : Taken c srv w rs outs w') : w'.2 = w.2 := by
  induction h with
  | nil => rfl
  | snoc hruns heffect ih =>
    rw [← (Learned.of_taken hruns).redisCtx] at hredis
    rw [← ih]
    cases heffect with
    | ignored => rfl
    | aliased => rfl
    | recorded => exact if_neg hredis

/-- What is read in the records that have been pushed are the names of the answers. -/
theorem recordNames_pushed (k : Bytes) {rs : List Answer} (hcodec : ∀ r ∈ rs, c.Inverts r.fields) :
    ((about Answer.key rs k).map fun r ↦ c.pack r.record).map (DnsDB.recordName c) =
      ((about Answer.key rs k).map Answer.name).map (some ∘ some) := by
  rw [List.map_map, List.map_map]
  refine List.map_congr_left fun r hr ↦ ?_
  exact recordName_of_inverts (hcodec r (List.mem_of_mem_filter hr))

/-- What the records of a list say after answers is what they said, and the names before that. -/
theorem taken_recordNames {w w' : DnsDB × σ} {rs : List Answer} {outs : List (List Record)}
    (hsrv : srv.Lawful lists) (h : Taken c srv w rs outs w')
    (hcodec : ∀ r ∈ rs, c.Inverts r.fields) (k : Bytes) :
    (lists w'.2 k).map (DnsDB.recordName c) =
      (if w.1.redisCtx then
        (((about Answer.key rs k).map Answer.name).map (some ∘ some)).reverse else []) ++
      (lists w.2 k).map (DnsDB.recordName c) := by
  by_cases hredis : w.1.redisCtx
  · rw [if_pos hredis, pushed_lists hsrv hredis h, List.map_append, List.map_reverse,
      recordNames_pushed k hcodec]
  · rw [if_neg hredis, taken_server hredis h, List.nil_append]

theorem sameNames_of_taken {w w₁ w₂ : DnsDB × σ} {rs rs' : List Answer}
    {outs outs' : List (List Record)} (hsrv : srv.Lawful lists) (hsame : SameOrder rs rs')
    (hcodec : ∀ r ∈ rs ++ rs', c.Inverts r.fields) (h : Taken c srv w rs outs w₁)
    (h' : Taken c srv w rs' outs' w₂) : SameNames c lists w₁ w₂ := by
  have hlearned := Learned.of_taken h
  have hlearned' := Learned.of_taken h'
  have hcname : w₁.1.cname = w₂.1.cname := by
    funext target
    rw [DnsDB.cname, DnsDB.cname, hlearned.cnameMap, hlearned'.cnameMap, firstName, firstName,
      hsame.target]
  refine ⟨fun addr len ↦ ?_, fun k ↦ ?_⟩
  · rw [DnsDB.lookup_eq, DnsDB.lookup_eq, hcname, hlearned.revMap, hlearned'.revMap, firstName,
      firstName, hsame.address]
  · rw [taken_recordNames hsrv h (fun r hr ↦ hcodec r (List.mem_append_left _ hr)),
      taken_recordNames hsrv h' (fun r hr ↦ hcodec r (List.mem_append_right _ hr)), hsame.address]

/-- **The order of independent answers does not matter.**  From one state, two sequences of answers
that agree for each address and for each alias are both taken, and afterwards every address has the
same name, and its list in Redis has records of the same names in the same order. -/
theorem answers_reorder (c : Codec) (srv : Redis σ) (lists : σ → Bytes → List Bytes)
    (hsrv : srv.Lawful lists) (w : DnsDB × σ) (rs rs' : List Answer) (hsame : SameOrder rs rs')
    (hcodec : ∀ r ∈ rs ++ rs', c.Inverts r.fields) :
    ∃ w₁ outs₁ w₂ outs₂, Machine.run (DnsDB.insert c srv) w rs = some (w₁, outs₁) ∧
      Machine.run (DnsDB.insert c srv) w rs' = some (w₂, outs₂) ∧ SameNames c lists w₁ w₂ := by
  obtain ⟨w₁, outs₁, hrun, h⟩ := taken_isSome c srv w rs fun _ ↦ hsrv.lpush_reply
  obtain ⟨w₂, outs₂, hrun', h'⟩ := taken_isSome c srv w rs' fun _ ↦ hsrv.lpush_reply
  exact ⟨w₁, outs₁, w₂, outs₂, hrun, hrun', sameNames_of_taken hsrv hsame hcodec h h'⟩

/-- How the answers are split into packets does not matter either: what is read and shown depends on
the order of the answers alone. -/
theorem packets_reorder (hsrv : srv.Lawful lists) {w w₁ w₂ : DnsDB × σ}
    {ps ps' : List Swarm.Property} {outs outs' : List (List Record)}
    (hrun : Machine.run (DnsDB.recv c srv) w ps = some (w₁, outs))
    (hrun' : Machine.run (DnsDB.recv c srv) w ps' = some (w₂, outs'))
    (hsame : SameOrder (ps.flatMap DnsDB.answers) (ps'.flatMap DnsDB.answers))
    (hcodec : ∀ p ∈ ps ++ ps', ∀ r ∈ DnsDB.answers p, c.Inverts r.fields) :
    SameNames c lists w₁ w₂ := by
  obtain ⟨outs₁, h, -⟩ := run_recv hrun
  obtain ⟨outs₂, h', -⟩ := run_recv hrun'
  refine sameNames_of_taken hsrv hsame (fun r hr ↦ ?_) (taken_of_run h) (taken_of_run h')
  rw [← List.flatMap_append] at hr
  obtain ⟨p, hp, hr⟩ := List.mem_flatMap.mp hr
  exact hcodec p hp r hr

/-- The same answers as in `sampleAnswers`, with the alias first. -/
def reordered : List Answer :=
  [sampleAnswer "CNAME" "c.example." 1, sampleAnswer "A" "a.example." 1,
    sampleAnswer "A" "b.example." 1, sampleAnswer "MX" "d.example." 1,
    { sampleAnswer "AAAA" "e.example." 2 with ptr := none }]

theorem sampleAnswers_reordered : SameOrder sampleAnswers reordered := by
  have hkey : (sampleAnswer "CNAME" "c.example." 1).key = none := by decide
  have halias : (sampleAnswer "A" "a.example." 1).alias = none := by decide
  have halias' : (sampleAnswer "A" "b.example." 1).alias = none := by decide
  exact .trans (.cons _ (.swap (by simp [hkey]) (by simp [halias']) _))
    (.swap (by simp [hkey]) (by simp [halias]) _)

theorem answers_reorder_sample :
    ∃ w₁ outs₁ w₂ outs₂,
      Machine.run (DnsDB.insert format Redis.store)
        ({ DnsDB.init with redisCtx := true, output := true }, ∅) sampleAnswers =
          some (w₁, outs₁) ∧
      Machine.run (DnsDB.insert format Redis.store)
        ({ DnsDB.init with redisCtx := true, output := true }, ∅) reordered = some (w₂, outs₂) ∧
      SameNames format Redis.Store.lists w₁ w₂ :=
  answers_reorder format Redis.store Redis.Store.lists Redis.store_lawful _ sampleAnswers reordered
    sampleAnswers_reordered fun r hr ↦ by
      have hfits : ∀ r ∈ sampleAnswers ++ reordered, MapFits r.fields := by decide
      exact format_inverts (hfits r hr)

end DnsHive
