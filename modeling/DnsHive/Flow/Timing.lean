import DnsHive.Flow.Tracking

/-!
# When a flow ends

A flow is examined when its slot comes due, which is at least `TIMEOUT` ticks after it was put, and
not when it was last active.  So it ends neither exactly `TIMEOUT` seconds after its last packet nor
at a time that depends on that packet alone.  Two bounds hold nevertheless.

* A flow does not end while its packets are less than `TIMEOUT` seconds apart
  (`no_premature_split`).
* A flow that has been idle for twice as long is gone (`bounded_lateness`).  This one rests on an
  invariant that ties the time of the packets to the clock of the table, `Session.Punctual`: the
  ticks that are left until the deadline would not bring the time past the bound.
-/

set_option autoImplicit false

namespace DnsHive

open Swarm FlowHandler

variable {c : Selector} {output : Bool} {now last : Int} {clock : Nat} {σ σ' : Option Session}
  {o : List Action} {db : DnsDB} {p : Property}

/-! ## Lateness -/

/-- At the time `now` and the clock `clock`, the deadline comes before the flow has been idle for
twice `TIMEOUT`. -/
def Session.Punctual (now : Int) (clock : Nat) (S : Session) : Prop :=
  ∃ t, S.flow.lastTs = some t ∧ clock ≤ S.deadline ∧ S.deadline ≤ clock + timeout ∧
    now + (S.deadline - clock : Int) < t + 2 * timeout

theorem Session.Punctual.lt {S : Session} (h : S.Punctual now clock) {t : Int}
    (ht : S.flow.lastTs = some t) : now < t + 2 * timeout := by
  obtain ⟨t', ht', hlow, -, hnow⟩ := h
  obtain rfl : t' = t := Option.some.inj (ht'.symm.trans ht)
  omega

theorem activeAt_iff {f : Flow} {t : Int} (ht : f.lastTs = some t) :
    activeAt now f ↔ now < t + timeout := by
  simp [activeAt, ht]

theorem elapsed_eq (now : Int) (hlast : 0 < last) : elapsed last now = (now - last).toNat := by
  rw [elapsed]
  split <;> omega

/-- Time that passes, or goes back, leaves the flow punctual. -/
theorem Aged.punctual (h : Aged output now (clock + elapsed last now) σ o σ')
    (hlast : ∀ S ∈ σ, 0 < last) (hσ : ∀ S ∈ σ, S.Punctual last clock) :
    ∀ S ∈ σ', S.Punctual now (clock + elapsed last now) := by
  cases h with
  | idle => simp
  | @stays S hdue =>
    obtain ⟨t, ht, hlow, hhigh, hbound⟩ := hσ S rfl
    have helapsed := elapsed_eq now (hlast S rfl)
    rintro S' ⟨⟩
    exact ⟨t, ht, hdue, by omega, by omega⟩
  | @rearmed S _ hact =>
    obtain ⟨t, ht, -⟩ := hσ S rfl
    rw [activeAt_iff ht] at hact
    rintro S' ⟨⟩
    refine ⟨t, ht, ?_⟩
    push_cast
    omega
  | closed => simp

/-- A packet leaves the flow punctual. -/
theorem Touched.punctual (h : Touched c output clock db p σ o σ')
    (hσ : ∀ S ∈ σ, S.Punctual p.tvSec clock) : ∀ S ∈ σ', S.Punctual p.tvSec clock := by
  cases h with
  | other => exact hσ
  | @joined S =>
    obtain ⟨t, ht, hlow, hhigh, hbound⟩ := hσ S rfl
    rintro S' ⟨⟩
    refine ⟨p.tvSec, S.flow.update_lastTs p, hlow, hhigh, ?_⟩
    simp only [timeout] at *
    omega
  | @opened x src dst =>
    rintro S' ⟨⟩
    refine ⟨p.tvSec, Flow.update_lastTs _ p, ?_⟩
    push_cast
    simp only [timeout]
    omega

/-- Between two packets, an open flow is punctual, and packets have come. -/
def Watch.Punctual (w : Watch) : Prop :=
  ∀ S ∈ w.session, 0 < w.lastTs ∧ S.Punctual w.lastTs w.clock

/-- The updates of these actions find flows that have not been idle for twice `TIMEOUT`. -/
def Prompt (o : List Action) : Prop :=
  ∀ (x : Ptr) (f : Flow) (p : Property) (t : Int), .update x f p ∈ o → f.lastTs = some t →
    p.tvSec < t + 2 * timeout

theorem Aged.prompt (h : Aged output now clock σ o σ') : Prompt o := by
  cases h with
  | closed => cases output <;> simp [Prompt, closing, report]
  | _ => simp [Prompt]

theorem Touched.prompt (h : Touched c output clock db p σ o σ')
    (hσ : ∀ S ∈ σ, S.Punctual p.tvSec clock) : Prompt o := by
  cases h with
  | other => simp [Prompt]
  | @joined S =>
    rintro x f q t hmem ht
    simp only [List.mem_singleton, Action.update.injEq] at hmem
    obtain ⟨-, rfl, rfl⟩ := hmem
    exact (hσ S rfl).lt ht
  | @opened x src dst =>
    rintro y f q t hmem ht
    have hf : f = .new p src dst := by
      cases output <;> simp [report] at hmem <;> exact hmem.2.1
    simp [hf, Flow.new] at ht

theorem Watch.Step.punctual {w w' : Watch} {i : DnsDB × Property} (h : w.Step c output i o w')
    (hpos : 0 < i.2.tvSec) (hw : w.Punctual) : w'.Punctual ∧ Prompt o := by
  obtain ⟨hts, hclock, σ, o₁, o₂, haged, htouched, rfl⟩ := h
  rw [hclock] at haged htouched
  have hσ := haged.punctual (fun S hS ↦ (hw S hS).1) fun S hS ↦ (hw S hS).2
  refine ⟨fun S hS ↦ ⟨hts ▸ hpos, ?_⟩, fun x f p t hmem ↦ ?_⟩
  · rw [hts, hclock]
    exact htouched.punctual hσ S hS
  · rcases List.mem_append.mp hmem with hmem | hmem
    · exact haged.prompt x f p t hmem
    · exact htouched.prompt hσ x f p t hmem

theorem Watch.punctual_of_runs {w w' : Watch} {ins : List (DnsDB × Property)}
    {outs : List (List Action)} (h : Machine.Runs (Watch.Step c output) w ins outs w')
    (hpos : ∀ i ∈ ins, 0 < i.2.tvSec) (hw : w.Punctual) :
    w'.Punctual ∧ ∀ o ∈ outs, Prompt o := by
  induction h with
  | nil => exact ⟨hw, by simp⟩
  | snoc hruns hstep ih =>
    obtain ⟨hw', hprompt⟩ := ih fun j hj ↦ hpos j (List.mem_append_left _ hj)
    obtain ⟨hw'', hprompt'⟩ := hstep.punctual (hpos _ (by simp)) hw'
    refine ⟨hw'', fun o ho ↦ ?_⟩
    rcases List.mem_append.mp ho with ho | ho
    · exact hprompt o ho
    · rwa [List.mem_singleton.mp ho]

theorem mem_history_object {acts : List Action} {a : Action} {x : Ptr} {key : Bytes}
    (ha : a ∈ acts) (hx : a.subject = some (x, key)) : a ∈ history (.object x) acts :=
  List.mem_filter.mpr ⟨ha, by simp [hx, Selector.sees]⟩

/-- **Bounded lateness.**  Whether the times increase, repeat or go back: after every packet, no
flow in the table has been idle for twice `TIMEOUT`, and none ever receives a packet after that. -/
theorem bounded_lateness (al : Allocator) (output : Bool) (fuel : Nat)
    (ins : List (DnsDB × Property)) (i : DnsDB × Property)
    (haddr : ∀ j ∈ ins ++ [i], j.2.HasAddrs) (hpos : ∀ j ∈ ins ++ [i], 0 < j.2.tvSec)
    (hfuel : ins.length + 1 ≤ fuel) :
    ∃ s outs, Machine.run (recv al fuel) (init output) (ins ++ [i]) = some (s, outs) ∧
      (∀ x f, s.flowTable.Holds x f →
        ∃ t, f.lastTs = some t ∧ i.2.tvSec < t + 2 * timeout) ∧
      ∀ acts ∈ outs, Prompt acts := by
  obtain ⟨s, outs, T, hrun, h, -, -, -, hw⟩ :=
    watch_init al output haddr (by simpa using hfuel)
  have hobject : ∀ x, ∃ w, w.Punctual ∧ (∀ o ∈ outs.map (history (.object x)), Prompt o) ∧
      Watches (.object x) (fun _ ↦ 0) s T w ∧ w.lastTs = i.2.tvSec := by
    intro x
    obtain ⟨w, hruns, hwx⟩ := hw (.object x) (fun _ ↦ 0) fun _ _ ↦ trivial
    obtain ⟨hpunct, hprompt⟩ :=
      Watch.punctual_of_runs hruns hpos (by simp [Watch.Punctual, Watch.init])
    obtain ⟨_, _, _, _, _, hstep⟩ := hruns.last
    exact ⟨w, hpunct, hprompt, hwx, hstep.1⟩
  refine ⟨s, outs, hrun, fun x f hx ↦ ?_, fun acts hacts x f p t hmem ht ↦ ?_⟩
  · obtain ⟨w, hpunct, -, hwx, hts⟩ := hobject x
    obtain ⟨y, d, rfl, hsession⟩ := hwx.holds h hx
    obtain ⟨-, hS⟩ := hpunct _ hsession
    obtain ⟨t, ht, -⟩ := hS
    exact ⟨t, ht, hts ▸ (hpunct _ hsession).2.lt ht⟩
  · obtain ⟨w, -, hprompt, -⟩ := hobject x
    exact hprompt _ (List.mem_map_of_mem hacts) x f p t (mem_history_object hmem rfl) ht

/-- Time goes back by a minute between two packets, and later jumps by more than the bound. -/
theorem bounded_lateness_sample :
    ∃ s outs, Machine.run (recv .above 20) (init true)
        ([(DnsDB.init, samplePacket [1] 100), (DnsDB.init, samplePacket [2] 40),
          (DnsDB.init, samplePacket [1] 41)] ++ [(DnsDB.init, samplePacket [2] 700)]) =
          some (s, outs) ∧
      (∀ x f, s.flowTable.Holds x f →
        ∃ t, f.lastTs = some t ∧ (700 : Int) < t + 2 * timeout) ∧
      ∀ acts ∈ outs, Prompt acts :=
  bounded_lateness .above true 20 _ _ (by decide) (by decide) (by decide)

/-! ## Continuity -/

theorem Aged.of_none (h : Aged output now clock none o σ') : o = [] ∧ σ' = none := by
  cases h
  exact ⟨rfl, rfl⟩

/-- A flow that is active stays, and nothing is reported of it. -/
theorem Aged.quiet {S : Session} (h : Aged output now clock (some S) o σ')
    (hact : activeAt now S.flow) : o = [] ∧ ∃ d, σ' = some { S with deadline := d } := by
  cases h with
  | stays => exact ⟨rfl, S.deadline, rfl⟩
  | rearmed => exact ⟨rfl, _, rfl⟩
  | closed _ hact' => exact absurd hact hact'

/-- A packet of the session is counted in its flow. -/
theorem Touched.updates {label : Bytes} (h : Touched (.session label) output clock db p σ o σ')
    (hp : p.ssnLabel = label) :
    ∃ S f o', o = o' ++ [.update (.node S.node) f p] ∧ σ' = some S ∧ S.flow = f.update p ∧
      (∀ S₀, σ = some S₀ → o' = [] ∧ S.node = S₀.node ∧ f = S₀.flow) ∧
      (σ = none → ∃ src dst, f = .new p src dst) := by
  cases h with
  | other hc => simp [Selector.sees, hp] at hc
  | @joined S =>
    refine ⟨{ S with flow := S.flow.update p }, S.flow, [], rfl, rfl, rfl, ?_, by simp⟩
    rintro S₀ ⟨⟩
    exact ⟨rfl, rfl, rfl⟩
  | opened => exact ⟨_, _, _, rfl, rfl, rfl, by simp, fun _ ↦ ⟨_, _, rfl⟩⟩

/-- A packet of another session does nothing to it. -/
theorem Touched.foreign {label : Bytes} (h : Touched (.session label) output clock db p σ o σ')
    (hp : p.ssnLabel ≠ label) : o = [] ∧ σ' = σ := by
  cases h with
  | other => exact ⟨rfl, rfl⟩
  | joined hc => simp [Selector.sees, hp] at hc
  | opened hc => simp [Selector.sees, hp] at hc

theorem activeAt_of_lt {f : Flow} {t : Int} (ht : f.lastTs = some t) (h : now < t + timeout) :
    activeAt now f := (activeAt_iff ht).mpr h

/-- While only other sessions have packets, and not for longer than `TIMEOUT`, nothing happens to
the flow but that it is re-armed. -/
theorem Watch.quiet {label : Bytes} {w w' : Watch} {mid : List (DnsDB × Property)}
    {outs : List (List Action)} {S : Session} {t : Int}
    (h : Machine.Runs (Watch.Step (.session label) output) w mid outs w')
    (hforeign : ∀ i ∈ mid, i.2.ssnLabel ≠ label) (ht : S.flow.lastTs = some t)
    (htime : ∀ i ∈ mid, i.2.tvSec < t + timeout) (hw : w.session = some S) :
    outs.flatten = [] ∧ ∃ d, w'.session = some { S with deadline := d } := by
  induction h with
  | nil => exact ⟨rfl, S.deadline, hw⟩
  | @snoc is os w₁ w₂ i o hruns hstep ih =>
    obtain ⟨hnil, d, hd⟩ := ih (fun j hj ↦ hforeign j (List.mem_append_left _ hj)) fun j hj ↦
      htime j (List.mem_append_left _ hj)
    obtain ⟨-, -, σ, o₁, o₂, haged, htouched, rfl⟩ := hstep
    rw [hd] at haged
    obtain ⟨rfl, d', rfl⟩ := haged.quiet (activeAt_of_lt ht (htime i (by simp)))
    obtain ⟨rfl, hσ⟩ := htouched.foreign (hforeign i (by simp))
    exact ⟨by simp [hnil], d', hσ⟩

/-- Two packets of a session less than `TIMEOUT` apart, with only packets of other sessions between
them, are counted one after the other in one flow. -/
theorem Watch.continuous {label : Bytes} {w₁ w₂ w₃ w₄ : Watch} {i j : DnsDB × Property}
    {mid : List (DnsDB × Property)} {acts acts' : List Action} {outs : List (List Action)}
    (hstep : w₁.Step (.session label) output i acts w₂)
    (hruns : Machine.Runs (Watch.Step (.session label) output) w₂ mid outs w₃)
    (hstep' : w₃.Step (.session label) output j acts' w₄)
    (hi : i.2.ssnLabel = label) (hj : j.2.ssnLabel = label)
    (hmid : ∀ k ∈ mid, k.2.ssnLabel ≠ label)
    (htime : ∀ k ∈ mid, k.2.tvSec < i.2.tvSec + timeout)
    (hgap : j.2.tvSec < i.2.tvSec + timeout) :
    ∃ due x f, acts = due ++ [.update x f i.2] ∧ (∀ o ∈ outs, o = []) ∧
      acts' = [.update x (f.update i.2) j.2] := by
  -- the first packet sets the time of the flow
  obtain ⟨-, -, σ, due, o, -, htouched, rfl⟩ := hstep
  obtain ⟨S, f, o', rfl, hsession, hflow, -⟩ := htouched.updates hi
  have hlast : S.flow.lastTs = some i.2.tvSec := by rw [hflow, Flow.update_lastTs]
  obtain ⟨hnil, d, hsession'⟩ := Watch.quiet hruns hmid hlast htime hsession
  -- and the second finds the flow as the first left it
  obtain ⟨-, -, σ', o₁, o₂, haged, htouched', rfl⟩ := hstep'
  rw [hsession'] at haged
  obtain ⟨rfl, d', rfl⟩ := haged.quiet (activeAt_of_lt hlast hgap)
  obtain ⟨S', f', o'', rfl, -, -, hsame, -⟩ := htouched'.updates hj
  obtain ⟨rfl, hnode, rfl⟩ := hsame _ rfl
  refine ⟨due ++ o', .node S.node, f, ?_, List.flatten_eq_nil_iff.mp hnil, ?_⟩
  · rw [List.append_assoc]
  · rw [hnode, hflow]
    rfl

/-- **No premature split.**  Two consecutive packets of a session that are less than `TIMEOUT`
seconds apart are counted in the same flow, and nothing is reported of the session in between,
whatever the other sessions do. -/
theorem no_premature_split (al : Allocator) (H : Bytes → Nat) (output : Bool) (fuel : Nat)
    (label : Bytes) (pre mid post : List (DnsDB × Property)) (i j : DnsDB × Property)
    (haddr : ∀ k ∈ pre ++ i :: (mid ++ j :: post), k.2.HasAddrs)
    (hhash : ∀ k ∈ pre ++ i :: (mid ++ j :: post), k.2.hashValue = H k.2.ssnLabel)
    (hmono : (pre ++ i :: (mid ++ j :: post)).Pairwise fun k l ↦ k.2.tvSec ≤ l.2.tvSec)
    (hi : i.2.ssnLabel = label) (hj : j.2.ssnLabel = label)
    (hmid : ∀ k ∈ mid, k.2.ssnLabel ≠ label) (hgap : j.2.tvSec < i.2.tvSec + timeout)
    (hfuel : (pre ++ i :: (mid ++ j :: post)).length ≤ fuel) :
    ∃ s outs₁ acts outs₂ acts' outs₃,
      Machine.run (recv al fuel) (init output) (pre ++ i :: (mid ++ j :: post)) =
        some (s, outs₁ ++ acts :: (outs₂ ++ acts' :: outs₃)) ∧
      outs₁.length = pre.length ∧ outs₂.length = mid.length ∧
      ∃ due x f, history (.session label) acts = due ++ [.update x f i.2] ∧
        (∀ o ∈ outs₂, history (.session label) o = []) ∧
        history (.session label) acts' = [.update x (f.update i.2) j.2] := by
  simp only [List.length_append, List.length_cons] at hfuel
  have hmem : ∀ k ∈ mid ++ j :: post, k ∈ pre ++ i :: (mid ++ j :: post) := fun k hk ↦ by
    simp only [List.mem_append, List.mem_cons] at hk ⊢
    tauto
  have htime : ∀ k ∈ mid, k.2.tvSec < i.2.tvSec + timeout := fun k hk ↦ by
    have hsuffix := (List.pairwise_append.mp hmono).2.1
    rw [List.pairwise_cons, List.pairwise_append] at hsuffix
    exact (hsuffix.2.2.2 k hk j (List.mem_cons_self ..)).trans_lt hgap
  -- the run, piece by piece
  obtain ⟨s₁, outs₁, T₁, hrun₁, h₁, -, hlen₁, hcalls₁, hw₁⟩ :=
    watch_init al output (fun k hk ↦ haddr k (List.mem_append_left _ hk)) (show _ ≤ fuel by omega)
  obtain ⟨s₂, acts, T₂, hrun₂, h₂, hout₂, hlen₂, -, hw₂⟩ :=
    recv_watches h₁ al (haddr i (by simp)) (show T₁.held.length < fuel by omega)
  obtain ⟨s₃, outs₂, T₃, hrun₃, h₃, hout₃, hlen₃, hcalls₃, hw₃⟩ :=
    watch_run h₂ al (fun k hk ↦ haddr k (hmem k (List.mem_append_left _ hk)))
      (show _ ≤ fuel by omega)
  obtain ⟨s₄, acts', T₄, hrun₄, h₄, -, hlen₄, -, hw₄⟩ :=
    recv_watches h₃ al (haddr j (by simp)) (show T₃.held.length < fuel by omega)
  obtain ⟨s₅, outs₃, -, hrun₅, -⟩ :=
    watch_run h₄ al (fun k hk ↦ haddr k (hmem k (by simp [hk])))
      (show T₄.held.length + post.length ≤ fuel by omega)
  -- what the session sees of it
  obtain ⟨w₁, -, hw₁⟩ := hw₁ (.session label) H fun k hk ↦ hhash k (List.mem_append_left _ hk)
  obtain ⟨w₂, hstep, hw₂⟩ := hw₂ _ H w₁ hw₁ (hhash i (by simp))
  obtain ⟨w₃, hruns, hw₃⟩ := hw₃ _ H w₂ hw₂ fun k hk ↦ hhash k (hmem k (List.mem_append_left _ hk))
  obtain ⟨w₄, hstep', -⟩ := hw₄ _ H w₃ hw₃ (hhash j (by simp))
  rw [hout₂] at hruns
  rw [hout₃, hout₂] at hstep'
  obtain ⟨due, x, f, hacts, hnil, hacts'⟩ :=
    Watch.continuous hstep hruns hstep' hi hj hmid htime hgap
  refine ⟨s₅, outs₁, acts, outs₂, acts', outs₃, ?_, hcalls₁.length_eq.symm,
    hcalls₃.length_eq.symm, due, x, f, hacts, ?_, hacts'⟩
  · exact Machine.run_append hrun₁ (Machine.run_cons hrun₂
      (Machine.run_append hrun₃ (Machine.run_cons hrun₄ hrun₅)))
  · exact fun o ho ↦ hnil _ (List.mem_map_of_mem ho)

/-- The slot of the flow comes due between its packets. -/
theorem no_premature_split_sample :
    ∃ s outs₁ acts outs₂ acts' outs₃,
      Machine.run (recv .above 20) (init true)
        ([(DnsDB.init, samplePacket [1] 10)] ++ (DnsDB.init, samplePacket [1] 300) ::
          ([(DnsDB.init, samplePacket [2] 311), (DnsDB.init, samplePacket [2] 599)] ++
            (DnsDB.init, samplePacket [1] 599) :: [])) =
        some (s, outs₁ ++ acts :: (outs₂ ++ acts' :: outs₃)) ∧
      outs₁.length = 1 ∧ outs₂.length = 2 ∧
      ∃ due x f, history (.session [1]) acts = due ++ [.update x f (samplePacket [1] 300)] ∧
        (∀ o ∈ outs₂, history (.session [1]) o = []) ∧
        history (.session [1]) acts' =
          [.update x (f.update (samplePacket [1] 300)) (samplePacket [1] 599)] :=
  no_premature_split .above List.length true 20 [1] _ _ _ _ _ (by decide) (by decide) (by decide)
    rfl rfl (by decide) (by decide) (by decide)

end DnsHive
