import DnsHive.Flow.Accounting

/-!
# Every report of a new flow is followed by the report of its end

A flow is known by its address, until the address is given to another flow.  `Closed` says of what a
handler has done that each flow it reported as new has one report of its end, and no more.  It holds
at the end of the handler, and at no earlier time after the first packet.
-/

set_option autoImplicit false

namespace DnsHive

open Swarm FlowHandler

/-- The report of a new flow at `x`. -/
def Action.opens (x : Ptr) : Action → Bool
  | newFlow y _ => y = x
  | _ => false

/-- The report of the end of a flow at `x`. -/
def Action.closes (x : Ptr) : Action → Bool
  | expireFlow y _ => y = x
  | _ => false

/-- The actions up to the next new flow at `x`. -/
def untilOpened (x : Ptr) (acts : List Action) : List Action := acts.takeWhile fun a ↦ !a.opens x

/-- The two differ in the time of the last packet and in the counters only. -/
def Flow.Same (f g : Flow) : Prop :=
  g = { f with lastTs := g.lastTs, cPkt := g.cPkt, cSize := g.cSize, sPkt := g.sPkt,
               sSize := g.sSize }

/-- Every report of a new flow is followed by exactly one report of the end of this flow. -/
def Closed (trace : List Action) : Prop :=
  ∀ pre x f post, trace = pre ++ .newFlow x f :: post →
    ∃ g, (untilOpened x post).filter (Action.closes x) = [.expireFlow x g] ∧ f.Same g

theorem closed_nil : Closed [] := by
  intro pre x f post h
  simp at h

/-- Only the actions about the flow at `x` matter. -/
theorem closes_untilOpened (x : Ptr) (acts : List Action) :
    (untilOpened x acts).filter (Action.closes x) =
      (untilOpened x (history (.object x) acts)).filter (Action.closes x) := by
  have hopens : ∀ a : Action,
      (!(a.subject.any fun s ↦ (Selector.object x).sees s.1 s.2) || !a.opens x) = !a.opens x := by
    intro a
    cases a <;> simp [Action.subject, Action.opens, Selector.sees]
  have hcloses : ∀ a : Action, a.closes x →
      (a.subject.any fun s ↦ (Selector.object x).sees s.1 s.2) := by
    intro a ha
    cases a <;> simp [Action.closes] at ha
    simpa [Action.subject, Selector.sees] using ha
  rw [history, untilOpened, untilOpened, List.takeWhile_filter, List.filter_filter]
  simp only [hopens]
  refine List.filter_congr fun a _ ↦ ?_
  by_cases ha : a.closes x
  · simp [ha, hcloses a ha]
  · simp [ha]

theorem updateActions_opens (x y : Ptr) (f : Flow) (is : List (DnsDB × Property)) :
    ∀ a ∈ updateActions x f is, a.opens y = false ∧ a.closes y = false := by
  induction is generalizing f with
  | nil => simp [updateActions]
  | cons i is ih => exact List.forall_mem_cons.mpr ⟨⟨rfl, rfl⟩, ih _⟩

namespace Block

/-- What comes after the report of the new flow. -/
def sequel (b : Block) : List Action :=
  updateActions (.node b.node) b.opened b.inputs ++ closing true (.node b.node) b.total

theorem story_eq (b : Block) : b.story = .newFlow (.node b.node) b.opened :: b.sequel := rfl

theorem sequel_opens (b : Block) (x : Ptr) : ∀ a ∈ b.sequel, a.opens x = false := by
  intro a ha
  rcases List.mem_append.mp ha with ha | ha
  · exact (updateActions_opens _ _ _ _ a ha).1
  · simp only [closing, report, if_true, List.cons_append, List.nil_append, List.mem_cons,
      List.not_mem_nil, or_false] at ha
    rcases ha with rfl | rfl <;> rfl

theorem sequel_closes (b : Block) :
    b.sequel.filter (Action.closes (.node b.node)) = [.expireFlow (.node b.node) b.total] := by
  have hnil : (updateActions (.node b.node) b.opened b.inputs).filter
      (Action.closes (.node b.node)) = [] :=
    List.filter_eq_nil_iff.mpr fun a ha ↦ by simp [(updateActions_opens _ _ _ _ a ha).2]
  rw [sequel, List.filter_append, hnil]
  simp [closing, report, Action.closes]

theorem same (b : Block) : b.opened.Same b.total := by
  rw [Flow.Same, b.total_eq]

/-- A report of a new flow in the stories of blocks begins one of them. -/
theorem stories_split {x : Ptr} {f : Flow} (blocks : List Block) {pre post : List Action}
    (h : blocks.flatMap story = pre ++ .newFlow x f :: post) :
    ∃ b bs, b ∈ blocks ∧ bs ⊆ blocks ∧ x = .node b.node ∧ f = b.opened ∧
      post = b.sequel ++ bs.flatMap story := by
  induction blocks generalizing pre with
  | nil => simp at h
  | cons b bs ih =>
    -- the report is the first one of `b`, or among the other blocks
    have hrest : ∀ pre', bs.flatMap story = pre' ++ .newFlow x f :: post →
        ∃ b' bs', b' ∈ b :: bs ∧ bs' ⊆ b :: bs ∧ x = .node b'.node ∧ f = b'.opened ∧
          post = b'.sequel ++ bs'.flatMap story := by
      intro pre' hpre
      obtain ⟨b', bs', hb', hbs', hx, hf, hpost⟩ := ih hpre
      exact ⟨b', bs', List.mem_cons_of_mem _ hb', List.subset_cons_of_subset _ hbs', hx, hf, hpost⟩
    rw [List.flatMap_cons, story_eq, List.cons_append] at h
    cases pre with
    | nil =>
      obtain ⟨hhead, rfl⟩ := List.cons.inj h
      obtain ⟨rfl, rfl⟩ := Action.newFlow.inj hhead
      exact ⟨b, bs, List.mem_cons_self .., List.subset_cons_self .., rfl, rfl, rfl⟩
    | cons a pre =>
      obtain ⟨-, htail⟩ := List.cons.inj h
      rcases List.append_eq_append_iff.mp htail with ⟨c, hc, hbs⟩ | ⟨c, hc, hbs⟩
      · exact hrest c hbs
      · cases c with
        | nil => exact hrest [] hbs.symm
        | cons a' c =>
          obtain ⟨rfl, -⟩ := List.cons.inj hbs
          have hopens := b.sequel_opens x (.newFlow x f) (hc ▸ by simp)
          simp [Action.opens] at hopens

/-- The stories of flows at `x` begin with the report of a new flow there. -/
theorem untilOpened_stories {x : Ptr} (blocks : List Block) (h : ∀ b ∈ blocks, .node b.node = x) :
    untilOpened x (blocks.flatMap story) = [] := by
  cases blocks with
  | nil => rfl
  | cons b bs =>
    rw [List.flatMap_cons, story_eq, List.cons_append, untilOpened, List.takeWhile_cons_of_neg]
    simp [Action.opens, h b]

end Block

/-! ## The end of the handler -/

variable {output : Bool} {now : Int} {clock : Nat} {σ σ' : Option Session} {o : List Action}
  {db : DnsDB} {p : Property} {c : Selector} {ins : List (DnsDB × Property)} {x : Ptr}

/-- A report of a new flow that is followed. -/
theorem history_newFlow (pre post : List Action) (f : Flow) :
    history (.object x) (pre ++ .newFlow x f :: post) =
      history (.object x) pre ++ .newFlow x f :: history (.object x) post := by
  rw [history_append]
  congr 1
  exact List.filter_cons_of_pos (by simp [Action.subject, Selector.sees])

/-- In the chronicle of an object all blocks are there. -/
theorem Chronicle.node {trace : List Action} {blocks : List Block}
    (h : Chronicle (.object x) ins trace blocks) : ∀ b ∈ blocks, .node b.node = x := by
  intro b hb
  have hmem : .newFlow (.node b.node) b.opened ∈ history (.object x) trace := by
    rw [h.trace]
    exact List.mem_flatMap.mpr ⟨b, hb, List.mem_cons_self ..⟩
  simpa [Action.subject, Selector.sees] using (List.mem_filter.mp hmem).2

theorem closed_of_chronicles (ins : List (DnsDB × Property)) {trace : List Action}
    (h : ∀ x, ∃ blocks, Chronicle (.object x) ins trace blocks) : Closed trace := by
  intro pre x f post htrace
  obtain ⟨blocks, hblocks⟩ := h x
  have hsplit := hblocks.trace
  rw [htrace, history_newFlow] at hsplit
  obtain ⟨b, bs, hb, hbs, hx, rfl, hpost⟩ := Block.stories_split blocks hsplit.symm
  refine ⟨b.total, ?_, b.same⟩
  have hnil : untilOpened x (bs.flatMap Block.story) = [] :=
    Block.untilOpened_stories bs fun b' hb' ↦ hblocks.node b' (hbs hb')
  rw [closes_untilOpened, hpost, untilOpened, List.takeWhile_append_of_pos, ← untilOpened, hnil,
    List.append_nil, hx, b.sequel_closes]
  intro a ha
  simp [b.sequel_opens x a ha]

/-- **At its end every flow that was reported has been closed.** -/
theorem closed_of_life (al : Allocator) {fuel : Nat} (haddr : ∀ i ∈ ins, i.2.HasAddrs)
    (hfuel : ins.length < fuel) :
    ∃ s outs s' acts, Machine.run (recv al fuel) (init true) ins = some (s, outs) ∧
      destroy fuel s = some (s', acts) ∧ Closed (outs.flatten ++ acts) := by
  obtain ⟨s, outs, s', acts, hrun, hdestroy, -, hlife⟩ := life al haddr hfuel
  refine ⟨s, outs, s', acts, hrun, hdestroy, closed_of_chronicles ins fun x ↦ ?_⟩
  exact hlife (.object x) (fun _ ↦ 0) fun _ _ ↦ trivial

/-! ## No earlier -/

theorem Aged.isUpdate (h : Aged output now clock σ o σ') : ∀ a ∈ o, a.isUpdate = false := by
  cases h with
  | closed => cases output <;> simp [closing, report, Action.isUpdate]
  | _ => simp

/-- After an update there is an open flow. -/
theorem Touched.isSome (h : Touched c output clock db p σ o σ') {a : Action} (ha : a ∈ o) :
    σ'.isSome := by
  cases h with
  | other => simp at ha
  | joined => rfl
  | opened => rfl

theorem Watch.Step.isSome {w w' : Watch} {i : DnsDB × Property} (h : w.Step c output i o w')
    {x : Ptr} {f : Flow} {p : Property} (ha : .update x f p ∈ o) : w'.session.isSome := by
  obtain ⟨-, -, σ, o₁, o₂, haged, htouched, rfl⟩ := h
  rcases List.mem_append.mp ha with ha | ha
  · simpa [Action.isUpdate] using haged.isUpdate _ ha
  · exact htouched.isSome ha

/-- A block that has not come to its end has no report of it. -/
theorem not_closed_of_open {acts : List Action} {x : Ptr} {closed : List Block} {b : Block}
    (hacts : history (.object x) acts = closed.flatMap Block.story ++
      .newFlow (.node b.node) b.opened :: updateActions (.node b.node) b.opened b.inputs) :
    ¬ Closed acts := by
  intro hclosed
  obtain ⟨pre, rest, htrace, -, hrest⟩ := List.filter_eq_append_iff.mp hacts
  obtain ⟨skip, post, rfl, -, hsees, hpost⟩ := List.filter_eq_cons_iff.mp hrest
  have hx : .node b.node = x := by simpa [Action.subject, Selector.sees] using hsees
  obtain ⟨g, hg, -⟩ :=
    hclosed (pre ++ skip) (.node b.node) b.opened post (by rw [htrace, List.append_assoc])
  have hnone : (untilOpened (.node b.node) (history (.object (.node b.node)) post)).filter
      (Action.closes (.node b.node)) = [] := by
    rw [hx, history, hpost]
    refine List.filter_eq_nil_iff.mpr fun a ha ↦ ?_
    simp [(updateActions_opens _ x _ _ a ((List.takeWhile_sublist _).subset ha)).2]
  rw [closes_untilOpened, hnone] at hg
  simp at hg

/-- While the handler lives there is a flow that has not been closed. -/
theorem not_closed_of_run (al : Allocator) {fuel : Nat} (haddr : ∀ i ∈ ins, i.2.HasAddrs)
    (hfuel : ins.length ≤ fuel) (hne : ins ≠ []) :
    ∃ s outs, Machine.run (recv al fuel) (init true) ins = some (s, outs) ∧
      ¬ Closed outs.flatten := by
  obtain ⟨is, i, rfl⟩ := (List.eq_nil_or_concat ins).resolve_left hne
  simp only [List.concat_eq_append, List.length_append, List.length_singleton] at *
  obtain ⟨s₁, outs, T, hrun, h, hout, hlen, -, hw⟩ :=
    watch_init al true (fun j hj ↦ haddr j (List.mem_append_left _ hj)) (show _ ≤ fuel by omega)
  obtain ⟨s₂, acts, T', hrecv, -, -, -, hcall, hw'⟩ :=
    recv_watches h al (haddr i (by simp)) (show T.held.length < fuel by omega)
  refine ⟨s₂, outs ++ [acts], Machine.run_concat hrun hrecv, ?_⟩
  -- the flow that the last packet has updated is open
  obtain ⟨x, f, hupdate⟩ := hcall.updated
  obtain ⟨w, hruns, hwc⟩ := hw (.object x) (fun _ ↦ 0) fun _ _ ↦ trivial
  obtain ⟨w', hstep, -⟩ := hw' _ _ w hwc trivial
  rw [hout] at hstep
  have hmem : .update x f i.2 ∈ history (.object x) acts :=
    mem_history_object (List.mem_of_mem_filter (hupdate ▸ List.mem_singleton_self _)) rfl
  obtain ⟨S, hS⟩ := Option.isSome_iff_exists.mp (hstep.isSome hmem)
  -- so its block has no report of the end
  obtain ⟨closed, cur, hbooks, -⟩ := Books.of_runs (hruns.snoc hstep)
  rw [hS] at hbooks
  obtain ⟨b, rfl, -, -⟩ := hbooks.open_block
  have hacts : history (.object x) (outs ++ [acts]).flatten = closed.flatMap Block.story ++
      .newFlow (.node b.node) b.opened :: updateActions (.node b.node) b.opened b.inputs := by
    rw [history_flatten, List.map_append, List.map_singleton, hbooks.acts]
    rfl
  exact not_closed_of_open hacts

end DnsHive
