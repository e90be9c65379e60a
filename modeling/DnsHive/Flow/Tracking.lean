import DnsHive.Flow.Session

/-!
# The handler is the machine of each session

The handler keeps all flows in one table.  A packet moves the clock of this table, which may take
flows of any sessions out of it, and puts back or closes each of them; then the packet joins a flow
or opens one.  A property of a single session has to be found again in all of this at every step.
Here this is done once, for every property: the run of the handler, seen from one session, is a run
of the small machine of `DnsHive.Flow.Session` (`watch_run`).

## The view

`View c T σ` is what relates the two.  It says that of the flows that the selector `c` follows, the
table `T` holds the one of `σ`, with its deadline, and no other.  It is an equivalence for every
possible flow, and both directions are needed: that the flow of `σ` is there is what makes the
packet join it, and that there is no other is what keeps the history of the session free of actions
about flows that the machine does not know of.

A step of the machine has two halves, and so has that of the handler.

* *Ageing.*  `View.age`: the clock goes on and everything that is due is examined.  If no flow is
  followed there is none afterwards, since ageing brings no flow (`age_none`); if the flow is not
  due it stays as it is (`age_held`); and if it is due, then the only actions of the examination
  that belong to its history are its own (`age_expired`), since all others are unseen (`unseen`).
  That the flow was due is the deadline of the timed table, which needs the clock to be below its
  wrap (`Sound.expired_due`); above it the machine allows both.
* *Accepting.*  `View.accepts`: the packet joins the flow that is found or opens one, followed
  (`new`, `opened`) or not (`new_other`, `opened_other`).

## What is assumed of the hash

The table finds a flow by its hash and its label.  A selector of a session follows a label, and that
there is never a second flow of this label rests on the hash being a function of it
(`Selector.Hashed`): if the packet finds no flow then there is none (`View.eq_none`).  The flows in
the table have to be of this kind, too, and stay so (`Selector.HashedIn`).  A selector of an object
follows an address; a new flow is never at the address of a live one, and nothing is assumed.

## The run

`Watches` says that a machine stands where the handler does, and `recv_watches` that one call of
`recv` does not fault and is a step for every machine that watches, whatever it follows.  The
statement is about all selectors at once because the call has one outcome, and a result about two
sessions, or about all flows of the heap, needs the same outcome for both.  `Watched` collects what
is known after some calls, `Watched.call` adds one, and the induction is `Machine.run_history`.

`watch_init` and `watch_life` are the forms that are used later: a run from the construction of the
handler, and one up to its destruction, where the flow that is still open is closed.  What else is
needed of each call, for those who count actions, is in `CallOk`.
-/

set_option autoImplicit false

namespace DnsHive

open Swarm FlowHandler

variable {c : Selector} {output : Bool} {m : Nat} {s : FlowHandler} {T : Table Flow}
  {σ : Option Session} {keep : Flow → Bool}

/-- The table holds this flow. -/
def Session.In (S : Session) (T : Table Flow) : Prop :=
  ⟨S.node, S.deadline⟩ ∈ T.held ∧ T.obj S.node = some S.flow

/-- `σ` is the only flow that `c` follows in the table. -/
def View (c : Selector) (T : Table Flow) (σ : Option Session) : Prop :=
  ∀ S : Session, σ = some S ↔ S.In T ∧ c.sees (.node S.node) S.flow.key

/-- The flow `f` at `x` can be found in the table. -/
def LRUHash.Holds (t : LRUHash Flow) (x : Ptr) (f : Flow) : Prop :=
  (∃ i < t.bucketSize, t.InBucket i x) ∧ t.heap.obj x = some f

theorem Refines.holds {t : LRUHash Flow} (r : Refines slots m t T) {x : Ptr} {f : Flow}
    (hx : t.Holds x f) : ∃ y, x = .node y ∧ y ∈ T.nodes ∧ T.obj y = some f := by
  obtain ⟨⟨i, hi, hin⟩, hobj⟩ := hx
  rw [r.bucketSize] at hi
  rw [LRUHash.InBucket, (r.rep.bucket i hi).singly.transGen_iff] at hin
  obtain ⟨y, hy, rfl⟩ := List.mem_map.mp hin
  exact ⟨y, rfl, (Table.mem_chain.mp hy).1, (r.rep.obj y).symm.trans hobj⟩

/-! ## Ageing -/

theorem Session.in_settle (hnd : (T.nodes ++ T.expired).Nodup) {S : Session} :
    S.In (T.settle keep) ↔ T.obj S.node = some S.flow ∧
      ((S.node ∈ T.expired ∧ keep S.flow ∧ S.deadline = T.clock + timeout) ∨
        ⟨S.node, S.deadline⟩ ∈ T.held) := by
  have hheld : ⟨S.node, S.deadline⟩ ∈ (T.settle keep).held ↔
      (S.node ∈ T.expired ∧ T.kept keep S.node ∧ S.deadline = T.clock + timeout) ∨
        ⟨S.node, S.deadline⟩ ∈ T.held := by
    refine List.mem_append.trans (or_congr_left ?_)
    rw [List.mem_reverse, List.mem_map]
    constructor
    · rintro ⟨x, hx, he⟩
      obtain ⟨rfl, hd⟩ := Entry.mk.inj he
      exact ⟨(List.mem_filter.mp hx).1, (List.mem_filter.mp hx).2, hd.symm⟩
    · rintro ⟨hx, hk, hd⟩
      exact ⟨S.node, List.mem_filter.mpr ⟨hx, hk⟩, by rw [hd]⟩
  have hobj : ∀ e ∈ (T.settle keep).held, (T.settle keep).obj e.node = T.obj e.node := fun e he ↦
    Table.settle_obj hnd (List.mem_map_of_mem he)
  constructor
  · rintro ⟨hS, hf⟩
    rw [hobj _ hS] at hf
    rw [hheld, Table.kept, hf] at hS
    exact ⟨hf, hS⟩
  · rintro ⟨hf, hS⟩
    have hS' : ⟨S.node, S.deadline⟩ ∈ (T.settle keep).held := by
      rw [hheld, Table.kept, hf]
      exact hS
    exact ⟨hS', (hobj _ hS').trans hf⟩

/-- Below the wrap of the clock, a flow that has expired was due. -/
theorem Sound.expired_due (h : Sound m s T) {k : Nat}
    (hwrap : T.clock + k + slots ≤ 2 ^ 64) {e : Entry}
    (hx : e.node ∈ (T.advance slots k).expired) (he : e ∈ T.held) : e.deadline < T.clock + k := by
  rw [Table.advance_eq_prog h.window k hwrap, Table.prog, h.settled, List.append_nil] at hx
  obtain ⟨e', he', heq⟩ := List.mem_map.mp hx
  rw [Table.batch, StableSort.mem_descending, List.mem_reverse, List.mem_filter,
    decide_eq_true_eq] at he'
  rw [← List.inj_on_of_nodup_map (List.nodup_append.mp h.nodup).1 he'.1 he heq]
  exact he'.2

namespace View

theorem eq_of_node (v : View c T σ) {x : Addr} {f : Flow} (hx : x ∈ T.nodes)
    (hobj : T.obj x = some f) (hc : c.sees (.node x) f.key) : ∃ d, σ = some ⟨x, f, d⟩ := by
  obtain ⟨e, he, rfl⟩ := List.mem_map.mp hx
  exact ⟨e.deadline, (v ⟨e.node, f, e.deadline⟩).mpr ⟨⟨he, hobj⟩, hc⟩⟩

/-- A flow of the table other than the one of `σ` is not followed. -/
theorem unseen (v : View c T σ) (h : Sound m s T) {y : Addr} (hy : y ∈ T.nodes)
    (hne : ∀ S, σ = some S → y ≠ S.node) :
    ∃ g, T.obj y = some g ∧ c.sees (.node y) g.key = false := by
  obtain ⟨g, hg, -⟩ := h.dated y hy
  refine ⟨g, hg, Bool.eq_false_iff.mpr fun hc ↦ ?_⟩
  obtain ⟨d, hd⟩ := v.eq_of_node hy hg hc
  exact hne _ hd rfl

theorem unseen_expired (v : View c T σ) (h : Sound m s T) {k : Nat} {y : Addr}
    (hy : y ∈ (T.advance slots k).expired) (hne : ∀ S, σ = some S → y ≠ S.node) :
    ∃ g, (T.advance slots k).obj y = some g ∧ c.sees (.node y) g.key = false := by
  rw [Table.advance_obj]
  exact v.unseen h (h.mem_advance.mp (List.mem_append_right _ hy)) hne

/-- What settling puts or leaves in the table was there before. -/
theorem of_age (v : View c T σ) (h : Sound m s T) {now : Int} {k : Nat} {S : Session}
    (hS : S.In (T.age now k)) (hc : c.sees (.node S.node) S.flow.key) :
    ∃ d, σ = some ⟨S.node, S.flow, d⟩ := by
  have hmem := Table.settle_nodes_subset (List.mem_map_of_mem (f := Entry.node) hS.1)
  rw [Table.age, Session.in_settle (Table.advance_nodup h.nodup), Table.advance_obj] at hS
  exact v.eq_of_node (h.mem_advance.mp hmem) hS.1 hc

/-- If no flow is followed, ageing does not bring one. -/
theorem age_none (v : View c T none) (output : Bool) (h : Sound m s T) (now : Int) (k : Nat) :
    history c (T.ageActions output now k) = [] ∧ View c (T.age now k) none := by
  refine ⟨history_settle_none fun y hy ↦ v.unseen_expired h hy (by simp), fun S ↦ ⟨by simp, ?_⟩⟩
  rintro ⟨hS, hc⟩
  obtain ⟨d, hd⟩ := v.of_age h hS hc
  simp at hd

/-- A flow that does not come due stays as it is. -/
theorem age_held {S : Session} (v : View c T (some S)) (output : Bool) (h : Sound m s T) (now : Int)
    {k : Nat} (hn : S.node ∈ (T.advance slots k).nodes) :
    T.clock + k ≤ S.deadline ∧ history c (T.ageActions output now k) = [] ∧
      View c (T.age now k) (some S) := by
  have hnd := Table.advance_nodup (n := slots) (k := k) h.nodup
  have hsub := Table.advance_held_subset (n := slots) (T := T) k
  obtain ⟨⟨hSheld, hSobj⟩, hSc⟩ := (v S).mp rfl
  have hne : S.node ∉ (T.advance slots k).expired := fun he ↦
    (List.nodup_append.mp hnd).2.2 _ hn _ he rfl
  have hheld : ⟨S.node, S.deadline⟩ ∈ (T.advance slots k).held := by
    obtain ⟨e, he, heq⟩ := List.mem_map.mp hn
    rwa [List.inj_on_of_nodup_map (List.nodup_append.mp h.nodup).1 (hsub he) hSheld heq] at he
  refine ⟨?_, ?_, fun S' ↦ ⟨?_, ?_⟩⟩
  · show T.clock + k ≤ (⟨S.node, S.deadline⟩ : Entry).deadline
    rw [← Refines.advance_clock (n := slots) k T]
    exact (h.window.advance k _ hheld).1
  · refine history_settle_none fun y hy ↦ v.unseen_expired h hy fun S' hS' ↦ ?_
    rw [← Option.some.inj hS']
    exact fun e ↦ hne (e ▸ hy)
  · rintro ⟨⟩
    rw [Table.age, Session.in_settle hnd, Table.advance_obj]
    exact ⟨⟨hSobj, .inr hheld⟩, hSc⟩
  · rintro ⟨hS', hc'⟩
    obtain ⟨d, hd⟩ := v.of_age h hS' hc'
    have hnode : S'.node = S.node := by rw [Option.some.inj hd]
    rw [Table.age, Session.in_settle hnd, Table.advance_obj] at hS'
    rcases hS'.2 with hS'' | hS''
    · exact absurd (hnode ▸ hS''.1) hne
    · exact (v S').mpr ⟨⟨hsub hS'', hS'.1⟩, hc'⟩

/-- A flow that comes due is put back if it is active, and closed if it is not. -/
theorem age_expired {S : Session} (v : View c T (some S)) (output : Bool) (h : Sound m s T)
    (now : Int) {k : Nat} (he : S.node ∈ (T.advance slots k).expired) :
    history c (T.ageActions output now k) =
        (if activeAt now S.flow then [] else closing output (.node S.node) S.flow) ∧
      View c (T.age now k)
        (if activeAt now S.flow then some { S with deadline := T.clock + k + timeout }
         else none) := by
  have hnd := Table.advance_nodup (n := slots) (k := k) h.nodup
  have hclock : (T.advance slots k).clock = T.clock + k := Refines.advance_clock k T
  obtain ⟨⟨hSheld, hSobj⟩, hSc⟩ := (v S).mp rfl
  have hSobj' : (T.advance slots k).obj S.node = some S.flow := by rwa [Table.advance_obj]
  have hnn : S.node ∉ (T.advance slots k).nodes := fun hn ↦
    (List.nodup_append.mp hnd).2.2 _ hn _ he rfl
  constructor
  · show history c ((T.advance slots k).settleActions output (activeAt now)) = _
    rw [history_settle_one (List.nodup_append.mp hnd).2.1 he hSobj' hSc, Table.verdict, hSobj']
    refine fun y hy hne ↦ v.unseen_expired h hy fun S' hS' ↦ ?_
    rw [← Option.some.inj hS']
    exact hne
  · intro S'
    constructor
    · intro hS'
      split at hS'
      next hact =>
        obtain rfl := Option.some.inj hS'
        rw [Table.age, Session.in_settle hnd, hclock]
        exact ⟨⟨hSobj', .inl ⟨he, hact, rfl⟩⟩, hSc⟩
      next => simp at hS'
    · rintro ⟨hS', hc'⟩
      obtain ⟨d, hd⟩ := v.of_age h hS' hc'
      have hnode : S'.node = S.node := by rw [Option.some.inj hd]
      have hflow : S'.flow = S.flow := by rw [Option.some.inj hd]
      rw [Table.age, Session.in_settle hnd, hclock] at hS'
      rcases hS'.2 with ⟨-, hact, hdeadline⟩ | hS''
      · rw [hflow] at hact
        rw [if_pos hact, ← hnode, ← hflow, ← hdeadline]
      · exact absurd (hnode ▸ List.mem_map_of_mem (f := Entry.node) hS'') hnn

/-- Ageing the table is a step of the machine. -/
theorem age (v : View c T σ) (output : Bool) (h : Sound m s T) (now : Int) (k : Nat) :
    ∃ σ', Aged output now (T.clock + k) σ (history c (T.ageActions output now k)) σ' ∧
      View c (T.age now k) σ' := by
  cases σ with
  | none =>
    obtain ⟨hnil, v'⟩ := v.age_none output h now k
    exact ⟨none, hnil ▸ .idle, v'⟩
  | some S =>
    have hSheld := ((v S).mp rfl).1.1
    have hmem : S.node ∈ (T.advance slots k).nodes ++ (T.advance slots k).expired :=
      h.mem_advance.mpr (List.mem_map_of_mem hSheld)
    rcases List.mem_append.mp hmem with hn | he
    · obtain ⟨hdue, hnil, v'⟩ := v.age_held output h now hn
      exact ⟨some S, hnil ▸ .stays hdue, v'⟩
    · obtain ⟨hone, v'⟩ := v.age_expired output h now he
      have hdue : T.clock + k + slots ≤ 2 ^ 64 → S.deadline < T.clock + k := fun hwrap ↦
        h.expired_due hwrap he hSheld
      by_cases hact : activeAt now S.flow
      · rw [if_pos hact] at hone v'
        exact ⟨_, hone ▸ .rearmed hdue hact, v'⟩
      · rw [if_neg hact] at hone v'
        exact ⟨none, hone ▸ .closed hdue hact, v'⟩

/-! ## Accepting a packet -/

/-- Updating a flow in place. -/
theorem new (v : View c T σ) {x : Addr} {f g : Flow} (hx : x ∈ T.nodes) (hobj : T.obj x = some f)
    (hkey : g.key = f.key) (hc : c.sees (.node x) f.key) :
    ∃ d, σ = some ⟨x, f, d⟩ ∧ View c (T.new x g) (some ⟨x, g, d⟩) := by
  obtain ⟨d, rfl⟩ := v.eq_of_node hx hobj hc
  obtain ⟨⟨hheld, -⟩, -⟩ := (v ⟨x, f, d⟩).mp rfl
  refine ⟨d, rfl, fun S ↦ ⟨?_, ?_⟩⟩
  · rintro ⟨⟩
    exact ⟨⟨hheld, Function.update_self ..⟩, hkey ▸ hc⟩
  · rintro ⟨⟨hS, hSobj⟩, hSc⟩
    by_cases hSx : S.node = x
    · have hg : S.flow = g := by simpa [Table.new, hSx, eq_comm] using hSobj
      rw [hg, hkey] at hSc
      have hold : some ⟨x, f, d⟩ = some (⟨S.node, f, S.deadline⟩ : Session) :=
        (v _).mpr ⟨⟨hS, hSx ▸ hobj⟩, hSc⟩
      rw [← hg, ← hSx, (Session.mk.inj (Option.some.inj hold)).2.2]
    · have hold := (v S).mpr ⟨⟨hS, (Function.update_of_ne hSx _ _).symm.trans hSobj⟩, hSc⟩
      exact absurd (congrArg Session.node (Option.some.inj hold)).symm hSx

/-- Updating a flow that is not followed. -/
theorem new_other (v : View c T σ) {x : Addr} {f g : Flow} (hobj : T.obj x = some f)
    (hkey : g.key = f.key) (hc : c.sees (.node x) f.key = false) : View c (T.new x g) σ := by
  intro S
  rw [v S]
  by_cases hSx : S.node = x
  · constructor
    · rintro ⟨⟨-, hSobj⟩, hSc⟩
      rw [hSx, hobj] at hSobj
      simp [hSx, ← Option.some.inj hSobj, hc] at hSc
    · rintro ⟨⟨-, hSobj⟩, hSc⟩
      have hg : S.flow = g := by simpa [Table.new, hSx, eq_comm] using hSobj
      simp [hSx, hg, hkey, hc] at hSc
  · have hsame : (T.new x g).obj S.node = T.obj S.node := Function.update_of_ne hSx _ _
    simp only [Session.In, hsame]
    rfl

/-- Opening a flow. -/
theorem opened (v : View c T none) {x : Addr} {f : Flow} (hx : x ∉ T.nodes)
    (hc : c.sees (.node x) f.key) :
    View c (T.opened x f) (some ⟨x, f, T.clock + timeout⟩) := by
  refine fun S ↦ ⟨?_, ?_⟩
  · rintro ⟨⟩
    exact ⟨⟨List.mem_cons_self .., Function.update_self ..⟩, hc⟩
  · rintro ⟨⟨hS, hSobj⟩, hSc⟩
    by_cases hSx : S.node = x
    · have hf : S.flow = f := by simpa [Table.opened, hSx, eq_comm] using hSobj
      rcases List.mem_cons.mp hS with he | he
      · rw [← hSx, ← hf, ← (Entry.mk.inj he).2]
      · exact absurd (List.mem_map_of_mem (f := Entry.node) he) (hSx ▸ hx)
    · have he := (List.mem_cons.mp hS).resolve_left fun e ↦ hSx (Entry.mk.inj e).1
      have hold := (v S).mpr ⟨⟨he, (Function.update_of_ne hSx _ _).symm.trans hSobj⟩, hSc⟩
      simp at hold

/-- Opening a flow that is not followed. -/
theorem opened_other (v : View c T σ) {x : Addr} {f : Flow} (hx : x ∉ T.nodes)
    (hc : c.sees (.node x) f.key = false) : View c (T.opened x f) σ := by
  intro S
  rw [v S]
  by_cases hSx : S.node = x
  · constructor
    · rintro ⟨⟨hS, -⟩, -⟩
      exact absurd (List.mem_map_of_mem (f := Entry.node) hS) (hSx ▸ hx)
    · rintro ⟨⟨-, hSobj⟩, hSc⟩
      have hf : S.flow = f := by simpa [Table.opened, hSx, eq_comm] using hSobj
      simp [hSx, hf, hc] at hSc
  · have hsame : (T.opened x f).obj S.node = T.obj S.node := Function.update_of_ne hSx _ _
    have hheld : ⟨S.node, S.deadline⟩ ∈ (T.opened x f).held ↔ ⟨S.node, S.deadline⟩ ∈ T.held := by
      simp [Table.opened, hSx]
    simp only [Session.In, hsame, hheld]

end View

/-! ## What the selector needs -/

/-- What a session needs of a packet: the hash is a function of the label. -/
def Selector.Hashed (H : Bytes → Nat) : Selector → Property → Prop
  | session _, p => p.hashValue = H p.ssnLabel
  | object _, _ => True

/-- What a session needs of the flows in the table: their hash, too, is a function of the label. -/
def Selector.HashedIn (H : Bytes → Nat) : Selector → Table Flow → Prop
  | session _, T => ∀ x ∈ T.nodes, ∀ f, T.obj x = some f → f.hash = H f.key
  | object _, _ => True

/-- If the packet finds no flow, none that is followed is in its way. -/
theorem View.eq_none (v : View c T σ) {H : Bytes → Nat} (hT : c.HashedIn H T) {p : Property}
    (hp : c.Hashed H p) (hget : T.get p.hashValue p.ssnLabel = none) {x : Addr}
    (hx : T.obj x = none) (hc : c.sees (.node x) p.ssnLabel) : σ = none := by
  cases σ with
  | none => rfl
  | some S =>
    obtain ⟨⟨hheld, hobj⟩, hS⟩ := (v S).mp rfl
    cases c with
    | object y =>
      simp only [Selector.sees, decide_eq_true_eq] at hc hS
      rw [← hc, Ptr.node.injEq] at hS
      simp [← hS, hobj] at hx
    | session label =>
      simp only [Selector.sees, decide_eq_true_eq] at hc hS
      have hnode : S.node ∈ T.nodes := List.mem_map_of_mem hheld
      have hhash : S.flow.hash = H S.flow.key := hT _ hnode _ hobj
      have hval : p.hashValue = H p.ssnLabel := hp
      have hmiss := List.find?_eq_none.mp hget S.node hnode
      refine absurd ?_ hmiss
      simp [Table.hits, Table.hashOf, hobj, NodeClass.hash, NodeClass.isMatch, hhash, hval, hS, hc]

/-- Accepting a packet is a step of the machine. -/
theorem View.accepts (v : View c T σ) (howned : ∀ x ∈ T.nodes, (T.obj x).isSome)
    {H : Bytes → Nat} (hT : c.HashedIn H T) {db : DnsDB} {p : Property} (hp : c.Hashed H p)
    {src dst : Bytes} (hhosts : hosts db p = some (src, dst)) {acts : List Action}
    {T' : Table Flow} (hacc : Accepts output p src dst T acts T') :
    ∃ σ', Touched c output T.clock db p σ (history c acts) σ' ∧ View c T' σ' := by
  cases hacc with
  | @joined x f hget hobj =>
    obtain ⟨hx, g, hg, -, hkey⟩ := Table.obj_of_get hget
    obtain rfl : g = f := Option.some.inj (hg.symm.trans hobj)
    have hhist : history c [.update (.node x) g p] =
        if c.sees (.node x) g.key then [.update (.node x) g p] else [] :=
      history_of_sees (by simp [Action.subject])
    by_cases hc : c.sees (.node x) g.key
    · obtain ⟨d, rfl, v'⟩ := v.new hx hobj (g.update_key p) hc
      rw [hhist, if_pos hc]
      exact ⟨_, .joined (S := ⟨x, g, d⟩) (hkey ▸ hc) hkey, v'⟩
    · rw [hhist, if_neg hc]
      exact ⟨σ, .other (x := x) (by simpa [hkey] using hc),
        v.new_other hobj (g.update_key p) (by simpa using hc)⟩
  | @opened x hget hobj =>
    have hx : x ∉ T.nodes := fun hx ↦ by
      have hsome := howned x hx
      simp [hobj] at hsome
    have hsubject : ∀ a ∈ report output (.newFlow (.node x) (.new p src dst)) ++
        [.update (.node x) (.new p src dst) p], a.subject = some (.node x, p.ssnLabel) := by
      intro a ha
      rcases List.mem_append.mp ha with ha | ha
      · exact report_subject (a := .newFlow (.node x) (.new p src dst)) rfl a ha
      · rw [List.mem_singleton.mp ha]
        rfl
    have hhist := history_of_sees (c := c) hsubject
    by_cases hc : c.sees (.node x) p.ssnLabel
    · obtain rfl := v.eq_none hT hp hget hobj hc
      rw [hhist, if_pos hc]
      exact ⟨_, .opened hc hhosts, v.opened hx (by rwa [Flow.update_key])⟩
    · rw [hhist, if_neg hc]
      exact ⟨σ, .other (x := x) (by simpa using hc),
        v.opened_other hx (by rw [Flow.update_key]; exact Bool.eq_false_iff.mpr hc)⟩

theorem Selector.HashedIn.age {H : Bytes → Nat} (hT : c.HashedIn H T) (h : Sound m s T) (now : Int)
    (k : Nat) : c.HashedIn H (T.age now k) := by
  cases c with
  | object y => trivial
  | session label =>
    intro x hx f hf
    have hmem := h.mem_advance.mp (Table.settle_nodes_subset hx)
    rw [Table.age, Table.settle_obj (Table.advance_nodup h.nodup) hx, Table.advance_obj] at hf
    exact hT x hmem f hf

theorem Selector.HashedIn.accepts {H : Bytes → Nat} (hT : c.HashedIn H T) {p : Property}
    (hp : c.Hashed H p) {src dst : Bytes} {acts : List Action} {T' : Table Flow}
    (hacc : Accepts output p src dst T acts T') : c.HashedIn H T' := by
  cases c with
  | object y => trivial
  | session label =>
    cases hacc with
    | @joined x f hget hobj =>
      obtain ⟨hx, -⟩ := Table.obj_of_get hget
      intro y hy g hg
      by_cases hyx : y = x
      · subst hyx
        obtain rfl : f.update p = g := by simpa [Table.new] using hg
        simpa using hT y hx f hobj
      · exact hT y hy g ((Function.update_of_ne hyx _ _).symm.trans hg)
    | @opened x hget hobj =>
      intro y hy g hg
      by_cases hyx : y = x
      · subst hyx
        obtain rfl : (Flow.new p src dst).update p = g := by simpa [Table.opened] using hg
        rw [Flow.update_hash, Flow.update_key]
        exact hp
      · have hyT : y ∈ T.nodes := (List.mem_cons.mp hy).resolve_left hyx
        exact hT y hyT g ((Function.update_of_ne hyx _ _).symm.trans hg)

/-! ## Runs -/

/-- The machine stands where the handler does, for the flows that `c` follows. -/
structure Watches (c : Selector) (H : Bytes → Nat) (s : FlowHandler) (T : Table Flow) (w : Watch) :
    Prop where
  view : View c T w.session
  lastTs : w.lastTs = s.lastTs
  clock : w.clock = T.clock
  hashed : c.HashedIn H T

theorem Watches.init (c : Selector) (H : Bytes → Nat) (output : Bool) :
    Watches c H (init output) Table.empty .init := by
  refine ⟨fun S ↦ ⟨by simp [Watch.init], ?_⟩, rfl, rfl, ?_⟩
  · rintro ⟨⟨hS, -⟩, -⟩
    simp [Table.empty] at hS
  · cases c with
    | object y => trivial
    | session label => intro x hx; simp [Table.empty, Table.nodes] at hx

theorem Sound.age_owned (h : Sound m s T) {now : Int} {k : Nat} :
    ∀ x ∈ (T.age now k).nodes, ((T.age now k).obj x).isSome := by
  intro x hx
  obtain ⟨f, hf, -⟩ := h.advance_dated (Table.settle_nodes_subset hx)
  rw [Table.age, Table.settle_obj (Table.advance_nodup h.nodup) hx, hf]
  rfl

theorem Table.age_clock (now : Int) (k : Nat) : (T.age now k).clock = T.clock + k :=
  Refines.advance_clock k T

theorem Accepts.clock {p : Property} {src dst : Bytes} {acts : List Action} {T' : Table Flow}
    (hacc : Accepts output p src dst T acts T') : T'.clock = T.clock := by
  cases hacc <;> rfl

theorem Accepts.held_length {p : Property} {src dst : Bytes} {acts : List Action}
    {T' : Table Flow} (hacc : Accepts output p src dst T acts T') :
    T'.held.length ≤ T.held.length + 1 := by
  cases hacc
  · exact Nat.le_succ _
  · exact le_rfl

theorem mem_settleActions {a : Action} (ha : a ∈ T.settleActions output keep) :
    ∃ x f, a ∈ closing output x f := by
  obtain ⟨x, -, ha⟩ := List.mem_flatMap.mp ha
  rw [Table.verdict] at ha
  split at ha
  · split at ha
    · simp at ha
    · exact ⟨_, _, ha⟩
  · simp at ha

/-- Settling neither updates a flow nor opens one. -/
theorem settleActions_quiet {a : Action} (ha : a ∈ T.settleActions output keep) :
    a.isUpdate = false ∧ ∀ x f, a ≠ .newFlow x f := by
  obtain ⟨x, f, ha⟩ := mem_settleActions ha
  cases output <;> simp [closing, report] at ha
  · subst ha
    exact ⟨rfl, by simp⟩
  · rcases ha with rfl | rfl
    · exact ⟨rfl, by simp⟩
    · exact ⟨rfl, by simp⟩

theorem filter_isEvent_isUpdate (acts : List Action) :
    (acts.filter Action.isEvent).filter Action.isUpdate = acts.filter Action.isUpdate := by
  rw [List.filter_filter]
  refine List.filter_congr fun a _ ↦ ?_
  cases a <;> rfl

/-- What a call does for the flows it does not close. -/
structure CallOk (i : DnsDB × Property) (acts : List Action) : Prop where
  puts : ∀ a ∈ acts, a.PutOk
  /-- It updates one flow, with its packet. -/
  updated : ∃ x f, acts.filter Action.isUpdate = [.update x f i.2]
  /-- If it opens one, it is for its packet. -/
  opened : ∀ x f, .newFlow x f ∈ acts → ∃ src dst, hosts i.1 i.2 = some (src, dst) ∧
    f = .new i.2 src dst

theorem Accepts.callOk {db : DnsDB} {p : Property} {src dst : Bytes}
    (hhosts : hosts db p = some (src, dst)) {acts accepted : List Action} {T₁ T' : Table Flow}
    (hacc : Accepts output p src dst T₁ accepted T')
    (hev : acts.filter Action.isEvent = T.settleActions output keep ++ accepted)
    (hok : ∀ a ∈ acts, a.PutOk) : CallOk (db, p) acts := by
  have hsplit : acts.filter Action.isUpdate = accepted.filter Action.isUpdate := by
    have hnil : (T.settleActions output keep).filter Action.isUpdate = [] :=
      List.filter_eq_nil_iff.mpr fun a ha ↦ by simp [(settleActions_quiet ha).1]
    rw [← filter_isEvent_isUpdate, hev, List.filter_append, hnil, List.nil_append]
  have hnew : ∀ x f, .newFlow x f ∈ acts → .newFlow x f ∈ accepted := by
    intro x f ha
    have hmem : .newFlow x f ∈ acts.filter Action.isEvent := List.mem_filter.mpr ⟨ha, rfl⟩
    rw [hev, List.mem_append] at hmem
    exact hmem.resolve_left fun hm ↦ (settleActions_quiet hm).2 x f rfl
  refine ⟨hok, ?_, fun x f hf ↦ ?_⟩
  · rw [hsplit]
    cases hacc with
    | @joined x f => exact ⟨.node x, f, rfl⟩
    | @opened x => exact ⟨.node x, .new p src dst, by cases output <;> rfl⟩
  · have hf' := hnew x f hf
    cases hacc with
    | joined => simp at hf'
    | @opened y =>
      refine ⟨src, dst, hhosts, ?_⟩
      cases output <;> simp [report] at hf'
      exact hf'.2

/-- What a call of `recv` is for the observers: every one of them makes a step. -/
theorem recv_watches (h : Sound m s T) (al : Allocator) {fuel : Nat} {i : DnsDB × Property}
    (hp : i.2.HasAddrs) (hf : T.held.length < fuel) :
    ∃ s' acts T', recv al fuel s i = some (s', acts) ∧ Sound m s' T' ∧ s'.output = s.output ∧
      T'.held.length ≤ T.held.length + 1 ∧ CallOk i acts ∧
      ∀ c H w, Watches c H s T w → c.Hashed H i.2 →
        ∃ w', w.Step c s.output i (history c acts) w' ∧ Watches c H s' T' w' := by
  obtain ⟨s', acts, src, dst, accepted, T', hrecv, hhosts, hacc, hev, hok, h', hout, hts⟩ :=
    recv_eq h al i.1 hp hf
  have hlen := h.advance_length (n := slots) (k := elapsed s.lastTs i.2.tvSec)
  refine ⟨s', acts, T', hrecv, h', hout, ?_, hacc.callOk hhosts hev hok, fun c H w hw hc ↦ ?_⟩
  · exact hacc.held_length.trans (Nat.succ_le_succ (Table.settle_held_length hlen.le))
  · obtain ⟨σ, haged, v⟩ := hw.view.age s.output h i.2.tvSec (elapsed s.lastTs i.2.tvSec)
    obtain ⟨σ', htouched, v'⟩ := v.accepts h.age_owned (hw.hashed.age h _ _) hc hhosts hacc
    have hclock : w.clock + elapsed w.lastTs i.2.tvSec = T.clock + elapsed s.lastTs i.2.tvSec := by
      rw [hw.clock, hw.lastTs]
    rw [Table.age_clock] at htouched
    refine ⟨⟨i.2.tvSec, T.clock + elapsed s.lastTs i.2.tvSec, σ'⟩, ⟨rfl, hclock.symm, σ, _, _,
      haged, htouched, ?_⟩, v', hts.symm, ?_, (hw.hashed.age h _ _).accepts hc hacc⟩
    · rw [← history_isEvent, hev, history_append]
    · exact (hacc.clock.trans (Table.age_clock _ _)).symm

/-- The calls `ins` have led from `s` and its table to `s'` and its table, with the actions
`outs`. -/
structure Watched (m : Nat) (s : FlowHandler) (T : Table Flow) (ins : List (DnsDB × Property))
    (outs : List (List Action)) (s' : FlowHandler) (T' : Table Flow) : Prop where
  sound : Sound m s' T'
  output : s'.output = s.output
  held_length : T'.held.length ≤ T.held.length + ins.length
  calls : List.Forall₂ CallOk ins outs
  /-- Everyone who watches has seen a run of the machine. -/
  watches : ∀ c H w, Watches c H s T w → (∀ i ∈ ins, c.Hashed H i.2) →
    ∃ w', Machine.Runs (Watch.Step c s.output) w ins (outs.map (history c)) w' ∧
      Watches c H s' T' w'

namespace Watched

variable {ins : List (DnsDB × Property)} {outs : List (List Action)} {s₁ : FlowHandler}
  {T₁ : Table Flow}

theorem nil (h : Sound m s T) : Watched m s T [] [] s T where
  sound := h
  output := rfl
  held_length := by simp
  calls := .nil
  watches _ _ w hw _ := ⟨w, .nil, hw⟩

/-- One more call. -/
theorem call (hw : Watched m s T ins outs s₁ T₁) (al : Allocator) {fuel : Nat}
    {i : DnsDB × Property} (hp : i.2.HasAddrs) (hf : T.held.length + ins.length < fuel) :
    ∃ s₂ acts T₂, recv al fuel s₁ i = some (s₂, acts) ∧
      Watched m s T (ins ++ [i]) (outs ++ [acts]) s₂ T₂ := by
  obtain ⟨s₂, acts, T₂, hrecv, h₂, hout₂, hlen₂, hok₂, hw₂⟩ :=
    recv_watches hw.sound al hp (hw.held_length.trans_lt hf)
  refine ⟨s₂, acts, T₂, hrecv, h₂, hout₂.trans hw.output, ?_,
    List.rel_append hw.calls (.cons hok₂ .nil), fun c H w hwc hc ↦ ?_⟩
  · have hlen := hw.held_length
    rw [List.length_append, List.length_singleton]
    omega
  · obtain ⟨w₁, hruns, hw₁⟩ := hw.watches c H w hwc fun j hj ↦ hc j (List.mem_append_left _ hj)
    obtain ⟨w₂, hstep, hw₂'⟩ := hw₂ c H w₁ hw₁ (hc i (by simp))
    rw [hw.output] at hstep
    refine ⟨w₂, ?_, hw₂'⟩
    rw [List.map_append, List.map_singleton]
    exact hruns.snoc hstep

end Watched

/-- **A run of the handler is a run of the machine**, for everyone who watches; and no call faults,
as long as there is fuel for a walk over the flows. -/
theorem watch_run (h : Sound m s T) (al : Allocator) {fuel : Nat} {ins : List (DnsDB × Property)}
    (hp : ∀ i ∈ ins, i.2.HasAddrs) (hf : T.held.length + ins.length ≤ fuel) :
    ∃ s' outs T', Machine.run (recv al fuel) s ins = some (s', outs) ∧
      Watched m s T ins outs s' T' := by
  have hstep : ∀ is i outs s₁, is ++ [i] <+: ins → (∃ T₁, Watched m s T is outs s₁ T₁) →
      ∃ s₂ acts, recv al fuel s₁ i = some (s₂, acts) ∧
        ∃ T₂, Watched m s T (is ++ [i]) (outs ++ [acts]) s₂ T₂ := by
    rintro is i outs s₁ hpre ⟨T₁, hw⟩
    have hlen : is.length + 1 ≤ ins.length := by simpa using hpre.length_le
    obtain ⟨s₂, acts, T₂, hrecv, hw₂⟩ :=
      hw.call al (hp i (hpre.subset (by simp))) (show _ < fuel by omega)
    exact ⟨s₂, acts, hrecv, T₂, hw₂⟩
  obtain ⟨s', outs, hrun, T', hw⟩ :=
    Machine.run_history (P := fun is outs s' ↦ ∃ T', Watched m s T is outs s' T')
      ⟨T, .nil h⟩ hstep ins List.prefix_rfl
  exact ⟨s', outs, T', hrun, hw⟩

theorem putOk_of_calls {ins : List (DnsDB × Property)} {outs : List (List Action)}
    (h : List.Forall₂ CallOk ins outs) : ∀ acts ∈ outs, ∀ a ∈ acts, a.PutOk := by
  induction h with
  | nil => simp
  | cons hi _ ih => exact List.forall_mem_cons.mpr ⟨hi.puts, ih⟩

/-- The machine of the flow at `x` stands at the flow the table holds there. -/
theorem Watches.holds {x : Ptr} {f : Flow} {H : Bytes → Nat} {w : Watch}
    (hw : Watches (.object x) H s T w) (h : Sound m s T) (hx : s.flowTable.Holds x f) :
    ∃ y d, x = .node y ∧ w.session = some ⟨y, f, d⟩ := by
  obtain ⟨y, rfl, hy, hobj⟩ := h.refines.holds hx
  obtain ⟨d, hd⟩ := hw.view.eq_of_node hy hobj (by simp [Selector.sees])
  exact ⟨y, d, rfl, hd⟩

/-- A run from the construction of the handler. -/
theorem watch_init (al : Allocator) (output : Bool) {fuel : Nat} {ins : List (DnsDB × Property)}
    (hp : ∀ i ∈ ins, i.2.HasAddrs) (hf : ins.length ≤ fuel) :
    ∃ s outs T, Machine.run (recv al fuel) (init output) ins = some (s, outs) ∧
      Sound (LRUHash.init slots 0 : LRUHash Flow).bucketSize s T ∧ s.output = output ∧
      T.held.length ≤ ins.length ∧ List.Forall₂ CallOk ins outs ∧
      ∀ c H, (∀ i ∈ ins, c.Hashed H i.2) →
        ∃ w, Machine.Runs (Watch.Step c output) .init ins (outs.map (history c)) w ∧
          Watches c H s T w := by
  obtain ⟨s, outs, T, hrun, h, hout, hlen, hcalls, hw⟩ :=
    watch_run (Sound.init output) al hp (by simpa [Table.empty] using hf)
  refine ⟨s, outs, T, hrun, h, hout, by simpa [Table.empty] using hlen, hcalls, fun c H hc ↦ ?_⟩
  exact hw c H .init (Watches.init c H output) hc

/-- The end of the handler closes the flow that is still open. -/
theorem destroy_watches (h : Sound m s T) {fuel : Nat} (hf : T.held.length < fuel) :
    ∃ s' acts, destroy fuel s = some (s', acts) ∧
      ∀ c H w, Watches c H s T w →
        history c acts = w.session.elim [] fun S ↦ closing s.output (.node S.node) S.flow := by
  obtain ⟨s', acts, T', hdestroy, -, -, hobj, hperm, hev⟩ := destroy_eq h hf
  refine ⟨s', acts, hdestroy, fun c H w hw ↦ ?_⟩
  have hother : ∀ y ∈ T'.expired, (∀ S, w.session = some S → y ≠ S.node) →
      ∃ g, T'.obj y = some g ∧ c.sees (.node y) g.key = false := fun y hy hne ↦
    hobj ▸ hw.view.unseen h (hperm.mem_iff.mp hy) hne
  rw [← history_isEvent, hev]
  cases hσ : w.session with
  | none =>
    rw [hσ] at hother
    exact history_settle_none fun y hy ↦ hother y hy (by simp)
  | some S =>
    obtain ⟨⟨hSheld, hSobj⟩, hSc⟩ := (hw.view S).mp hσ
    have hnd := hperm.nodup_iff.mpr (List.nodup_append.mp h.nodup).1
    have hS := hperm.mem_iff.mpr (List.mem_map_of_mem hSheld)
    rw [history_settle_one hnd hS (hobj ▸ hSobj) hSc, Table.verdict, hobj, hSobj]
    · rfl
    · refine fun y hy hne ↦ hother y hy fun S' hS' ↦ ?_
      rw [← Option.some.inj (hσ.symm.trans hS')]
      exact hne

/-- **The whole life of a handler is a run of the machine**, after which the flow that is still open
is closed. -/
theorem watch_life (al : Allocator) (output : Bool) {fuel : Nat} {ins : List (DnsDB × Property)}
    (hp : ∀ i ∈ ins, i.2.HasAddrs) (hf : ins.length < fuel) :
    ∃ s outs s' acts, Machine.run (recv al fuel) (init output) ins = some (s, outs) ∧
      destroy fuel s = some (s', acts) ∧ List.Forall₂ CallOk ins outs ∧
      ∀ c H, (∀ i ∈ ins, c.Hashed H i.2) →
        ∃ w, Machine.Runs (Watch.Step c output) .init ins (outs.map (history c)) w ∧
          history c acts = w.session.elim [] fun S ↦ closing output (.node S.node) S.flow := by
  obtain ⟨s, outs, T, hrun, h, hout, hlen, hcalls, hw⟩ := watch_init al output hp hf.le
  obtain ⟨s', acts, hdestroy, hclose⟩ := destroy_watches h (hlen.trans_lt hf)
  refine ⟨s, outs, s', acts, hrun, hdestroy, hcalls, fun c H hc ↦ ?_⟩
  obtain ⟨w, hruns, hwc⟩ := hw c H hc
  refine ⟨w, hruns, ?_⟩
  rw [hclose c H w hwc, hout]

end DnsHive
