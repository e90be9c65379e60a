import DnsHive.LRUHash.Ownership

/-!
# The chains of roots

`attach`, `detach` and `search` are member functions of `Node` and know nothing of a table.  Here
they run on any memory and any set `R` of addresses that are taken for roots.  The root they are
used on has a chain that ends and is linked up in both directions; of the chains of the other roots
it is only asked that they keep away from this one.  They may lack an end, or a way back.

* `ChainOf R r xs` — the chain of the root `r` is `xs`.
* `Spares R r h'` — in `h'` the chains of the other roots are as they were.
* `chain_operations` — what the three functions do, on any chain and at any position of it.
* `run_edits` — what any sequence of attaching and detaching leaves, when all chains end.

The buckets of a table are such roots, in every state it can reach (`lruHash_chains`).
-/

set_option autoImplicit false

namespace DnsHive

open Intrusive

namespace Heap

variable {A α κ : Type}

/-- Following `next_` from the root `r` meets `p`.  The root is on its own chain. -/
def OnChain (h : Heap A α) (r p : A) : Prop := Reaches h.next r p

/-- The chain of `r`, one of the roots `R`, is `xs`. -/
structure ChainOf (h : Heap A α) (R : Set A) (r : A) (xs : List A) : Prop where
  root : r ∈ R
  /-- No pointer along the chain dangles. -/
  live : ∀ p ∈ r :: xs, p ∈ h.live
  linked : Doubly h.next h.prev r xs
  disjoint : ∀ r' ∈ R, r' ≠ r → ∀ p, h.OnChain r' p → p ∉ r :: xs

/-- In `h'` the chain of every root but `r` is as it is in `h`, and so are all objects and all
`link_` fields. -/
structure Spares (h : Heap A α) (R : Set A) (r : A) (h' : Heap A α) : Prop where
  live : h'.live = h.live
  obj : h'.obj = h.obj
  link : h'.link = h.link
  chain : ∀ r' ∈ R, r' ≠ r → ∀ p, h'.OnChain r' p ↔ h.OnChain r' p
  fields : ∀ r' ∈ R, r' ≠ r → ∀ p, h.OnChain r' p →
    h'.next p = h.next p ∧ h'.prev p = h.prev p

variable {h h' : Heap A α} {R : Set A} {r x : A} {xs ys zs : List A}

namespace ChainOf

theorem onChain_iff (hc : h.ChainOf R r xs) {p : A} : h.OnChain r p ↔ p ∈ r :: xs :=
  hc.linked.singly.reaches_iff

/-- If the other chains end, too, then they are disjoint as lists. -/
theorem of_singly (hr : r ∈ R) (hl : ∀ p ∈ r :: xs, p ∈ h.live) (hd : Doubly h.next h.prev r xs)
    (ho : ∀ r' ∈ R, r' ≠ r → ∃ ys, Singly h.next r' ys ∧ ∀ p ∈ r' :: ys, p ∉ r :: xs) :
    h.ChainOf R r xs := by
  refine ⟨hr, hl, hd, fun r' hr' hne p hp ↦ ?_⟩
  obtain ⟨ys, hs, hys⟩ := ho r' hr' hne
  exact hys p (hs.reaches_iff.mp hp)

theorem next_live (hc : h.ChainOf R r xs) {p q : A} (hp : p ∈ r :: xs) (hq : h.next p = some q) :
    q ∈ h.live :=
  hc.live q (List.mem_cons_of_mem _ (hc.linked.singly.link_mem hp hq))

theorem prev_live (hc : h.ChainOf R r xs) {p q : A} (hp : p ∈ xs) (hq : h.prev p = some q) :
    q ∈ h.live := by
  obtain ⟨q', hmem, hpq⟩ := hc.linked.prev_mem hp
  exact Option.some.inj (hpq.symm.trans hq) ▸ hc.live q' hmem

/-- The chain of another root, when that of `r` has become `xs` and the others were spared. -/
theorem of_spares {r' : A} (hc : h.ChainOf R r' ys) (hs : h.Spares R r h')
    (hc' : h'.ChainOf R r xs) (hne : r' ≠ r) : h'.ChainOf R r' ys := by
  have hfield : ∀ p ∈ r' :: ys, h'.next p = h.next p ∧ h'.prev p = h.prev p := fun p hp ↦
    hs.fields r' hc.root hne p (hc.onChain_iff.mpr hp)
  refine ⟨hc.root, fun p hp ↦ hs.live ▸ hc.live p hp, ?_, fun q hq hqr p hp hmem ↦ ?_⟩
  · exact hc.linked.congr (fun p hp ↦ (hfield p hp).1) fun p hp ↦
      (hfield p (List.mem_cons_of_mem _ hp)).2
  · by_cases hqe : q = r
    · -- `p` would be on the new chain of `r`
      subst hqe
      have hp' : h'.OnChain r' p := (hs.chain r' hc.root hne p).mpr (hc.onChain_iff.mpr hmem)
      exact hc'.disjoint r' hc.root hne p hp' (hc'.onChain_iff.mp hp)
    · exact hc.disjoint q hq hqr p ((hs.chain q hq hqe p).mp hp) hmem

end ChainOf

/-- Which chains there are follows from the fields. -/
theorem Spares.of_fields (hl : h'.live = h.live) (ho : h'.obj = h.obj) (hk : h'.link = h.link)
    (hf : ∀ r' ∈ R, r' ≠ r → ∀ p, h.OnChain r' p → h'.next p = h.next p ∧ h'.prev p = h.prev p) :
    h.Spares R r h' where
  live := hl
  obj := ho
  link := hk
  chain := fun r' hr' hne _ ↦ reaches_congr fun q hq ↦ (hf r' hr' hne q hq).1
  fields := hf

variable [DecidableEq A]

/-! ## Attaching -/

/-- The memory after `r.attach(x)`. -/
def attached (h : Heap A α) (r x : A) : Heap A α :=
  { h with next := push h.next r x, prev := insertPrev h.next h.prev r x }

namespace ChainOf

theorem attach_eq (hc : h.ChainOf R r xs) (hx : x ∈ h.live) :
    h.attach r x = some (h.attached r x) :=
  Heap.attach_eq (hc.live r (List.mem_cons_self ..)) hx fun _ ↦ hc.next_live (List.mem_cons_self ..)

theorem spares_attached (hc : h.ChainOf R r xs) (hfree : ∀ r' ∈ R, ¬ h.OnChain r' x) :
    h.Spares R r (h.attached r x) := by
  refine .of_fields rfl rfl rfl fun r' hr' hne p hp ↦ ?_
  have hpx : p ≠ x := fun e ↦ hfree r' hr' (e ▸ hp)
  have hpc : p ∉ r :: xs := hc.disjoint r' hr' hne p hp
  exact ⟨push_of_ne (List.ne_of_not_mem_cons hpc) hpx,
    hc.linked.insertPrev_of_notMem hpx (List.not_mem_of_not_mem_cons hpc)⟩

theorem attached (hc : h.ChainOf R r xs) (hx : x ∈ h.live) (hfree : ∀ r' ∈ R, ¬ h.OnChain r' x) :
    (h.attached r x).ChainOf R r (x :: xs) where
  root := hc.root
  live := by
    intro p hp
    rcases List.mem_cons.mp hp with rfl | hp
    · exact hc.live p (List.mem_cons_self ..)
    rcases List.mem_cons.mp hp with rfl | hp
    · exact hx
    · exact hc.live p (List.mem_cons_of_mem _ hp)
  linked := hc.linked.insert fun hmem ↦ hfree r hc.root (hc.onChain_iff.mpr hmem)
  disjoint := by
    intro r' hr' hne p hp hmem
    have hold : h.OnChain r' p := ((hc.spares_attached hfree).chain r' hr' hne p).mp hp
    rw [List.mem_cons, List.mem_cons] at hmem
    rcases hmem with rfl | rfl | hmem
    · exact hc.disjoint r' hr' hne p hold (List.mem_cons_self ..)
    · exact hfree r' hr' hold
    · exact hc.disjoint r' hr' hne p hold (List.mem_cons_of_mem _ hmem)

end ChainOf

/-! ## Detaching -/

/-- The memory after `x.detach()`. -/
def detached (h : Heap A α) (x : A) : Heap A α :=
  { h with next := unlink h.next h.prev x, prev := unlink h.prev h.next x }

namespace ChainOf

theorem detach_eq (hc : h.ChainOf R r xs) (hx : x ∈ xs) : h.detach x = some (h.detached x) :=
  Heap.detach_eq (hc.live x (List.mem_cons_of_mem _ hx))
    (fun _ ↦ hc.next_live (List.mem_cons_of_mem _ hx)) fun _ ↦ hc.prev_live hx

theorem spares_detached (hc : h.ChainOf R r xs) (hx : x ∈ xs) :
    h.Spares R r (h.detached x) := by
  refine .of_fields rfl rfl rfl fun r' hr' hne p hp ↦ ?_
  have hpc : p ∉ r :: xs := hc.disjoint r' hr' hne p hp
  exact ⟨hc.linked.unlink_next_of_notMem hx hpc,
    hc.linked.unlink_prev_of_notMem hx (List.not_mem_of_not_mem_cons hpc)⟩

theorem detached (hc : h.ChainOf R r (ys ++ x :: zs)) :
    (h.detached x).ChainOf R r (ys ++ zs) := by
  have hsub : r :: (ys ++ zs) ⊆ r :: (ys ++ x :: zs) :=
    List.cons_subset_cons _ ((List.sublist_cons_self x zs).append_left ys).subset
  have hs : h.Spares R r (h.detached x) := hc.spares_detached (by simp)
  refine ⟨hc.root, fun p hp ↦ hc.live p (hsub hp), hc.linked.unlink, fun r' hr' hne p hp hmem ↦ ?_⟩
  exact hc.disjoint r' hr' hne p ((hs.chain r' hr' hne p).mp hp) (hsub hmem)

/-- `detach` undoes `attach`, but for the fields of the node itself. -/
theorem detached_attached (hc : h.ChainOf R r xs) (hx : x ∉ r :: xs) :
    (h.attached r x).detached x =
      { h with next := Function.update h.next x none, prev := Function.update h.prev x none } := by
  simp only [Heap.attached, Heap.detached, hc.linked.unlink_push hx,
    hc.linked.unlink_insertPrev hx]

end ChainOf

/-- **The operations on a chain**, at any length and any position.  Attaching puts a node first,
detaching takes one out and clears its fields, and both spare the other chains; one after the other
they restore the memory.  Searching ends, and returns the first hit of the chain. -/
theorem chain_operations [NodeClass α κ] (h : Heap A α) (R : Set A) (r : A) (xs : List A)
    (hc : h.ChainOf R r xs) :
    (∀ x ∈ h.live, (∀ r' ∈ R, ¬ h.OnChain r' x) →
      ∃ h₁, h.attach r x = some h₁ ∧ h₁.ChainOf R r (x :: xs) ∧ h.Spares R r h₁ ∧
      ∃ h₂, h₁.detach x = some h₂ ∧ h₂.ChainOf R r xs ∧
        h₂ = { h with
          next := Function.update h.next x none
          prev := Function.update h.prev x none }) ∧
    (∀ ys x zs, xs = ys ++ x :: zs →
      ∃ h₁, h.detach x = some h₁ ∧ h₁.ChainOf R r (ys ++ zs) ∧ h.Spares R r h₁ ∧
        h₁.next x = none ∧ h₁.prev x = none) ∧
    (∀ (hv : Nat) (key : κ) (fuel : Nat), xs.length < fuel →
      h.search fuel r hv key = some (xs.find? (h.hit hv key))) := by
  refine ⟨fun x hx hfree ↦ ?_, ?_, fun hv key fuel hf ↦ ?_⟩
  · have hc₁ : (h.attached r x).ChainOf R r (x :: xs) := hc.attached hx hfree
    have hx' : x ∉ r :: xs := fun hmem ↦ hfree r hc.root (hc.onChain_iff.mpr hmem)
    have hc₂ : ((h.attached r x).detached x).ChainOf R r ([] ++ xs) := ChainOf.detached hc₁
    exact ⟨_, hc.attach_eq hx, hc₁, hc.spares_attached hfree, _,
      hc₁.detach_eq (List.mem_cons_self ..), hc₂, hc.detached_attached hx'⟩
  · rintro ys x zs rfl
    have hx : x ∈ ys ++ x :: zs := by simp
    exact ⟨_, hc.detach_eq hx, hc.detached, hc.spares_detached hx, unlink_self, unlink_self⟩
  · exact search_eq (hc.live r (List.mem_cons_self ..)) hc.linked.singly
      (fun p hp ↦ hc.live p (List.mem_cons_of_mem _ hp)) hf

/-- Two buckets, with two nodes and one, and a node on neither. -/
def sampleChains : Heap Ptr Sample where
  live := {.bucket 0, .bucket 1, .node 0, .node 1, .node 2, .node 3}
  next
    | .bucket 0 => some (.node 0)
    | .node 0 => some (.node 1)
    | .bucket 1 => some (.node 2)
    | _ => none
  prev
    | .node 0 => some (.bucket 0)
    | .node 1 => some (.node 0)
    | .node 2 => some (.bucket 1)
    | _ => none
  link := fun _ ↦ none
  obj
    | .node x => some ⟨7, x⟩
    | _ => none

theorem sampleChains_chainOf :
    sampleChains.ChainOf {.bucket 0, .bucket 1} (.bucket 0) [.node 0, .node 1] := by
  refine .of_singly (by simp) (by decide) ⟨rfl, rfl, rfl, rfl, rfl⟩ fun r hr hne ↦ ?_
  obtain rfl := (Set.mem_insert_iff.mp hr).resolve_left hne
  exact ⟨[.node 2], ⟨rfl, rfl⟩, by simp⟩

/-- The free node is attached and detached, the last node detached, and a key looked up. -/
theorem chain_operations_sample :
    (∃ h₁, sampleChains.attach (.bucket 0) (.node 3) = some h₁ ∧
      h₁.ChainOf {.bucket 0, .bucket 1} (.bucket 0) [.node 3, .node 0, .node 1] ∧
      sampleChains.Spares {.bucket 0, .bucket 1} (.bucket 0) h₁ ∧
      ∃ h₂, h₁.detach (.node 3) = some h₂ ∧
        h₂.ChainOf {.bucket 0, .bucket 1} (.bucket 0) [.node 0, .node 1]) ∧
    (∃ h₁, sampleChains.detach (.node 1) = some h₁ ∧
      h₁.ChainOf {.bucket 0, .bucket 1} (.bucket 0) [.node 0] ∧
      h₁.next (.node 1) = none ∧ h₁.prev (.node 1) = none) ∧
    sampleChains.search 3 (.bucket 0) 7 1 = some (some (.node 1)) := by
  obtain ⟨hattach, hdetach, hsearch⟩ :=
    chain_operations sampleChains _ _ _ sampleChains_chainOf
  refine ⟨?_, ?_, hsearch 7 1 3 (by decide)⟩
  · have hother : ∀ r ∈ ({.bucket 0, .bucket 1} : Set Ptr), ¬ sampleChains.OnChain r (.node 3) := by
      rintro r (rfl | rfl) hp
      · simpa using sampleChains_chainOf.onChain_iff.mp hp
      · have hs : Singly sampleChains.next (.bucket 1) [.node 2] := ⟨rfl, rfl⟩
        simpa using hs.reaches_iff.mp hp
    obtain ⟨h₁, hatt, hc₁, hs₁, h₂, hdet, hc₂, -⟩ := hattach (.node 3) (by decide) hother
    exact ⟨h₁, hatt, hc₁, hs₁, h₂, hdet, hc₂⟩
  · obtain ⟨h₁, hdet, hc₁, -, hcleared⟩ := hdetach [.node 0] (.node 1) [] rfl
    exact ⟨h₁, hdet, hc₁, hcleared⟩

/-! ## All chains at once

When every root has such a chain, the memory is a family of lists, and the two functions that write
are functions on it. -/

/-- The roots `R` have the chains `L`. -/
def Spells (h : Heap A α) (R : Set A) (L : A → List A) : Prop := ∀ r ∈ R, h.ChainOf R r (L r)

/-- `h'` has the chains `L`, and what is not on a chain as `h` has it. -/
structure Rechains (h : Heap A α) (R : Set A) (h' : Heap A α) (L : A → List A) : Prop where
  spells : h'.Spells R L
  live : h'.live = h.live
  obj : h'.obj = h.obj
  link : h'.link = h.link

/-- A call that writes. -/
inductive Edit (A : Type) where
  /-- `r.attach(x)` -/
  | attach (r x : A)
  /-- `x.detach()` -/
  | detach (x : A)

/-- The call itself. -/
def edit (h : Heap A α) : Edit A → Option (Heap A α × Unit)
  | .attach r x => (h.attach r x).map (·, ())
  | .detach x => (h.detach x).map (·, ())

/-- The lists after a call. -/
def Edit.lists (L : A → List A) : Edit A → (A → List A) × Unit
  | .attach r x => (Function.update L r (x :: L r), ())
  | .detach x => (fun r ↦ (L r).erase x, ())

/-- A node is attached to a root when it is on no chain, and detached when it is on one. -/
def Edit.Ok (R : Set A) (live : Finset A) (L : A → List A) : Edit A → Prop
  | .attach r x => r ∈ R ∧ x ∈ live ∧ ∀ r' ∈ R, x ∉ r' :: L r'
  | .detach x => ∃ r ∈ R, x ∈ L r

namespace Spells

variable {L : A → List A}

theorem attached (hs : h.Spells R L) (hr : r ∈ R) (hx : x ∈ h.live)
    (hfree : ∀ r' ∈ R, ¬ h.OnChain r' x) :
    (h.attached r x).Spells R (Function.update L r (x :: L r)) := by
  intro q hq
  have hc : (h.attached r x).ChainOf R r (x :: L r) := (hs r hr).attached hx hfree
  by_cases hqr : q = r
  · subst hqr
    rwa [Function.update_self]
  · rw [Function.update_of_ne hqr]
    exact (hs q hq).of_spares ((hs r hr).spares_attached hfree) hc hqr

theorem detached (hs : h.Spells R L) (hr : r ∈ R) (hx : x ∈ L r) :
    (h.detached x).Spells R fun q ↦ (L q).erase x := by
  intro q hq
  have hspares : h.Spares R r (h.detached x) := (hs r hr).spares_detached hx
  have hc : (h.detached x).ChainOf R r ((L r).erase x) := by
    have hnd : (L r).Nodup := (List.nodup_cons.mp (hs r hr).linked.singly.nodup).2
    obtain ⟨ys, zs, hsplit⟩ := List.append_of_mem hx
    rw [hsplit] at hnd ⊢
    have hys : x ∉ ys := fun hmem ↦ (List.nodup_append.mp hnd).2.2 x hmem x (by simp) rfl
    rw [List.erase_append_right _ hys, List.erase_cons_head]
    exact (hsplit ▸ hs r hr).detached
  by_cases hqr : q = r
  · exact hqr ▸ hc
  · -- `x` is on the chain of `r` and so on no other
    have hxq : x ∉ L q := fun hmem ↦ (hs r hr).disjoint q hq hqr x
      ((hs q hq).onChain_iff.mpr (List.mem_cons_of_mem _ hmem)) (List.mem_cons_of_mem _ hx)
    show (h.detached x).ChainOf R q ((L q).erase x)
    rw [List.erase_of_not_mem hxq]
    exact (hs q hq).of_spares hspares hc hqr

theorem edit (hs : h.Spells R L) {e : Edit A} (hok : e.Ok R h.live L) :
    ∃ h', h.edit e = some (h', ()) ∧ h.Rechains R h' (e.lists L).1 := by
  cases e with
  | attach r x =>
    obtain ⟨hr, hx, hfree⟩ := hok
    have hfree' : ∀ r' ∈ R, ¬ h.OnChain r' x := fun r' hr' hp ↦
      hfree r' hr' ((hs r' hr').onChain_iff.mp hp)
    exact ⟨_, by rw [Heap.edit, (hs r hr).attach_eq hx]; rfl,
      hs.attached hr hx hfree', rfl, rfl, rfl⟩
  | detach x =>
    obtain ⟨r, hr, hx⟩ := hok
    exact ⟨_, by rw [Heap.edit, (hs r hr).detach_eq hx]; rfl, hs.detached hr hx, rfl, rfl, rfl⟩

end Spells

theorem Rechains.edit {h₀ : Heap A α} {L : A → List A} (hr : h₀.Rechains R h L) {e : Edit A}
    (hok : e.Ok R h₀.live L) :
    ∃ h', h.edit e = some (h', ()) ∧ h₀.Rechains R h' (e.lists L).1 := by
  obtain ⟨h', he, hr'⟩ := hr.spells.edit (hr.live.symm ▸ hok)
  exact ⟨h', he, hr'.spells, hr'.live.trans hr.live, hr'.obj.trans hr.obj, hr'.link.trans hr.link⟩

/-- **A memory of chains is a family of lists**, whatever is attached and detached in it, and in
whatever order. -/
theorem run_edits {L : A → List A} (hs : h.Spells R L) (es : List (Edit A))
    (hok : Machine.Allowed Edit.lists (Edit.Ok R h.live) L es) :
    ∃ h' us, Machine.run edit h es = some (h', us) ∧
      h.Rechains R h' (Machine.exec Edit.lists L es).1 := by
  have hstep : ∀ h₁ L₁ e, h.Rechains R h₁ L₁ → Edit.Ok R h.live L₁ e →
      ∃ h₂, h₁.edit e = some (h₂, (Edit.lists L₁ e).2) ∧ h.Rechains R h₂ (Edit.lists L₁ e).1 :=
    fun _ _ _ hr hok ↦ hr.edit hok
  obtain ⟨h', hrun, hr⟩ := Machine.run_simulation hstep es h L ⟨hs, rfl, rfl, rfl⟩ hok
  exact ⟨h', _, hrun, hr⟩

end Heap

/-! ## The buckets of a table -/

variable {α κ : Type} [NodeClass α κ]

namespace Refines

variable {n m : Nat} {s : LRUHash α} {T : Table α}

theorem chainOf (r : Refines n m s T) {i : Nat} (hi : i < m) :
    s.heap.ChainOf {p | s.Root p} (.bucket i) ((T.chain m i).map .node) := by
  refine .of_singly (show i < s.bucketSize from r.bucketSize ▸ hi) (fun p hp ↦ ?_)
    (r.rep.bucket i hi) fun p hp hne ↦ ?_
  · rcases List.mem_cons.mp hp with rfl | hp
    · exact r.rep.bucket_live i hi
    · obtain ⟨y, hy, rfl⟩ := List.mem_map.mp hp
      exact r.rep.chain_live hy
  cases p with
  | bucket j =>
    have hj : j < m := r.bucketSize ▸ hp
    refine ⟨_, (r.rep.bucket j hj).singly, fun q hq hmem ↦ ?_⟩
    -- a node on both chains would have two hashes
    simp only [List.mem_cons, List.mem_map] at hq hmem
    obtain rfl | ⟨y, hy, rfl⟩ := hq
    · simp [hne] at hmem
    · obtain ⟨z, hz, hzy⟩ := hmem.resolve_left (by simp)
      obtain rfl := Ptr.node.inj hzy
      exact hne (congrArg _ ((Table.mem_chain.mp hy).2.symm.trans (Table.mem_chain.mp hz).2))
  | slot j => exact ⟨[], (r.rep.slot_root j (r.timeslotSize ▸ hp)).1, by simp⟩
  | exp => exact ⟨[], r.rep.exp_root.1, by simp⟩
  | node x => exact hp.elim

end Refines

/-- **Every bucket of every reachable table is such a chain**, among all the roots of the table. -/
theorem lruHash_chains (n b fuel : Nat) (ops : List (LRUHash.Op α κ)) (hn : 1 ≤ n)
    (hok : Machine.Guarded (LRUHash.trackedStep fuel) LRUHash.Contract (LRUHash.init n b, []) ops)
    (hfuel : ops.length ≤ fuel) :
    ∃ s l outs, Machine.run (LRUHash.trackedStep fuel) (LRUHash.init n b, []) ops =
        some ((s, l), outs) ∧
      ∀ i < s.bucketSize, ∃ xs, s.heap.ChainOf {p | s.Root p} (.bucket i) xs := by
  obtain ⟨⟨s, l⟩, outs, hrun, T, r, -⟩ := LRUHash.run_tracked n b fuel ops hn hok hfuel
  exact ⟨s, l, outs, hrun, fun i hi ↦ ⟨_, r.chainOf (r.bucketSize ▸ hi)⟩⟩

end DnsHive
