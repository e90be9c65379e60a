import Mathlib.Data.List.Chain
import DnsHive.Flow.Timing

/-!
# Blocks of packets

The packets that one flow counts are a `Block`, and everything the handler does for the flow can be
read off from it: `Block.story`.  At any time, what the machine of a selector has done so far is the
stories of the blocks that are closed and the opening of the one that is still open; `Books` keeps
that account, and every step of the machine carries it on (`Books.step`).

`Timely` is the part of the account that rests on times which do not go back: within a block no two
consecutive packets are `2 * TIMEOUT` apart, and between two blocks at least `TIMEOUT` passes.
-/

set_option autoImplicit false

namespace DnsHive

open Swarm FlowHandler

/-- The packets of one flow, each with the names that were known when it came. -/
structure Block where
  node : Addr
  src : Bytes
  dst : Bytes
  first : DnsDB × Property
  later : List (DnsDB × Property)

/-- The flow after some more packets. -/
def Flow.updates (f : Flow) (is : List (DnsDB × Property)) : Flow :=
  is.foldl (fun f i ↦ f.update i.2) f

/-- The updates with these packets. -/
def updateActions (x : Ptr) : Flow → List (DnsDB × Property) → List Action
  | _, [] => []
  | f, i :: is => .update x f i.2 :: updateActions x (f.update i.2) is

namespace Block

variable (b : Block) (i : DnsDB × Property)

/-- All packets of the block. -/
def inputs : List (DnsDB × Property) := b.first :: b.later

/-- The flow as it is opened. -/
def opened : Flow := .new b.first.2 b.src b.dst

/-- The flow after all of the packets. -/
def total : Flow := b.opened.updates b.inputs

/-- The packet that came last. -/
def last : DnsDB × Property := b.later.getLastD b.first

/-- What is done for the flow while it is open. -/
def opening : List Action :=
  .newFlow (.node b.node) b.opened :: updateActions (.node b.node) b.opened b.inputs

/-- All that is done for the flow, from its beginning to its end. -/
def story : List Action := b.opening ++ closing true (.node b.node) b.total

/-- One more packet. -/
def push : Block := { b with later := b.later ++ [i] }

end Block

/-! ## One more packet -/

theorem Flow.updates_append (f : Flow) (is js : List (DnsDB × Property)) :
    f.updates (is ++ js) = (f.updates is).updates js := List.foldl_append ..

theorem updateActions_append (x : Ptr) (f : Flow) (is js : List (DnsDB × Property)) :
    updateActions x f (is ++ js) = updateActions x f is ++ updateActions x (f.updates is) js := by
  induction is generalizing f with
  | nil => rfl
  | cons i is ih => exact congrArg (_ :: ·) (ih _)

namespace Block

variable (b : Block) (i : DnsDB × Property)

theorem push_inputs : (b.push i).inputs = b.inputs ++ [i] := rfl

theorem push_total : (b.push i).total = b.total.update i.2 := Flow.updates_append ..

theorem push_opening :
    (b.push i).opening = b.opening ++ [.update (.node b.node) b.total i.2] := by
  rw [opening, push_inputs, updateActions_append]
  rfl

@[simp] theorem push_last : (b.push i).last = i := by simp [push, last]

theorem inputs_getLast? : b.inputs.getLast? = some b.last := by
  rw [inputs, List.getLast?_cons, last, List.getLastD_eq_getLast?]

theorem total_lastTs : b.total.lastTs = some b.last.2.tvSec := by
  rcases List.eq_nil_or_concat b.later with h | ⟨is, j, h⟩
  · simp [total, inputs, h, last, Flow.updates]
  · have hb : b = { b with later := is }.push j := by rw [push, ← List.concat_eq_append, ← h]
    rw [hb, push_total, push_last, Flow.update_lastTs]

end Block

/-! ## The account -/

/-- What the machine has done for the packets `ins`: the actions `acts`. -/
structure Books (c : Selector) (σ : Option Session) (ins : List (DnsDB × Property))
    (acts : List Action) (closed : List Block) (cur : Option Block) : Prop where
  acts : acts = closed.flatMap Block.story ++ cur.elim [] Block.opening
  /-- The open block is that of the open flow. -/
  session : σ.map (fun S ↦ (S.node, S.flow)) = cur.map fun b ↦ (b.node, b.total)
  /-- Every packet of a session is in one of its blocks. -/
  inputs : ∀ label, c = .session label →
    (closed ++ cur.toList).flatMap Block.inputs = ins.filter fun i ↦ i.2.ssnLabel = label
  /-- The names are those that were known at the first packet. -/
  named : ∀ b ∈ closed ++ cur.toList, hosts b.first.1 b.first.2 = some (b.src, b.dst)

/-- The flow was not idle for twice `TIMEOUT` between two of its packets. -/
def Joined (i j : DnsDB × Property) : Prop := j.2.tvSec < i.2.tvSec + 2 * timeout

/-- At least `TIMEOUT` passed between the two flows. -/
def Parted (b b' : Block) : Prop := b.last.2.tvSec + timeout ≤ b'.first.2.tvSec

/-- The account at the time `now`, if time never goes back. -/
structure Timely (now : Int) (clock : Nat) (σ : Option Session) (closed : List Block)
    (cur : Option Block) : Prop where
  punctual : ∀ S ∈ σ, 0 < now ∧ S.Punctual now clock
  joined : ∀ b ∈ closed ++ cur.toList, b.inputs.IsChain Joined
  parted : (closed ++ cur.toList).IsChain Parted
  past : ∀ b ∈ closed, b.last.2.tvSec + timeout ≤ now

variable {c : Selector} {σ σ' : Option Session} {ins : List (DnsDB × Property)}
  {acts o : List Action} {closed : List Block} {cur : Option Block} {now last : Int} {clock : Nat}
  {db : DnsDB} {p : Property}

theorem Books.init (c : Selector) : Books c none [] [] [] none := by
  constructor <;> simp

theorem Timely.init : Timely 0 0 none [] none := by
  constructor <;> simp

/-- The open flow is the total of an open block. -/
theorem Books.open_block {S : Session} (h : Books c (some S) ins acts closed cur) :
    ∃ b, cur = some b ∧ b.node = S.node ∧ b.total = S.flow := by
  have hs := h.session
  cases cur with
  | none => simp at hs
  | some b =>
    simp only [Option.map_some, Option.some_inj, Prod.mk.injEq] at hs
    exact ⟨b, rfl, hs.1.symm, hs.2.symm⟩

theorem Books.no_block (h : Books c none ins acts closed cur) : cur = none := by
  have hs := h.session
  cases cur with
  | none => rfl
  | some b => simp at hs

/-- Re-arming a flow changes nothing that is accounted for. -/
theorem Books.deadline {S : Session} (h : Books c (some S) ins acts closed cur) (d : Nat) :
    Books c (some { S with deadline := d }) ins acts closed cur :=
  ⟨h.acts, h.session, h.inputs, h.named⟩

/-- Closing the open flow closes its block. -/
theorem Books.close {S : Session} {b : Block} (h : Books c (some S) ins acts closed (some b))
    (hnode : b.node = S.node) (htotal : b.total = S.flow) :
    Books c none ins (acts ++ closing true (.node S.node) S.flow) (closed ++ [b]) none := by
  refine ⟨?_, rfl, fun label hc ↦ ?_, fun b' hb' ↦ h.named b' ?_⟩
  · rw [h.acts, ← hnode, ← htotal]
    simp [Block.story]
  · simpa using h.inputs label hc
  · simpa using hb'

/-- **Ageing**: the open block may be closed, if it has been idle for `TIMEOUT`. -/
theorem Books.aged {clock' : Nat} (last : Int) (clock : Nat) (h : Books c σ ins acts closed cur)
    (haged : Aged true now clock' σ o σ') :
    ∃ closed' cur', Books c σ' ins (acts ++ o) closed' cur' ∧
      (clock' = clock + elapsed last now → last ≤ now → Timely last clock σ closed cur →
        Timely now clock' σ' closed' cur') := by
  have hpunct : clock' = clock + elapsed last now → last ≤ now → Timely last clock σ closed cur →
      ∀ S ∈ σ', 0 < now ∧ S.Punctual now clock' := by
    rintro rfl hle ht S hS
    refine ⟨?_, haged.punctual (fun S hS ↦ (ht.punctual S hS).1) (fun S hS ↦
      (ht.punctual S hS).2) S hS⟩
    cases haged with
    | idle => simp at hS
    | @stays S => exact (ht.punctual S rfl).1.trans_le hle
    | @rearmed S => exact (ht.punctual S rfl).1.trans_le hle
    | closed => simp at hS
  have hpast : last ≤ now → Timely last clock σ closed cur →
      ∀ b ∈ closed, b.last.2.tvSec + timeout ≤ now := fun hle ht b hb ↦ (ht.past b hb).trans hle
  cases haged with
  | idle =>
    refine ⟨closed, cur, by simpa using h, fun hclock hle ht ↦ ?_⟩
    exact ⟨hpunct hclock hle ht, ht.joined, ht.parted, hpast hle ht⟩
  | stays =>
    refine ⟨closed, cur, by simpa using h, fun hclock hle ht ↦ ?_⟩
    exact ⟨hpunct hclock hle ht, ht.joined, ht.parted, hpast hle ht⟩
  | rearmed =>
    refine ⟨closed, cur, by simpa using h.deadline _, fun hclock hle ht ↦ ?_⟩
    exact ⟨hpunct hclock hle ht, ht.joined, ht.parted, hpast hle ht⟩
  | @closed S _ hidle =>
    obtain ⟨b, rfl, hnode, htotal⟩ := h.open_block
    refine ⟨closed ++ [b], none, h.close hnode htotal, fun hclock hle ht ↦ ⟨by simp, ?_, ?_, ?_⟩⟩
    · simpa using ht.joined
    · simpa using ht.parted
    · intro b' hb'
      rcases List.mem_append.mp hb' with hb' | hb'
      · exact hpast hle ht b' hb'
      · rw [List.mem_singleton.mp hb']
        rw [activeAt_iff (htotal ▸ b.total_lastTs)] at hidle
        omega

theorem Selector.sees_session {label key : Bytes} {x : Ptr} :
    (Selector.session label).sees x key = decide (key = label) := rfl

/-- The packets of a session, when one more has come. -/
theorem Books.filter_concat {label : Bytes} :
    (ins ++ [(db, p)]).filter (fun i ↦ i.2.ssnLabel = label) =
      ins.filter (fun i ↦ i.2.ssnLabel = label) ++
        if p.ssnLabel = label then [(db, p)] else [] := by
  rw [List.filter_append]
  congr 1
  split <;> simp_all

/-- Adding a packet to the open block. -/
theorem Books.push {S : Session} {b : Block} (h : Books c (some S) ins acts closed (some b))
    (hnode : b.node = S.node) (htotal : b.total = S.flow)
    (hc : c.sees (.node S.node) p.ssnLabel) :
    Books c (some { S with flow := S.flow.update p }) (ins ++ [(db, p)])
      (acts ++ [.update (.node S.node) S.flow p]) closed (some (b.push (db, p))) := by
  refine ⟨?_, ?_, ?_, ?_⟩
  · rw [h.acts, ← hnode, ← htotal]
    simp [Block.push_opening]
  · show some (S.node, S.flow.update p) = some (b.node, (b.push (db, p)).total)
    rw [Block.push_total, htotal, hnode]
  · rintro label rfl
    rw [Selector.sees_session, decide_eq_true_eq] at hc
    rw [Books.filter_concat, if_pos hc, ← h.inputs label rfl]
    simp [Block.push_inputs]
  · simp only [Option.toList_some, List.mem_append, List.mem_singleton]
    rintro b' (hb' | rfl)
    · exact h.named b' (by simp [hb'])
    · exact h.named b (by simp)

/-- Opening a block. -/
theorem Books.open {x : Addr} {src dst : Bytes} {d : Nat} (h : Books c none ins acts closed none)
    (hc : c.sees (.node x) p.ssnLabel) (hhosts : hosts db p = some (src, dst)) :
    Books c (some ⟨x, (Flow.new p src dst).update p, d⟩) (ins ++ [(db, p)])
      (acts ++ [.newFlow (.node x) (.new p src dst), .update (.node x) (.new p src dst) p]) closed
      (some ⟨x, src, dst, (db, p), []⟩) := by
  refine ⟨?_, rfl, ?_, ?_⟩
  · rw [h.acts]
    simp [Block.opening, Block.opened, Block.inputs, updateActions]
  · rintro label rfl
    rw [Selector.sees_session, decide_eq_true_eq] at hc
    rw [Books.filter_concat, if_pos hc, ← h.inputs label rfl]
    simp [Block.inputs]
  · simp only [Option.toList_some, List.mem_append, List.mem_singleton]
    rintro b' (hb' | rfl)
    · exact h.named b' (by simp [hb'])
    · exact hhosts

/-- **A packet**: it is added to the open block, or opens one. -/
theorem Books.touched (h : Books c σ ins acts closed cur)
    (htouched : Touched c true clock db p σ o σ') :
    ∃ cur', Books c σ' (ins ++ [(db, p)]) (acts ++ o) closed cur' ∧
      (0 < p.tvSec → Timely p.tvSec clock σ closed cur → Timely p.tvSec clock σ' closed cur') := by
  have hpunct : 0 < p.tvSec → Timely p.tvSec clock σ closed cur →
      ∀ S ∈ σ', 0 < p.tvSec ∧ S.Punctual p.tvSec clock := fun hpos ht S hS ↦
    ⟨hpos, htouched.punctual (fun S hS ↦ (ht.punctual S hS).2) S hS⟩
  cases htouched with
  | other hc =>
    refine ⟨cur, ⟨by simpa using h.acts, h.session, ?_, h.named⟩, fun _ ht ↦ ht⟩
    rintro label rfl
    rw [Selector.sees_session, decide_eq_false_iff_not] at hc
    rw [Books.filter_concat, if_neg hc, List.append_nil]
    exact h.inputs label rfl
  | @joined S hc hkey =>
    obtain ⟨b, rfl, hnode, htotal⟩ := h.open_block
    refine ⟨some (b.push (db, p)), h.push hnode htotal hc, fun hpos ht ↦
      ⟨hpunct hpos ht, ?_, ?_, ht.past⟩⟩
    · simp only [Option.toList_some, List.mem_append, List.mem_singleton]
      rintro b' (hb' | rfl)
      · exact ht.joined b' (by simp [hb'])
      · refine (ht.joined b (by simp)).append (.singleton _) fun i hi j hj ↦ ?_
        rw [b.inputs_getLast?] at hi
        obtain rfl := Option.some.inj hi
        obtain rfl := Option.some.inj hj
        exact (ht.punctual S rfl).2.lt (htotal ▸ b.total_lastTs)
    · have hparted := List.isChain_append.mp ht.parted
      refine hparted.1.append (.singleton _) fun b' hb' b'' hb'' ↦ ?_
      obtain rfl := Option.some.inj hb''
      exact hparted.2.2 b' hb' b rfl
  | @opened x src dst hc hhosts =>
    obtain rfl := h.no_block
    refine ⟨some ⟨x, src, dst, (db, p), []⟩, h.open hc hhosts, fun hpos ht ↦
      ⟨hpunct hpos ht, ?_, ?_, ht.past⟩⟩
    · simp only [Option.toList_some, List.mem_append, List.mem_singleton]
      rintro b' (hb' | rfl)
      · exact ht.joined b' (by simp [hb'])
      · exact .singleton _
    · have hparted := ht.parted
      rw [Option.toList_none, List.append_nil] at hparted
      refine hparted.append (.singleton _) fun b' hb' b'' hb'' ↦ ?_
      obtain rfl := Option.some.inj hb''
      exact ht.past b' (List.mem_of_getLast? hb')

/-! ## Runs -/

/-- Every run of the machine keeps the account. -/
theorem Books.of_runs {w : Watch} {outs : List (List Action)}
    (h : Machine.Runs (Watch.Step c true) .init ins outs w) :
    ∃ closed cur, Books c w.session ins outs.flatten closed cur ∧
      ((∀ i ∈ ins, 0 < i.2.tvSec) → (ins.Pairwise fun i j ↦ i.2.tvSec ≤ j.2.tvSec) →
        Timely w.lastTs w.clock w.session closed cur) := by
  induction h with
  | nil => exact ⟨[], none, .init c, fun _ _ ↦ .init⟩
  | @snoc is os w₁ w₂ i o hruns hstep ih =>
    obtain ⟨closed, cur, hbooks, htimely⟩ := ih
    obtain ⟨hts, hclock, σ, o₁, o₂, haged, htouched, rfl⟩ := hstep
    obtain ⟨closed', cur', hbooks', haged'⟩ := hbooks.aged w₁.lastTs w₁.clock haged
    obtain ⟨cur'', hbooks'', htouched'⟩ := hbooks'.touched htouched
    refine ⟨closed', cur'', by simpa using hbooks'', fun hpos hmono ↦ ?_⟩
    have hpos' : ∀ j ∈ is, 0 < j.2.tvSec := fun j hj ↦ hpos j (List.mem_append_left _ hj)
    rw [List.pairwise_append] at hmono
    have hlast : w₁.lastTs ≤ i.2.tvSec := by
      cases hruns with
      | nil => exact (hpos i (by simp)).le
      | @snoc is' os' w₀ w₁ j o' _ hstep' =>
        rw [hstep'.1]
        exact hmono.2.2 j (by simp) i (by simp)
    rw [hts]
    exact htouched' (hpos i (by simp)) (haged' hclock hlast (htimely hpos' hmono.1))

/-- The whole life of a handler, for the flows that `c` follows: the packets `ins` came in these
blocks, and `trace` is what was done. -/
structure Chronicle (c : Selector) (ins : List (DnsDB × Property)) (trace : List Action)
    (blocks : List Block) : Prop where
  trace : history c trace = blocks.flatMap Block.story
  inputs : ∀ label, c = .session label →
    blocks.flatMap Block.inputs = ins.filter fun i ↦ i.2.ssnLabel = label
  named : ∀ b ∈ blocks, hosts b.first.1 b.first.2 = some (b.src, b.dst)
  timely : (∀ i ∈ ins, 0 < i.2.tvSec) → (ins.Pairwise fun i j ↦ i.2.tvSec ≤ j.2.tvSec) →
    (∀ b ∈ blocks, b.inputs.IsChain Joined) ∧ blocks.IsChain Parted

/-- The end of the handler closes the open block. -/
theorem Books.chronicle {w : Watch} {trace : List Action}
    (h : Books c w.session ins acts closed cur)
    (htimely : (∀ i ∈ ins, 0 < i.2.tvSec) → (ins.Pairwise fun i j ↦ i.2.tvSec ≤ j.2.tvSec) →
      Timely now clock w.session closed cur)
    (htrace : history c trace =
      acts ++ w.session.elim [] fun S ↦ closing true (.node S.node) S.flow) :
    Chronicle c ins trace (closed ++ cur.toList) := by
  refine ⟨?_, h.inputs, h.named, fun hpos hmono ↦
    ⟨(htimely hpos hmono).joined, (htimely hpos hmono).parted⟩⟩
  rw [htrace, h.acts]
  cases hσ : w.session with
  | none =>
    rw [hσ] at h
    obtain rfl := h.no_block
    simp
  | some S =>
    rw [hσ] at h
    obtain ⟨b, rfl, hnode, htotal⟩ := h.open_block
    simp [Block.story, hnode, htotal]

/-- **Every life of a handler has a chronicle**, for a session if the hash is a function of the
label, and for an object in any case. -/
theorem life (al : Allocator) {fuel : Nat} {ins : List (DnsDB × Property)}
    (haddr : ∀ i ∈ ins, i.2.HasAddrs) (hfuel : ins.length < fuel) :
    ∃ s outs s' acts, Machine.run (recv al fuel) (init true) ins = some (s, outs) ∧
      destroy fuel s = some (s', acts) ∧ List.Forall₂ CallOk ins outs ∧
      ∀ (c : Selector) (H : Bytes → Nat), (∀ i ∈ ins, c.Hashed H i.2) →
        ∃ blocks, Chronicle c ins (outs.flatten ++ acts) blocks := by
  obtain ⟨s, outs, s', acts, hrun, hdestroy, hcalls, hw⟩ := watch_life al true haddr hfuel
  refine ⟨s, outs, s', acts, hrun, hdestroy, hcalls, fun c H hc ↦ ?_⟩
  obtain ⟨w, hruns, hclose⟩ := hw c H hc
  obtain ⟨closed, cur, hbooks, htimely⟩ := Books.of_runs hruns
  refine ⟨_, hbooks.chronicle htimely ?_⟩
  rw [history_append, hclose, history_flatten]

theorem lifetime_chronicle (al : Allocator) {fuel : Nat} {ins : List (DnsDB × Property)}
    (haddr : ∀ i ∈ ins, i.2.HasAddrs) (hfuel : ins.length < fuel) :
    ∃ trace, lifetime al fuel true ins = some trace ∧
      ∀ (c : Selector) (H : Bytes → Nat), (∀ i ∈ ins, c.Hashed H i.2) →
        ∃ blocks, Chronicle c ins trace blocks := by
  obtain ⟨s, outs, s', acts, hrun, hdestroy, -, hlife⟩ := life al haddr hfuel
  exact ⟨outs.flatten ++ acts, by simp [lifetime, hrun, hdestroy], hlife⟩

end DnsHive
