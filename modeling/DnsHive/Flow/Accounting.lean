import DnsHive.Flow.Block

/-!
# Every packet is counted in one flow

The packets of a session, in the order in which they came, are cut into blocks.  Each block is
reported once when it opens and once when it is closed, under the names and ports of its first
packet, and the counters of the second report are exactly those of the block
(`flow_accounting`).

The counters are of type `size_t`, so they count modulo `2^64`: a block with `2^64` packets of the
client is reported with none (`flow_accounting_wrap`).
-/

set_option autoImplicit false

namespace DnsHive

open Swarm FlowHandler

namespace Block

/-- The packets that go the way of the first one. -/
def client (b : Block) : List (DnsDB × Property) := b.inputs.filter fun i ↦ i.2.dir = b.first.2.dir

/-- The packets that go the other way. -/
def server (b : Block) : List (DnsDB × Property) := b.inputs.filter fun i ↦ i.2.dir ≠ b.first.2.dir

end Block

/-- The number of bytes of these packets. -/
def bytes (is : List (DnsDB × Property)) : Nat := (is.map fun i ↦ i.2.len).sum

/-- Counters that start at zero count the packets, modulo `2^64`. -/
theorem Flow.updates_eq {f : Flow} (hc : f.cPkt = 0 ∧ f.cSize = 0) (hs : f.sPkt = 0 ∧ f.sSize = 0)
    (is : List (DnsDB × Property)) :
    f.updates is =
      { f with
        lastTs := (is.getLast?.map fun i ↦ i.2.tvSec).or f.lastTs
        cPkt := sizeT (is.filter fun i ↦ i.2.dir = f.dir).length
        cSize := sizeT (bytes (is.filter fun i ↦ i.2.dir = f.dir))
        sPkt := sizeT (is.filter fun i ↦ i.2.dir ≠ f.dir).length
        sSize := sizeT (bytes (is.filter fun i ↦ i.2.dir ≠ f.dir)) } := by
  induction is using List.reverseRecOn with
  | nil =>
    cases f
    obtain ⟨rfl, rfl⟩ := hc
    obtain ⟨rfl, rfl⟩ := hs
    rfl
  | append_singleton is i ih =>
    rw [Flow.updates_append, ih, Flow.updates, List.foldl_cons, List.foldl_nil, Flow.update_eq]
    by_cases hdir : i.2.dir = f.dir
    · simp [hdir, sizeT_add_sizeT, bytes]
    · simp [hdir, Ne.symm hdir, sizeT_add_sizeT, bytes]

/-- The flow of a block is the one that was opened, with the packets of the block counted. -/
theorem Block.total_eq (b : Block) :
    b.total =
      { b.opened with
        lastTs := some b.last.2.tvSec
        cPkt := sizeT b.client.length
        cSize := sizeT (bytes b.client)
        sPkt := sizeT b.server.length
        sSize := sizeT (bytes b.server) } := by
  rw [total, Flow.updates_eq ⟨rfl, rfl⟩ ⟨rfl, rfl⟩, inputs_getLast?]
  rfl

theorem Block.client_pos (b : Block) : 0 < b.client.length :=
  List.length_pos_of_mem (List.mem_filter.mpr ⟨List.mem_cons_self .., by simp⟩)

/-- **Every packet is counted in exactly one flow.**  For packets at any times: each call updates
one flow, with its own packet, and opens one only for it; and for every session, what was done for
it from the first call to the end of the handler is one story after the other, of blocks whose
packets are, one block after the other, those of the session.  A story begins with the only report
of a new flow, ends with the only report of its end, and the latter is the former with the packets
of the block counted, modulo `2^64`. -/
theorem flow_accounting (al : Allocator) (H : Bytes → Nat) (fuel : Nat)
    (ins : List (DnsDB × Property)) (haddr : ∀ i ∈ ins, i.2.HasAddrs)
    (hhash : ∀ i ∈ ins, i.2.hashValue = H i.2.ssnLabel) (hfuel : ins.length < fuel) :
    ∃ s outs s' acts, Machine.run (recv al fuel) (init true) ins = some (s, outs) ∧
      destroy fuel s = some (s', acts) ∧ List.Forall₂ CallOk ins outs ∧
      ∀ label, ∃ blocks : List Block,
        history (.session label) (outs.flatten ++ acts) = blocks.flatMap Block.story ∧
        blocks.flatMap Block.inputs = (ins.filter fun i ↦ i.2.ssnLabel = label) ∧
        ∀ b ∈ blocks, hosts b.first.1 b.first.2 = some (b.src, b.dst) ∧
          b.total =
            { b.opened with
              lastTs := some b.last.2.tvSec
              cPkt := b.client.length % 2 ^ 64
              cSize := bytes b.client % 2 ^ 64
              sPkt := b.server.length % 2 ^ 64
              sSize := bytes b.server % 2 ^ 64 } ∧
          (b.client.length < 2 ^ 64 → 1 ≤ b.total.cPkt) := by
  obtain ⟨s, outs, s', acts, hrun, hdestroy, hcalls, hlife⟩ := life al haddr hfuel
  refine ⟨s, outs, s', acts, hrun, hdestroy, hcalls, fun label ↦ ?_⟩
  obtain ⟨blocks, hblocks⟩ := hlife (.session label) H hhash
  refine ⟨blocks, hblocks.trace, hblocks.inputs label rfl, fun b hb ↦
    ⟨hblocks.named b hb, b.total_eq, fun hlt ↦ ?_⟩⟩
  rw [b.total_eq]
  show 1 ≤ b.client.length % 2 ^ 64
  rw [Nat.mod_eq_of_lt hlt]
  exact b.client_pos

theorem flow_accounting_sample :
    ∃ s outs s' acts, Machine.run (recv .above 20) (init true) sampleCalls = some (s, outs) ∧
      destroy 20 s = some (s', acts) ∧ List.Forall₂ CallOk sampleCalls outs ∧
      ∀ label, ∃ blocks : List Block,
        history (.session label) (outs.flatten ++ acts) = blocks.flatMap Block.story ∧
        blocks.flatMap Block.inputs = (sampleCalls.filter fun i ↦ i.2.ssnLabel = label) ∧
        ∀ b ∈ blocks, hosts b.first.1 b.first.2 = some (b.src, b.dst) ∧
          b.total =
            { b.opened with
              lastTs := some b.last.2.tvSec
              cPkt := b.client.length % 2 ^ 64
              cSize := bytes b.client % 2 ^ 64
              sPkt := b.server.length % 2 ^ 64
              sSize := bytes b.server % 2 ^ 64 } ∧
          (b.client.length < 2 ^ 64 → 1 ≤ b.total.cPkt) :=
  flow_accounting .above List.length 20 _ (by decide) (by decide) (by decide)

/-! ## The wrap of the counters -/

/-- However often the same packet comes at the same time, it is counted in one flow. -/
theorem Watch.repeated {label : Bytes} {i : DnsDB × Property} (hi : i.2.ssnLabel = label)
    (n : Nat) :
    ∀ {w : Watch} {outs : List (List Action)},
      Machine.Runs (Watch.Step (.session label) true) .init (List.replicate n i) outs w →
      (n = 0 ∧ w.session = none) ∨ ∃ S, w.session = some S ∧ S.flow.lastTs = some i.2.tvSec ∧
        S.flow.dir = i.2.dir ∧ S.flow.cPkt = sizeT n := by
  induction n with
  | zero =>
    rintro w outs h
    generalize hnil : List.replicate 0 i = is at h
    cases h with
    | nil => exact .inl ⟨rfl, rfl⟩
    | snoc => simp at hnil
  | succ n ih =>
    rintro w outs h
    rw [List.replicate_succ'] at h
    obtain ⟨os, o, w₁, -, hruns, -, -, σ, o₁, o₂, haged, htouched, -⟩ := h.last
    obtain ⟨S', f, o', -, hS', hflow, hsome, hnone⟩ := htouched.updates hi
    suffices hf : f.dir = i.2.dir ∧ f.cPkt = sizeT n by
      refine .inr ⟨S', hS', by rw [hflow, Flow.update_lastTs],
        by rw [hflow, Flow.update_dir, hf.1], ?_⟩
      rw [hflow, Flow.update_eq, hf.2]
      simp [hf.1, sizeT_add_sizeT]
    rcases ih hruns with ⟨rfl, hw₁⟩ | ⟨S, hS, hlast, hdir, hcount⟩
    · rw [hw₁] at haged
      obtain ⟨src, dst, rfl⟩ := hnone haged.of_none.2
      exact ⟨rfl, rfl⟩
    · rw [hS] at haged
      obtain ⟨-, d, rfl⟩ := haged.quiet (activeAt_of_lt hlast (by simp [timeout]))
      obtain ⟨-, -, rfl⟩ := hsome _ rfl
      exact ⟨hdir, hcount⟩

/-- After `n` times the same packet, the flow is reported with `n` packets modulo `2^64`. -/
theorem expireFlow_repeated (al : Allocator) {i : DnsDB × Property} (haddr : i.2.HasAddrs) {n : Nat}
    (hn : 0 < n) :
    ∃ s outs s' acts x f,
      Machine.run (recv al (n + 1)) (init true) (List.replicate n i) = some (s, outs) ∧
      destroy (n + 1) s = some (s', acts) ∧ .expireFlow x f ∈ acts ∧ f.cPkt = sizeT n := by
  have hall : ∀ j ∈ List.replicate n i, j = i := fun j hj ↦ List.eq_of_mem_replicate hj
  obtain ⟨s, outs, s', acts, hrun, hdestroy, -, hw⟩ :=
    watch_life al true (fun j hj ↦ hall j hj ▸ haddr)
      (show (List.replicate n i).length < n + 1 by simp)
  obtain ⟨w, hruns, hclose⟩ := hw (.session i.2.ssnLabel) (fun _ ↦ i.2.hashValue) fun j hj ↦ by
    rw [hall j hj]
    rfl
  rcases Watch.repeated rfl n hruns with ⟨rfl, -⟩ | ⟨S, hS, -, -, hcount⟩
  · omega
  · have hmem : .expireFlow (.node S.node) S.flow ∈ history (.session i.2.ssnLabel) acts := by
      rw [hclose, hS]
      simp [closing, report]
    exact ⟨s, outs, s', acts, _, _, hrun, hdestroy, (List.mem_filter.mp hmem).1, hcount⟩

/-- `2^64` packets of the client are reported as none. -/
theorem flow_accounting_wrap :
    ∃ s outs s' acts x f,
      Machine.run (recv .above (2 ^ 64 + 1)) (init true)
        (List.replicate (2 ^ 64) (DnsDB.init, samplePacket [1] 5)) = some (s, outs) ∧
      destroy (2 ^ 64 + 1) s = some (s', acts) ∧ .expireFlow x f ∈ acts ∧ f.cPkt = 0 := by
  obtain ⟨s, outs, s', acts, x, f, hrun, hdestroy, hmem, hcount⟩ :=
    expireFlow_repeated .above (i := (DnsDB.init, samplePacket [1] 5)) (by decide)
      (Nat.two_pow_pos 64)
  exact ⟨s, outs, s', acts, x, f, hrun, hdestroy, hmem, hcount.trans (Nat.mod_self _)⟩

end DnsHive
