import DnsHive.Flow.Tracking

/-!
# The handler respects the contract of its table

The table is not told whether a node it is given is on its chains already, and the handler does not
look at what `put` returns.  Neither is needed: between two calls no two flows have one label and
nothing waits in the expired queue, and whenever the handler puts a flow, the flow exists, is on no
chain, and is accepted.
-/

set_option autoImplicit false

namespace DnsHive

open Swarm FlowHandler

/-- **One flow for each session, and every `put` is in order**, after any packets at any times. -/
theorem flowHandler_contract (al : Allocator) (H : Bytes → Nat) (output : Bool) (fuel : Nat)
    (ins : List (DnsDB × Property)) (haddr : ∀ i ∈ ins, i.2.HasAddrs)
    (hhash : ∀ i ∈ ins, i.2.hashValue = H i.2.ssnLabel) (hfuel : ins.length ≤ fuel) :
    ∃ s outs, Machine.run (recv al fuel) (init output) ins = some (s, outs) ∧
      (∀ x y f g, s.flowTable.Holds x f → s.flowTable.Holds y g → f.key = g.key → x = y) ∧
      (∀ x, ¬ s.flowTable.InQueue x) ∧ ∀ acts ∈ outs, ∀ a ∈ acts, a.PutOk := by
  obtain ⟨s, outs, T, hrun, h, -, -, hcalls, hw⟩ :=
    watch_init al output haddr hfuel
  refine ⟨s, outs, hrun, ?_, ?_, ?_⟩
  · intro x y f g hx hy hkey
    obtain ⟨a, rfl, ha, hf⟩ := h.refines.holds hx
    obtain ⟨b, rfl, hb, hg⟩ := h.refines.holds hy
    obtain ⟨w, -, hw⟩ := hw (.session f.key) H hhash
    -- both are the flow that the session's machine is at
    obtain ⟨d, hd⟩ := hw.view.eq_of_node ha hf (by simp [Selector.sees])
    obtain ⟨e, he⟩ := hw.view.eq_of_node hb hg (by simp [Selector.sees, hkey])
    rw [(Session.mk.inj (Option.some.inj (hd.symm.trans he))).1]
  · intro x hx
    rw [LRUHash.InQueue, h.refines.rep.exp.transGen_iff, h.settled] at hx
    simp at hx
  · exact putOk_of_calls hcalls

theorem flowHandler_contract_sample :
    ∃ s outs, Machine.run (recv .above 20) (init true) sampleCalls = some (s, outs) ∧
      (∀ x y f g, s.flowTable.Holds x f → s.flowTable.Holds y g → f.key = g.key → x = y) ∧
      (∀ x, ¬ s.flowTable.InQueue x) ∧ ∀ acts ∈ outs, ∀ a ∈ acts, a.PutOk :=
  flowHandler_contract .above List.length true 20 _ (by decide) (by decide) (by decide)

end DnsHive
