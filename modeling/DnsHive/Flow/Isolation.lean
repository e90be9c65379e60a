import Mathlib.Data.List.SplitBy
import DnsHive.Flow.Block

/-!
# How far a session depends on the others

A flow that has been idle for less than `TIMEOUT` seconds is kept and one that has been idle for
twice as long is gone, so a session none of whose gaps lies in between is cut at its long gaps, and
its reports depend on its own packets only (`session_isolated`).

For every gap in between it does depend on the others: a packet of any other session can make the
handler look at the flow, and put it back, at a moment when it is still active
(`session_not_isolated`).
-/

set_option autoImplicit false

namespace DnsHive

open Swarm FlowHandler

/-- The report of the end of a flow. -/
def Action.endRecord : Action → Option Record
  | expireFlow _ f => some (Output.expireFlow f)
  | _ => none

/-- The reports of the ends of the flows that are followed. -/
def ends (c : Selector) (trace : List Action) : List Record :=
  (history c trace).filterMap Action.endRecord

/-- The second packet comes within `TIMEOUT` of the first. -/
def closeIn (i j : DnsDB × Property) : Bool := j.2.tvSec < i.2.tvSec + timeout

/-- No gap between two consecutive packets is so long that the flow may end in it, and so short
that it need not. -/
def Clear (is : List (DnsDB × Property)) : Prop :=
  is.IsChain fun i j ↦ closeIn i j ∨ i.2.tvSec + 2 * timeout ≤ j.2.tvSec

/-- The report of the flow of these packets. -/
def reported (is : List (DnsDB × Property)) : Option Record :=
  is.head?.bind fun i ↦ (hosts i.1 i.2).map fun names ↦
    Output.expireFlow ((Flow.new i.2 names.1 names.2).updates is)

variable {c : Selector} {ins : List (DnsDB × Property)} {trace : List Action} {blocks : List Block}

theorem ends_updates (x : Ptr) (f : Flow) (is : List (DnsDB × Property)) :
    (updateActions x f is).filterMap Action.endRecord = [] := by
  induction is generalizing f with
  | nil => rfl
  | cons i is ih => exact ih _

theorem ends_story (b : Block) :
    b.story.filterMap Action.endRecord = [Output.expireFlow b.total] := by
  rw [Block.story, Block.opening, List.cons_append, List.filterMap_cons, List.filterMap_append,
    ends_updates]
  rfl

theorem Chronicle.ends (h : Chronicle c ins trace blocks) :
    ends c trace = blocks.map fun b ↦ Output.expireFlow b.total := by
  rw [DnsHive.ends, h.trace, List.filterMap_flatMap]
  simp only [ends_story]
  exact (List.map_eq_flatMap ..).symm

theorem Chronicle.reported (h : Chronicle c ins trace blocks) :
    (blocks.map Block.inputs).filterMap reported =
      blocks.map fun b ↦ Output.expireFlow b.total := by
  rw [List.filterMap_map, ← List.filterMap_eq_map]
  refine List.filterMap_congr fun b hb ↦ ?_
  simp [DnsHive.reported, Block.inputs, h.named b hb, Block.total, Block.opened]

theorem isChain_and {α : Type} {R S : α → α → Prop} {l : List α} (hR : l.IsChain R)
    (hS : l.IsChain S) : l.IsChain fun a b ↦ R a b ∧ S a b := by
  rw [List.isChain_iff_getElem] at *
  exact fun i hi ↦ ⟨hR i hi, hS i hi⟩

/-- If no gap is doubtful, the blocks are what the long gaps leave. -/
theorem Chronicle.cut {label : Bytes} (h : Chronicle (.session label) ins trace blocks)
    (hpos : ∀ i ∈ ins, 0 < i.2.tvSec) (hmono : ins.Pairwise fun i j ↦ i.2.tvSec ≤ j.2.tvSec)
    (hclear : Clear (ins.filter fun i ↦ i.2.ssnLabel = label)) :
    (ins.filter fun i ↦ i.2.ssnLabel = label).splitBy closeIn = blocks.map Block.inputs := by
  obtain ⟨hjoined, hparted⟩ := h.timely hpos hmono
  rw [← h.inputs label rfl] at hclear ⊢
  refine List.splitBy_eq_iff.mpr ⟨List.flatMap_def .., ?_, ?_, ?_⟩
  · simp [Block.inputs]
  · rintro is his
    obtain ⟨b, hb, rfl⟩ := List.mem_map.mp his
    have hgap := hclear.infix (List.infix_of_mem_flatten (List.mem_map_of_mem hb))
    refine (isChain_and (hjoined b hb) hgap).imp fun i j hij ↦ ?_
    exact hij.2.resolve_right fun hlong ↦ absurd hij.1 (by rw [Joined]; omega)
  · rw [List.isChain_map]
    refine hparted.imp fun b b' hbb' ↦ ⟨by simp [Block.inputs], by simp [Block.inputs], ?_⟩
    have hlast : b.inputs.getLast (by simp [Block.inputs]) = b.last :=
      Option.some.inj ((List.getLast?_eq_some_getLast _).symm.trans b.inputs_getLast?)
    rw [hlast, closeIn]
    exact decide_eq_false (not_lt.mpr hbb')

/-- **A session without doubtful gaps depends only on its own packets.**  For packets at positive
times that do not go back: two handlers that get the same packets of a session, at the same times
and with the same names known, report the same ends of its flows, whatever the packets of the other
sessions are. -/
theorem session_isolated (al al' : Allocator) (H H' : Bytes → Nat) (fuel fuel' : Nat)
    (label : Bytes) (ins ins' : List (DnsDB × Property))
    (haddr : ∀ i ∈ ins, i.2.HasAddrs) (haddr' : ∀ i ∈ ins', i.2.HasAddrs)
    (hhash : ∀ i ∈ ins, i.2.hashValue = H i.2.ssnLabel)
    (hhash' : ∀ i ∈ ins', i.2.hashValue = H' i.2.ssnLabel)
    (hpos : ∀ i ∈ ins, 0 < i.2.tvSec) (hpos' : ∀ i ∈ ins', 0 < i.2.tvSec)
    (hmono : ins.Pairwise fun i j ↦ i.2.tvSec ≤ j.2.tvSec)
    (hmono' : ins'.Pairwise fun i j ↦ i.2.tvSec ≤ j.2.tvSec)
    (hsame : (ins.filter fun i ↦ i.2.ssnLabel = label) =
      ins'.filter fun i ↦ i.2.ssnLabel = label)
    (hclear : Clear (ins.filter fun i ↦ i.2.ssnLabel = label))
    (hfuel : ins.length < fuel) (hfuel' : ins'.length < fuel') :
    ∃ trace trace', lifetime al fuel true ins = some trace ∧
      lifetime al' fuel' true ins' = some trace' ∧
      ends (.session label) trace = ends (.session label) trace' := by
  obtain ⟨trace, hlife, h⟩ := lifetime_chronicle al haddr hfuel
  obtain ⟨trace', hlife', h'⟩ := lifetime_chronicle al' haddr' hfuel'
  obtain ⟨blocks, hblocks⟩ := h (.session label) H hhash
  obtain ⟨blocks', hblocks'⟩ := h' (.session label) H' hhash'
  refine ⟨trace, trace', hlife, hlife', ?_⟩
  have hcut := hblocks.cut hpos hmono hclear
  have hcut' := hblocks'.cut hpos' hmono' (hsame ▸ hclear)
  rw [hblocks.ends, hblocks'.ends, ← hblocks.reported, ← hblocks'.reported, ← hcut, ← hcut', hsame]

theorem session_isolated_sample :
    ∃ trace trace',
      lifetime .above 20 true
        [(DnsDB.init, samplePacket [1] 1), (DnsDB.init, samplePacket [1] 300),
          (DnsDB.init, samplePacket [1] 900)] = some trace ∧
      lifetime .above 20 true
        [(DnsDB.init, samplePacket [1] 1), (DnsDB.init, samplePacket [1] 300),
          (DnsDB.init, samplePacket [2] 599), (DnsDB.init, samplePacket [1] 900)] = some trace' ∧
      ends (.session [1]) trace = ends (.session [1]) trace' :=
  session_isolated .above .above List.length List.length 20 20 [1] _ _ (by decide) (by decide)
    (by decide) (by decide) (by decide) (by decide) (by decide) (by decide) (by rfl)
    (by simp [Clear, closeIn, samplePacket, timeout]) (by decide) (by decide)

/-! ## The doubtful gaps -/

/-- What decides when the flow of a session ends. -/
structure Gauge where
  /-- When the last packet arrived. -/
  lastTs : Int
  clock : Nat
  /-- The deadline of the open flow, and when its last packet arrived. -/
  flow : Option (Nat × Int)
  deriving DecidableEq

namespace Gauge

def init : Gauge := ⟨0, 0, none⟩

/-- The flow at the time `now` and the clock `clock`, and how many flows have ended. -/
def aged (now : Int) (clock : Nat) : Option (Nat × Int) → Option (Nat × Int) × Nat
  | none => (none, 0)
  | some (deadline, last) =>
    if clock ≤ deadline then (some (deadline, last), 0)
    else if now < last + timeout then (some (clock + timeout, last), 0)
    else (none, 1)

/-- One packet, for the session with this label. -/
def step (label : Bytes) (γ : Gauge) (i : DnsDB × Property) : Gauge × Nat :=
  let clock := γ.clock + elapsed γ.lastTs i.2.tvSec
  let (flow, n) := aged i.2.tvSec clock γ.flow
  let flow :=
    if i.2.ssnLabel = label then some ((flow.map Prod.fst).getD (clock + timeout), i.2.tvSec)
    else flow
  (⟨i.2.tvSec, clock, flow⟩, n)

end Gauge

/-- What the gauge reads of a flow. -/
def Session.gauge (S : Session) : Nat × Int := (S.deadline, S.flow.lastTs.getD 0)

/-- What it reads of the machine. -/
def Watch.gauge (w : Watch) : Gauge := ⟨w.lastTs, w.clock, w.session.map Session.gauge⟩

/-- How many flows have ended. -/
def endCount (o : List Action) : Nat := (o.filterMap Action.endRecord).length

variable {output : Bool} {now : Int} {clock : Nat} {σ σ' : Option Session} {o : List Action}
  {db : DnsDB} {p : Property} {label : Bytes}

theorem Aged.gauge (h : Aged true now clock σ o σ') (hwrap : clock + slots ≤ 2 ^ 64)
    (hdated : ∀ S ∈ σ, S.flow.lastTs.isSome) :
    (σ'.map Session.gauge, endCount o) = Gauge.aged now clock (σ.map Session.gauge) ∧
      ∀ S ∈ σ', S.flow.lastTs.isSome := by
  cases h with
  | idle => exact ⟨rfl, by simp⟩
  | @stays S hdue =>
    refine ⟨?_, hdated⟩
    simp [Gauge.aged, Session.gauge, hdue, endCount]
  | @rearmed S hdue hact =>
    obtain ⟨t, ht⟩ := Option.isSome_iff_exists.mp (hdated S rfl)
    have hlt := (activeAt_iff ht).mp hact
    refine ⟨?_, by rintro S' ⟨⟩; exact hdated S rfl⟩
    simp [Gauge.aged, Session.gauge, Nat.not_le.mpr (hdue hwrap), ht, hlt, endCount]
  | @closed S hdue hact =>
    obtain ⟨t, ht⟩ := Option.isSome_iff_exists.mp (hdated S rfl)
    rw [activeAt_iff ht] at hact
    refine ⟨?_, by simp⟩
    simp [Gauge.aged, Session.gauge, Nat.not_le.mpr (hdue hwrap), ht, hact, endCount, closing,
      report, Action.endRecord]

theorem Touched.gauge (h : Touched (.session label) true clock db p σ o σ')
    (hdated : ∀ S ∈ σ, S.flow.lastTs.isSome) :
    σ'.map Session.gauge =
        (if p.ssnLabel = label then
          some (((σ.map Session.gauge).map Prod.fst).getD (clock + timeout), p.tvSec)
        else σ.map Session.gauge) ∧
      endCount o = 0 ∧ ∀ S ∈ σ', S.flow.lastTs.isSome := by
  cases h with
  | other hc =>
    rw [Selector.sees_session, decide_eq_false_iff_not] at hc
    exact ⟨(if_neg hc).symm, rfl, hdated⟩
  | @joined S hc =>
    rw [Selector.sees_session, decide_eq_true_eq] at hc
    simp [hc, Session.gauge, endCount, Action.endRecord]
  | opened hc =>
    rw [Selector.sees_session, decide_eq_true_eq] at hc
    simp [hc, Session.gauge, endCount, Action.endRecord, report]

/-- The gauge has the clock of the machine. -/
theorem Watch.clock_of_runs {w : Watch} {outs : List (List Action)}
    (h : Machine.Runs (Watch.Step c output) .init ins outs w) (label : Bytes) :
    (Machine.exec (Gauge.step label) .init ins).1.lastTs = w.lastTs ∧
      (Machine.exec (Gauge.step label) .init ins).1.clock = w.clock := by
  induction h with
  | nil => exact ⟨rfl, rfl⟩
  | snoc hruns hstep ih =>
    rw [Machine.exec_concat]
    refine ⟨hstep.1.symm, ?_⟩
    rw [hstep.2.1, ← ih.1, ← ih.2]
    rfl

/-- **Below the wrap of the clock the gauge says when the flows end.** -/
theorem Watch.gauge_of_runs {w : Watch} {outs : List (List Action)}
    (h : Machine.Runs (Watch.Step (.session label) true) .init ins outs w)
    (hwrap : w.clock + slots ≤ 2 ^ 64) :
    Machine.exec (Gauge.step label) .init ins = (w.gauge, outs.map endCount) ∧
      ∀ S ∈ w.session, S.flow.lastTs.isSome := by
  induction h with
  | nil => exact ⟨rfl, by simp [Watch.init]⟩
  | @snoc is os w₁ w₂ i o hruns hstep ih =>
    obtain ⟨hts, hclock, σ, o₁, o₂, haged, htouched, rfl⟩ := hstep
    obtain ⟨hexec, hdated⟩ := ih (by omega)
    obtain ⟨hg₁, hd₁⟩ := haged.gauge hwrap hdated
    obtain ⟨hg₂, hzero, hd₂⟩ := htouched.gauge hd₁
    have hnext : Gauge.step label w₁.gauge i = (w₂.gauge, endCount o₁) := by
      simp only [Gauge.step, Watch.gauge, ← hclock, ← hg₁, hg₂, hts]
    have hcount : endCount (o₁ ++ o₂) = endCount o₁ := by
      rw [endCount, List.filterMap_append, List.length_append, ← endCount, ← endCount, hzero]
      rfl
    refine ⟨?_, hd₂⟩
    rw [Machine.exec_concat, hexec, hnext, List.map_append, List.map_singleton, hcount]

theorem endCount_flatten (os : List (List Action)) :
    endCount os.flatten = (os.map endCount).sum := by
  induction os with
  | nil => rfl
  | cons o os ih =>
    rw [List.flatten_cons, endCount, List.filterMap_append, List.length_append, ← endCount,
      ← endCount, ih, List.map_cons, List.sum_cons]

/-- How often a flow of a session is reported to end, from the times of the packets alone. -/
theorem ends_length (al : Allocator) (H : Bytes → Nat) (fuel : Nat) (label : Bytes)
    (ins : List (DnsDB × Property)) (haddr : ∀ i ∈ ins, i.2.HasAddrs)
    (hhash : ∀ i ∈ ins, i.2.hashValue = H i.2.ssnLabel)
    (hfuel : ins.length < fuel)
    (hwrap : (Machine.exec (Gauge.step label) .init ins).1.clock + slots ≤ 2 ^ 64) :
    ∃ trace, lifetime al fuel true ins = some trace ∧ (ends (.session label) trace).length =
      (Machine.exec (Gauge.step label) .init ins).2.sum +
        (Machine.exec (Gauge.step label) .init ins).1.flow.toList.length := by
  obtain ⟨s, outs, s', acts, hrun, hdestroy, -, hw⟩ := watch_life al true haddr hfuel
  obtain ⟨w, hruns, hclose⟩ := hw (.session label) H hhash
  rw [(Watch.clock_of_runs hruns label).2] at hwrap
  obtain ⟨hgauge, -⟩ := Watch.gauge_of_runs hruns hwrap
  refine ⟨outs.flatten ++ acts, by simp [lifetime, hrun, hdestroy], ?_⟩
  rw [hgauge, ends, history_append, List.filterMap_append, List.length_append, history_flatten,
    hclose]
  refine congrArg₂ (· + ·) (endCount_flatten _) ?_
  rw [Watch.gauge]
  cases w.session with
  | none => rfl
  | some S => rfl

/-- Three packets of one session, the last one `g` seconds after the second; with one of another
session before it, or not. -/
def alone (g : Nat) : List (DnsDB × Property) :=
  [(DnsDB.init, samplePacket [1] 1), (DnsDB.init, samplePacket [1] 301),
    (DnsDB.init, samplePacket [1] (301 + g))]

/-- The same, with a packet of another session just before the last one. -/
def accompanied (g : Nat) : List (DnsDB × Property) :=
  [(DnsDB.init, samplePacket [1] 1), (DnsDB.init, samplePacket [1] 301),
    (DnsDB.init, samplePacket [2] 600), (DnsDB.init, samplePacket [1] (301 + g))]

/-- Alone, the flow is found idle by the last packet. -/
theorem gauge_alone {g : Nat} (hlow : timeout ≤ g) :
    Machine.exec (Gauge.step [1]) .init (alone g) =
      (⟨301 + g, 300 + g, some (600 + g, 301 + g)⟩, [0, 0, 1]) := by
  have hopen : Gauge.step [1] .init (DnsDB.init, samplePacket [1] 1) =
      (⟨1, 0, some (300, 1)⟩, 0) := by decide
  have hjoin : Gauge.step [1] ⟨1, 0, some (300, 1)⟩ (DnsDB.init, samplePacket [1] 301) =
      (⟨301, 300, some (300, 301)⟩, 0) := by decide
  have hend : Gauge.step [1] ⟨301, 300, some (300, 301)⟩ (DnsDB.init, samplePacket [1] (301 + g)) =
      (⟨301 + g, 300 + g, some (600 + g, 301 + g)⟩, 1) := by
    have helapsed : elapsed 301 (301 + g) = g := by
      rw [elapsed_eq _ (by decide)]
      omega
    have haged : Gauge.aged (301 + g) (300 + g) (some (300, 301)) = (none, 1) := by
      simp only [timeout] at hlow
      have hdue : ¬ 300 + g ≤ 300 := by omega
      have hidle : ¬ (301 + g : Int) < 301 + timeout := by simp only [timeout]; omega
      rw [Gauge.aged, if_neg hdue, if_neg hidle]
    simp only [Gauge.step, samplePacket, helapsed, haged, timeout]
    simp
    omega
  simp only [alone, Machine.exec, hopen, hjoin, hend]

/-- In company, it is put back just before it is idle. -/
theorem gauge_accompanied {g : Nat} (hlow : timeout ≤ g) (hhigh : g < 2 * timeout) :
    Machine.exec (Gauge.step [1]) .init (accompanied g) =
      (⟨301 + g, 300 + g, some (899, 301 + g)⟩, [0, 0, 0, 0]) := by
  have hopen : Gauge.step [1] .init (DnsDB.init, samplePacket [1] 1) =
      (⟨1, 0, some (300, 1)⟩, 0) := by decide
  have hjoin : Gauge.step [1] ⟨1, 0, some (300, 1)⟩ (DnsDB.init, samplePacket [1] 301) =
      (⟨301, 300, some (300, 301)⟩, 0) := by decide
  have hback : Gauge.step [1] ⟨301, 300, some (300, 301)⟩ (DnsDB.init, samplePacket [2] 600) =
      (⟨600, 599, some (899, 301)⟩, 0) := by decide
  have hstay : Gauge.step [1] ⟨600, 599, some (899, 301)⟩
      (DnsDB.init, samplePacket [1] (301 + g)) =
      (⟨301 + g, 300 + g, some (899, 301 + g)⟩, 0) := by
    simp only [timeout] at hlow hhigh
    have hclock : 599 + elapsed 600 (301 + g) = 300 + g := by
      rw [elapsed_eq _ (by decide)]
      omega
    have haged : Gauge.aged (301 + g) (300 + g) (some (899, 301)) = (some (899, 301), 0) := by
      have hdue : 300 + g ≤ 899 := by omega
      rw [Gauge.aged, if_pos hdue]
    simp only [Gauge.step, samplePacket, hclock, haged]
    simp
  simp only [accompanied, Machine.exec, hopen, hjoin, hback, hstay]

/-- **For every doubtful gap the other sessions matter.**  The same three packets of a session are
reported as two flows or as one. -/
theorem session_not_isolated (g : Nat) (hlow : timeout ≤ g) (hhigh : g < 2 * timeout) :
    ∃ trace trace', lifetime .above 20 true (alone g) = some trace ∧
      lifetime .above 20 true (accompanied g) = some trace' ∧
      (ends (.session [1]) trace).length = 2 ∧ (ends (.session [1]) trace').length = 1 := by
  obtain ⟨trace, hlife, hends⟩ := ends_length .above List.length 20 [1] (alone g)
    (by simp [alone, samplePacket, Property.HasAddrs]) (by simp [alone, samplePacket])
    (by simp [alone]) (by rw [gauge_alone hlow]; simp only [slots, timeout] at *; omega)
  obtain ⟨trace', hlife', hends'⟩ := ends_length .above List.length 20 [1] (accompanied g)
    (by simp [accompanied, samplePacket, Property.HasAddrs])
    (by simp [accompanied, samplePacket]) (by simp [accompanied])
    (by rw [gauge_accompanied hlow hhigh]; simp only [slots, timeout] at *; omega)
  rw [gauge_alone hlow] at hends
  rw [gauge_accompanied hlow hhigh] at hends'
  exact ⟨trace, trace', hlife, hlife', hends, hends'⟩

/-- Two runs with the same packets of a session, at positive times that do not go back, and
different reports of it. -/
theorem isolation_fails :
    (∀ i ∈ alone 300 ++ accompanied 300,
      i.2.HasAddrs ∧ i.2.hashValue = i.2.ssnLabel.length ∧ 0 < i.2.tvSec) ∧
      ((alone 300).Pairwise fun i j ↦ i.2.tvSec ≤ j.2.tvSec) ∧
      ((accompanied 300).Pairwise fun i j ↦ i.2.tvSec ≤ j.2.tvSec) ∧
      ((alone 300).filter fun i ↦ i.2.ssnLabel = [1]) =
        ((accompanied 300).filter fun i ↦ i.2.ssnLabel = [1]) ∧
      ∃ trace trace', lifetime .above 20 true (alone 300) = some trace ∧
        lifetime .above 20 true (accompanied 300) = some trace' ∧
        ends (.session [1]) trace ≠ ends (.session [1]) trace' := by
  refine ⟨by decide, by decide, by decide, rfl, ?_⟩
  obtain ⟨trace, trace', hlife, hlife', htwo, hone⟩ :=
    session_not_isolated 300 (by decide) (by decide)
  refine ⟨trace, trace', hlife, hlife', fun heq ↦ ?_⟩
  rw [heq, hone] at htwo
  exact absurd htwo (by decide)

end DnsHive
