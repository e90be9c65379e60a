import DnsHive.Flow.Reception

/-!
# One session at a time

The handler serves all sessions with one table.  Seen from a single session, it is a small machine:
there is an open flow or there is none; when a packet of any session arrives the flow may stay, be
re-armed or be closed (`Aged`); and if the packet is one of this session it joins the flow or opens
one (`Touched`).  `Watch.Step` is that machine, and it is the abstract model of the handler: which
sessions share a slot or a bucket, and in which order they are examined, is no longer visible in it.

The machine may follow all flows with a given label, or a single object (`Selector`).  That the
label is the label of at most one flow at a time rests on the hash being a function of it; for an
object nothing has to be assumed.

The next file shows that the handler, run on any packets, is this machine for every selector.
-/

set_option autoImplicit false

namespace DnsHive

open Swarm FlowHandler

/-- Which flows are followed. -/
inductive Selector where
  /-- Those of the session with this label. -/
  | session (label : Bytes)
  /-- Those at this address. -/
  | object (x : Ptr)

/-- Is the flow at `x`, with this label, one of them? -/
def Selector.sees : Selector → Ptr → Bytes → Bool
  | session label, _, key => key = label
  | object y, x, _ => x = y

/-- The flow that an action is about, and its label. -/
def Action.subject : Action → Option (Ptr × Bytes)
  | put .. => none
  | newFlow x f | expireFlow x f | delete x f | update x f _ => some (x, f.key)

/-- The actions about the flows that are followed. -/
def history (c : Selector) (acts : List Action) : List Action :=
  acts.filter fun a ↦ a.subject.any fun s ↦ c.sees s.1 s.2

/-- An open flow. -/
structure Session where
  node : Addr
  flow : Flow
  /-- Until when it is not examined. -/
  deadline : Nat

/-! ## The machine -/

/-- What can happen to the flow of a session when a packet arrives at `now` and brings the clock of
the table to `clock`.  It is not examined before its deadline has passed, unless the clock has come
so far that `curr_tick_` may have wrapped. -/
inductive Aged (output : Bool) (now : Int) (clock : Nat) :
    Option Session → List Action → Option Session → Prop
  | idle : Aged output now clock none [] none
  | stays {S : Session} : clock ≤ S.deadline → Aged output now clock (some S) [] (some S)
  | rearmed {S : Session} : (clock + slots ≤ 2 ^ 64 → S.deadline < clock) → activeAt now S.flow →
    Aged output now clock (some S) [] (some { S with deadline := clock + timeout })
  | closed {S : Session} : (clock + slots ≤ 2 ^ 64 → S.deadline < clock) → ¬ activeAt now S.flow →
    Aged output now clock (some S) (closing output (.node S.node) S.flow) none

/-- What the packet then does to it. -/
inductive Touched (c : Selector) (output : Bool) (clock : Nat) (db : DnsDB) (p : Property) :
    Option Session → List Action → Option Session → Prop
  | other {σ : Option Session} {x : Addr} : c.sees (.node x) p.ssnLabel = false →
    Touched c output clock db p σ [] σ
  | joined {S : Session} : c.sees (.node S.node) p.ssnLabel → S.flow.key = p.ssnLabel →
    Touched c output clock db p (some S) [.update (.node S.node) S.flow p]
      (some { S with flow := S.flow.update p })
  | opened {x : Addr} {src dst : Bytes} : c.sees (.node x) p.ssnLabel →
    hosts db p = some (src, dst) →
    Touched c output clock db p none
      (report output (.newFlow (.node x) (.new p src dst)) ++
        [.update (.node x) (.new p src dst) p])
      (some ⟨x, (Flow.new p src dst).update p, clock + timeout⟩)

/-- The state of the machine. -/
structure Watch where
  /-- When the last packet arrived. -/
  lastTs : Int
  clock : Nat
  session : Option Session

def Watch.init : Watch := ⟨0, 0, none⟩

/-- One packet. -/
def Watch.Step (c : Selector) (output : Bool) (w : Watch) (i : DnsDB × Property)
    (o : List Action) (w' : Watch) : Prop :=
  w'.lastTs = i.2.tvSec ∧ w'.clock = w.clock + elapsed w.lastTs i.2.tvSec ∧
    ∃ σ o₁ o₂, Aged output i.2.tvSec w'.clock w.session o₁ σ ∧
      Touched c output w'.clock i.1 i.2 σ o₂ w'.session ∧ o = o₁ ++ o₂

/-! ## Histories -/

section History

variable {c : Selector} {output : Bool} {T : Table Flow} {keep : Flow → Bool}

@[simp] theorem history_nil : history c [] = [] := rfl

@[simp] theorem history_append (as bs : List Action) :
    history c (as ++ bs) = history c as ++ history c bs := List.filter_append ..

theorem history_flatten (outs : List (List Action)) :
    history c outs.flatten = (outs.map (history c)).flatten := List.filter_flatten ..

/-- The bookkeeping of the table belongs to no history. -/
theorem history_isEvent (as : List Action) :
    history c (as.filter Action.isEvent) = history c as := by
  rw [history, history, List.filter_filter]
  refine List.filter_congr fun a _ ↦ ?_
  cases a <;> simp [Action.subject, Action.isEvent]

theorem history_of_sees {as : List Action} {x : Ptr} {key : Bytes}
    (h : ∀ a ∈ as, a.subject = some (x, key)) :
    history c as = if c.sees x key then as else [] := by
  split
  next hc => exact List.filter_eq_self.mpr fun a ha ↦ by simp [h a ha, hc]
  next hc => exact List.filter_eq_nil_iff.mpr fun a ha ↦ by simp [h a ha, hc]

theorem report_subject {a : Action} {x : Ptr} {key : Bytes} (ha : a.subject = some (x, key)) :
    ∀ b ∈ report output a, b.subject = some (x, key) := by
  cases output <;> simp [report, ha]

theorem closing_subject (x : Ptr) (f : Flow) :
    ∀ a ∈ closing output x f, a.subject = some (x, f.key) := by
  intro a ha
  rcases List.mem_append.mp ha with ha | ha
  · exact report_subject (a := .expireFlow x f) rfl a ha
  · rw [List.mem_singleton.mp ha]
    rfl

theorem history_verdict {x : Addr} {f : Flow} (hobj : T.obj x = some f) :
    history c (T.verdict output keep x) =
      if c.sees (.node x) f.key then T.verdict output keep x else [] := by
  refine history_of_sees fun a ha ↦ ?_
  rw [Table.verdict, hobj] at ha
  by_cases hk : keep f
  · simp [hk] at ha
  · simp only [hk] at ha
    exact closing_subject _ _ a ha

theorem history_settle : history c (T.settleActions output keep) =
    T.expired.flatMap fun x ↦ history c (T.verdict output keep x) := List.filter_flatMap ..

/-- None of the expired flows is followed. -/
theorem history_settle_none
    (h : ∀ x ∈ T.expired, ∃ f, T.obj x = some f ∧ c.sees (.node x) f.key = false) :
    history c (T.settleActions output keep) = [] := by
  rw [history_settle, List.flatMap_eq_nil_iff]
  intro x hx
  obtain ⟨f, hobj, hc⟩ := h x hx
  simp [history_verdict hobj, hc]

/-- One of them is. -/
theorem history_settle_one {x : Addr} {f : Flow} (hnd : T.expired.Nodup) (hx : x ∈ T.expired)
    (hobj : T.obj x = some f) (hc : c.sees (.node x) f.key)
    (h : ∀ y ∈ T.expired, y ≠ x → ∃ g, T.obj y = some g ∧ c.sees (.node y) g.key = false) :
    history c (T.settleActions output keep) = T.verdict output keep x := by
  have hzero : ∀ ys : List Addr, (∀ y ∈ ys, y ∈ T.expired ∧ y ≠ x) →
      (ys.flatMap fun y ↦ history c (T.verdict output keep y)) = [] := by
    intro ys hys
    rw [List.flatMap_eq_nil_iff]
    intro y hy
    obtain ⟨g, hg, hcg⟩ := h y (hys y hy).1 (hys y hy).2
    simp [history_verdict hg, hcg]
  obtain ⟨as, bs, hsplit⟩ := List.append_of_mem hx
  rw [hsplit, List.nodup_middle, List.nodup_cons, List.mem_append, not_or] at hnd
  rw [history_settle, hsplit, List.flatMap_append, List.flatMap_cons, hzero as fun y hy ↦ ?_,
    hzero bs fun y hy ↦ ?_, history_verdict hobj, if_pos hc, List.nil_append, List.append_nil]
  · exact ⟨by simp [hsplit, hy], fun e ↦ hnd.1.2 (e ▸ hy)⟩
  · exact ⟨by simp [hsplit, hy], fun e ↦ hnd.1.1 (e ▸ hy)⟩

end History

end DnsHive
