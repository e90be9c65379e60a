import DnsHive.DnsDB.Lookup
import DnsHive.Hive.Exits

/-!
# The names of the client and of the server

A flow is shown under two names, which are looked up when its first packet comes and then stay as
they are.  The name of the client is always the one that the answers before have given to the
address of the source.  The name of the server is looked up with the length of the *other* address,
and so it is the right one only if that makes no difference: the two lengths are equal, or both
leave the address with the same name (`names_attributed`).
-/

set_option autoImplicit false

namespace DnsHive

open Chase Msgpack Swarm

/-- The answers that an event brings. -/
def answersOf (e : Event) : List Answer := if e.1.isPacket then [] else DnsDB.answers e.2

/-- The name of an address after the answers `rs`: the aliases are traced from the name in the first
answer with exactly these bytes, and if there is none, it is the text of the address. -/
def attributed (rs : List Answer) (text bytes : Bytes) : Bytes :=
  ((firstName Answer.key rs bytes).map (follow (aliases rs) 10)).getD text

/-- The name of the source of a packet. -/
def clientName (rs : List Answer) (p : Property) : Option Bytes :=
  p.srcPtr.map fun sAddr ↦ attributed rs p.srcAddr (sAddr.toBytes p.srcLen)

/-- The name of its destination, if the address has `len` bytes. -/
def serverNameAt (rs : List Answer) (p : Property) (len : Nat) : Option Bytes :=
  p.dstPtr.map fun dAddr ↦ attributed rs p.dstAddr (dAddr.toBytes len)

/-- The name of its destination. -/
def serverName (rs : List Answer) (p : Property) : Option Bytes := serverNameAt rs p p.dstLen

/-- The lengths of the two addresses are equal, or it makes no difference to the name of the
destination which of them is taken. -/
def LengthsAgree (rs : List Answer) (p : Property) : Prop :=
  p.srcLen = p.dstLen ∨ serverNameAt rs p p.srcLen = serverNameAt rs p p.dstLen

/-- What counts is the name: equal lengths are the case in which no answer has to be looked at. -/
theorem lengthsAgree_iff {rs : List Answer} {p : Property} :
    LengthsAgree rs p ↔ serverNameAt rs p p.srcLen = serverNameAt rs p p.dstLen :=
  or_iff_right_of_imp fun hlen ↦ by rw [hlen]

/-- The value that a record gives for a key. -/
def field (key : Bytes) : Record → Option Token
  | .packMap _ :: r => field key r
  | k :: v :: r => if k = str key then some v else field key r
  | _ => none

/-- After the events `pre`, the packet `p` opens the flow `f` at `x`; and `rest` is what is done
from then on, up to the end of the handler. -/
def Opens (es : List Event) (outs : List (List Action)) (acts : List Action) (pre : List Event)
    (p : Property) (x : Ptr) (f : Flow) (rest : List Action) : Prop :=
  ∃ ev post before now₁ now₂ after, es = pre ++ (ev, p) :: post ∧
    outs = before ++ (now₁ ++ .newFlow x f :: now₂) :: after ∧ before.length = pre.length ∧
    rest = now₂ ++ after.flatten ++ acts

/-- No name is known, and there has been no packet. -/
structure Hive.Fresh (h : Hive) : Prop where
  revMap : h.dnsDb.revMap = ∅
  cnameMap : h.dnsDb.cnameMap = ∅
  ipFlow : h.ipFlow = FlowHandler.init true

theorem Hive.init_fresh : init.Fresh := ⟨rfl, rfl, rfl⟩

/-! ## What is known when a packet comes -/

variable {σ : Type} {c : Codec} {srv : Redis σ} {al : Allocator} {fuel : Nat}

variable {w w' : Hive × σ} {e : Event} {acts : List Action}

/-- A packet goes to the handler of the flows, and the names stay as they are. -/
theorem deliver_packet (he : e.1.isPacket)
    (h : Hive.deliver c srv al fuel w e = some (w', acts)) :
    ∃ ipFlow, w.1.ipFlow.recv al fuel (w.1.dnsDb, e.2) = some (ipFlow, acts) ∧
      w'.1.dnsDb = w.1.dnsDb := by
  simp only [Hive.deliver, he, if_true, Option.bind_eq_bind, Option.bind_eq_some_iff,
    Option.pure_def, Option.some_inj, Prod.mk.injEq] at h
  obtain ⟨⟨ipFlow, acts'⟩, hrecv, rfl, rfl⟩ := h
  exact ⟨ipFlow, hrecv, rfl⟩

/-- Answers go to the handler of the names, and nothing is done to the flows. -/
theorem deliver_answers (he : ¬ e.1.isPacket)
    (h : Hive.deliver c srv al fuel w e = some (w', acts)) :
    acts = [] ∧ ∃ records,
      DnsDB.recv c srv (w.1.dnsDb, w.2) e.2 = some ((w'.1.dnsDb, w'.2), records) := by
  simp only [Hive.deliver, he, Bool.false_eq_true, if_false, Option.bind_eq_bind,
    Option.bind_eq_some_iff, Option.pure_def, Option.some_inj, Prod.mk.injEq] at h
  obtain ⟨⟨⟨dnsDb, st⟩, records⟩, hrecv, rfl, rfl⟩ := h
  exact ⟨rfl, records, hrecv⟩

theorem learned_of_deliver (h : Hive.deliver c srv al fuel w e = some (w', acts)) :
    Learned w.1.dnsDb (answersOf e) w'.1.dnsDb := by
  rw [answersOf]
  split_ifs with he
  · obtain ⟨ipFlow, -, hsame⟩ := deliver_packet he h
    exact hsame ▸ .nil _
  · obtain ⟨-, records, hrecv⟩ := deliver_answers he h
    obtain ⟨outs, hrun, -⟩ := (recv_eq_run c srv _ _ _ _).mp hrecv
    exact .of_taken (taken_of_run hrun)

/-- The packets bring nothing to be known. -/
theorem learned_of_run {es : List Event} {outs : List (List Action)}
    (h : Machine.run (Hive.deliver c srv al fuel) w es = some (w', outs)) :
    Learned w.1.dnsDb (es.flatMap answersOf) w'.1.dnsDb := by
  induction es using List.reverseRecOn generalizing w' outs with
  | nil =>
    obtain ⟨rfl, rfl⟩ := Prod.mk.inj (Option.some.inj h)
    exact .nil _
  | append_singleton es e ih =>
    obtain ⟨w₁, outs₁, outs₂, hrun, hlast, rfl⟩ := Machine.run_append_iff.mp h
    obtain ⟨acts, hdeliver, rfl⟩ := Machine.run_singleton_iff.mp hlast
    rw [List.flatMap_append, List.flatMap_singleton]
    exact (ih hrun).append (learned_of_deliver hdeliver)

/-- The names under which the handler opens a flow. -/
theorem hosts_of_learned {db db' : DnsDB} {rs : List Answer} (h : Learned db rs db')
    (hrev : db.revMap = ∅) (hcname : db.cnameMap = ∅) {p : Property} {src dst : Bytes}
    (hhosts : FlowHandler.hosts db' p = some (src, dst)) :
    clientName rs p = some src ∧ serverNameAt rs p p.srcLen = some dst := by
  rw [FlowHandler.hosts] at hhosts
  cases hs : p.srcPtr with
  | none => simp [hs] at hhosts
  | some sAddr =>
    cases hd : p.dstPtr with
    | none => simp [hs, hd] at hhosts
    | some dAddr =>
      simp only [hs, hd, h.lookup_of_empty hrev hcname, Option.some_inj, Prod.mk.injEq] at hhosts
      obtain ⟨rfl, rfl⟩ := hhosts
      exact ⟨by rw [clientName, hs]; rfl, by rw [serverNameAt, hd]; rfl⟩

/-- A call of the handler opens a flow for its packet only, and with the names known then. -/
theorem Delivered.callOk {es : List Event} {outs : List (List Action)}
    (h : Delivered al fuel w es outs w') (haddr : ∀ p ∈ packets es, p.HasAddrs)
    (hfuel : es.length < fuel) {p : Property} (hp : p.HasAddrs) {s : FlowHandler}
    (hrecv : w'.1.ipFlow.recv al fuel (w'.1.dnsDb, p) = some (s, acts)) :
    CallOk (w'.1.dnsDb, p) acts := by
  obtain ⟨-, ins, outs', hins, hrun, -⟩ := h
  obtain ⟨haddr', hle⟩ := calls_of_packets hins haddr
  have hlen : ins.length < fuel := hle.trans_lt hfuel
  obtain ⟨s₁, os, T, hrun', hsound, -, hheld, -⟩ := watch_init al true haddr' hlen.le
  obtain ⟨rfl, -⟩ := Prod.mk.inj (Option.some.inj (hrun.symm.trans hrun'))
  obtain ⟨s₂, acts', T', hrecv', -, -, -, hcall, -⟩ :=
    recv_watches hsound al (i := (w'.1.dnsDb, p)) hp (hheld.trans_lt hlen)
  obtain ⟨-, rfl⟩ := Prod.mk.inj (Option.some.inj (hrecv.symm.trans hrecv'))
  exact hcall

/-- **The names of a new flow.** -/
theorem Opens.names {es pre : List Event} {outs : List (List Action)} {rest : List Action}
    {p : Property} {x : Ptr} {f : Flow} (hfresh : w.1.Fresh)
    (hreply : w.1.dnsDb.redisCtx → ∀ st k v, (srv.command st (.lpush k v)).2.isSome)
    (haddr : ∀ p ∈ packets es, p.HasAddrs) (hfuel : es.length ≤ fuel)
    (hrun : Machine.run (Hive.deliver c srv al fuel) w es = some (w', outs))
    (hopens : Opens es outs acts pre p x f rest) :
    clientName (pre.flatMap answersOf) p = some f.cName ∧
      serverNameAt (pre.flatMap answersOf) p p.srcLen = some f.sName := by
  obtain ⟨ev, post, before, now₁, now₂, after, rfl, rfl, hlen, -⟩ := hopens
  -- the run up to the packet, and the call for it
  obtain ⟨w₁, before', after', hpre, hpost, houts⟩ := Machine.run_append_iff.mp hrun
  obtain ⟨w₂, now, after'', hdeliver, -, rfl⟩ := Machine.run_cons_iff.mp hpost
  obtain ⟨rfl, hrest⟩ := List.append_inj houts (hlen.trans (Machine.run_length hpre).symm)
  obtain ⟨rfl, -⟩ := List.cons.inj hrest
  have hprefix : pre.length < fuel := by
    rw [List.length_append, List.length_cons] at hfuel
    omega
  have hsub : ∀ q ∈ packets pre, q.HasAddrs := fun q hq ↦ haddr q (by
    rw [packets, List.filter_append, List.map_append]
    exact List.mem_append_left _ hq)
  obtain ⟨w₃, outs₃, hpre', hdelivered⟩ := deliver_run c al hfresh.ipFlow hreply hsub hprefix.le
  obtain ⟨rfl, rfl⟩ := Prod.mk.inj (Option.some.inj (hpre.symm.trans hpre'))
  by_cases hev : ev.isPacket
  · have hp : p.HasAddrs := haddr p (by simp [packets, hev])
    obtain ⟨ipFlow, hrecv, -⟩ := deliver_packet hev hdeliver
    obtain ⟨src, dst, hhosts, rfl⟩ :=
      (hdelivered.callOk hsub hprefix hp hrecv).opened x f (by simp)
    exact hosts_of_learned (learned_of_run hpre) hfresh.revMap hfresh.cnameMap hhosts
  · simpa using (deliver_answers hev hdeliver).1

/-! ## What is reported -/

theorem str_injective {a b : Bytes} (h : str a = str b) : a = b := by
  simpa [str] using h

/-- The report of a new flow and that of its end name the same client and the same server. -/
theorem reports_names {f g : Flow} (hsame : f.Same g) :
    ∀ r ∈ [Output.newFlow f, Output.expireFlow g],
      field Output.kClient r = some (str f.cName) ∧
        field Output.kServer r = some (str f.sName) := by
  have hclient : g.cName = f.cName := by rw [hsame]
  have hserver : g.sName = f.sName := by rw [hsame]
  rw [← hclient, ← hserver]
  simp only [List.forall_mem_cons, List.not_mem_nil, false_imp_iff, implies_true, and_true]
  exact ⟨⟨by rw [hclient]; rfl, by rw [hserver]; rfl⟩, rfl, rfl⟩

/-- **Which names are attributed to the right address.**  For any answers and packets: when a packet
opens a flow, the flow ends once, and the reports of its beginning and of its end name as the client
what the answers up to then have given to the source of the packet.  They name as the server what
the answers have given to its destination exactly if the lengths agree. -/
theorem names_attributed (c : Codec) (srv : Redis σ) (al : Allocator) (fuel : Nat) (w : Hive × σ)
    (hfresh : w.1.Fresh)
    (hreply : w.1.dnsDb.redisCtx → ∀ st k v, (srv.command st (.lpush k v)).2.isSome)
    (es : List Event) (haddr : ∀ p ∈ packets es, p.HasAddrs) (hfuel : es.length < fuel) :
    ∃ w' outs s acts, Machine.run (Hive.deliver c srv al fuel) w es = some (w', outs) ∧
      w'.1.ipFlow.destroy fuel = some (s, acts) ∧
      ∀ pre p x f rest, Opens es outs acts pre p x f rest →
        ∃ g, (untilOpened x rest).filter (Action.closes x) = [.expireFlow x g] ∧
          ∀ r ∈ [Output.newFlow f, Output.expireFlow g],
            field Output.kClient r = (clientName (pre.flatMap answersOf) p).map str ∧
            (field Output.kServer r = (serverName (pre.flatMap answersOf) p).map str ↔
              LengthsAgree (pre.flatMap answersOf) p) := by
  obtain ⟨w', outs, s, acts, hrun, -, hdestroy, hclosed⟩ :=
    deliver_closed c al hfresh.ipFlow hreply haddr hfuel
  refine ⟨w', outs, s, acts, hrun, hdestroy, fun pre p x f rest hopens ↦ ?_⟩
  obtain ⟨hclient, hserver⟩ := hopens.names hfresh hreply haddr hfuel.le hrun
  obtain ⟨ev, post, before, now₁, now₂, after, -, rfl, -, rfl⟩ := hopens
  obtain ⟨g, hends, hsame⟩ := hclosed (before.flatten ++ now₁) x f (now₂ ++ after.flatten ++ acts)
    (by simp)
  refine ⟨g, hends, fun r hr ↦ ?_⟩
  obtain ⟨hclient', hserver'⟩ := reports_names hsame r hr
  refine ⟨by rw [hclient', hclient]; rfl, ?_⟩
  rw [hserver', serverName, ← Option.map_some, ← hserver,
    (Option.map_injective fun _ _ ↦ str_injective).eq_iff, lengthsAgree_iff]

/-! ## A packet with two kinds of addresses -/

/-- The first packet opens a flow. -/
theorem recv_first (al : Allocator) (hfuel : 0 < fuel) (db : DnsDB) {p : Property}
    (hp : p.HasAddrs) :
    ∃ s acts x src dst, FlowHandler.recv al fuel (.init true) (db, p) = some (s, acts) ∧
      FlowHandler.hosts db p = some (src, dst) ∧ .newFlow x (.new p src dst) ∈ acts := by
  obtain ⟨s, acts, src, dst, accepted, T, hrecv, hhosts, hacc, hev, -⟩ :=
    FlowHandler.recv_eq (.init true) al db hp (show Table.empty.held.length < fuel from hfuel)
  cases hacc with
  | joined hget hobj =>
    have hmem := Table.settle_nodes_subset (Table.obj_of_get hget).1
    simpa [Table.empty, Table.nodes] using (Sound.init true).mem_advance.mp hmem
  | @opened x hget hobj =>
    have hnew : .newFlow (.node x) (.new p src dst) ∈ acts.filter Action.isEvent := by
      rw [hev]
      simp [FlowHandler.init, FlowHandler.report]
    exact ⟨s, acts, _, src, dst, hrecv, hhosts, (List.mem_filter.mp hnew).1⟩

/-- Two addresses, of four and of sixteen bytes, one of which begins with the other. -/
def prefixAnswers : Property :=
  { samplePacket [] 1 with
    valueSize := fun _ ↦ 2
    value := fun key i ↦
      if key = lit "dns.an_name" then
        ⟨if i = 0 then lit "a.example." else lit "b.example.", none, 0⟩
      else if key = lit "dns.an_type" then ⟨if i = 0 then lit "A" else lit "AAAA", none, 0⟩
      else ⟨[], some fun _ ↦ 20, if i = 0 then 4 else 16⟩ }

/-- A packet from an address of four bytes to the one of sixteen. -/
def mixedPacket : Property := { samplePacket [1] 5 with dstLen := 16 }

theorem names_attributed_sample :
    ∃ w' outs s acts,
      Machine.run (Hive.deliver format Redis.store .above 20) (Hive.init, ∅)
        [(.dnsAn, prefixAnswers), (.ipv6Packet, mixedPacket)] = some (w', outs) ∧
      w'.1.ipFlow.destroy 20 = some (s, acts) ∧
      ∀ pre p x f rest,
        Opens [(.dnsAn, prefixAnswers), (.ipv6Packet, mixedPacket)] outs acts pre p x f rest →
        ∃ g, (untilOpened x rest).filter (Action.closes x) = [.expireFlow x g] ∧
          ∀ r ∈ [Output.newFlow f, Output.expireFlow g],
            field Output.kClient r = (clientName (pre.flatMap answersOf) p).map str ∧
            (field Output.kServer r = (serverName (pre.flatMap answersOf) p).map str ↔
              LengthsAgree (pre.flatMap answersOf) p) :=
  names_attributed format Redis.store .above 20 (Hive.init, ∅) Hive.init_fresh
    (by simp [Hive.init, DnsDB.init]) _ (by decide) (by decide)

/-- The server is shown under the name of the shorter address. -/
theorem server_misnamed :
    ∃ w' outs s acts x f rest,
      Machine.run (Hive.deliver format Redis.store .above 20) (Hive.init, ∅)
        [(.dnsAn, prefixAnswers), (.ipv6Packet, mixedPacket)] = some (w', outs) ∧
      w'.1.ipFlow.destroy 20 = some (s, acts) ∧
      Opens [(.dnsAn, prefixAnswers), (.ipv6Packet, mixedPacket)] outs acts
        [(.dnsAn, prefixAnswers)] mixedPacket x f rest ∧
      serverName ([(.dnsAn, prefixAnswers)].flatMap answersOf) mixedPacket =
        some (lit "b.example.") ∧
      field Output.kServer (Output.newFlow f) = some (str (lit "a.example.")) := by
  have hreply : Hive.init.dnsDb.redisCtx →
      ∀ st k v, (Redis.store.command st (.lpush k v)).2.isSome := by simp [Hive.init, DnsDB.init]
  have haddr : ∀ p ∈ packets [(.dnsAn, prefixAnswers), (.ipv6Packet, mixedPacket)],
      p.HasAddrs := by decide
  obtain ⟨w', outs, s, acts, hrun, -, hdestroy, -⟩ := deliver_closed format .above
    (w := (Hive.init, ∅)) rfl hreply haddr (show _ < 20 by decide)
  -- the call with the answers, and the call that opens the flow
  obtain ⟨w₁, o₁, os, hanswers, hrest, rfl⟩ := Machine.run_cons_iff.mp hrun
  obtain ⟨o₂, hpacket, rfl⟩ := Machine.run_singleton_iff.mp hrest
  obtain ⟨w₂, hanswers', hflow, hhosts⟩ : ∃ w₂,
      Hive.deliver format Redis.store .above 20 (Hive.init, ∅) (.dnsAn, prefixAnswers) =
        some (w₂, []) ∧ w₂.1.ipFlow = FlowHandler.init true ∧
      FlowHandler.hosts w₂.1.dnsDb mixedPacket = some (lit "10.10.10.10", lit "a.example.") :=
    ⟨_, rfl, rfl, rfl⟩
  obtain ⟨rfl, rfl⟩ := Prod.mk.inj (Option.some.inj (hanswers.symm.trans hanswers'))
  obtain ⟨ipFlow, acts', x, src, dst, hrecv, hhosts', hnew⟩ :=
    recv_first .above (show 0 < 20 by decide) w₁.1.dnsDb (p := mixedPacket) (by decide)
  obtain ⟨rfl, rfl⟩ := Prod.mk.inj (Option.some.inj (hhosts.symm.trans hhosts'))
  obtain ⟨ipFlow', hrecv', -⟩ := deliver_packet rfl hpacket
  rw [hflow, hrecv] at hrecv'
  obtain ⟨rfl, rfl⟩ := Prod.mk.inj (Option.some.inj hrecv')
  obtain ⟨now₁, now₂, rfl⟩ := List.append_of_mem hnew
  exact ⟨w', _, s, acts, x, _, _, hrun, hdestroy,
    ⟨.ipv6Packet, [], [[]], now₁, now₂, [], rfl, rfl, rfl, rfl⟩, rfl, rfl⟩

end DnsHive
