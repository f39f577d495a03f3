import Mathlib.Logic.Relation
import Ns2.Dsdv.DsdvHandlers
import Ns2.Lib.Machine

/-! A network of DSDV nodes: the next hops for a destination form no cycle as long as no packets
wait for a route that is older than what their node knows. -/

namespace Ns2

/-- An update, by the routes that are read from it. -/
structure DsdvMessage where
  src : Nsaddr
  routes : List DsdvRoute

/-- The nodes and the updates that were sent. An update may reach a node at any time, any number of
times or never. -/
structure DsdvNetwork where
  node : Nsaddr → DsdvNode
  air : List DsdvMessage

/-- What happens at a node. -/
inductive DsdvEvent where
  | startUp
  | update (periodic : Bool) (dsts : List Nsaddr)
  | deliver (k fuel : ℕ)
  | timeout (nb : Nsaddr)
  | lost (next_hop dst : Nsaddr) (p : DsdvPacket)
  | data (dst : Nsaddr) (p : DsdvPacket)

namespace DsdvNetwork

def start (alpha_ wst0_ : Nsaddr → ℚ) (use_mac_ : Nsaddr → Bool) : DsdvNetwork :=
  ⟨fun a => ⟨a, 0, alpha_ a, wst0_ a, use_mac_ a, fun _ => none⟩, []⟩

/-- An update that reaches a node; `none` where a loop has not ended or an assertion failed. -/
def receive (n : DsdvNode) (now : ℚ) (fuel : ℕ) (m : DsdvMessage) : Option DsdvNode :=
  if m.src = n.myaddr_ then some n
  else (n.processRoutes fuel m.src now m.routes).toOption.map fun n => n.heardFrom m.src now

/-- An event at a node, with the update that it sends. -/
def handle (air : List DsdvMessage) (n : DsdvNode) (now : ℚ) :
    DsdvEvent → Option (DsdvNode × List DsdvMessage)
  | .startUp => some (n.startUp now, [])
  | .update periodic dsts =>
    let r := n.makeUpdate now periodic dsts
    some (r.1, if r.2 = [] then [] else [⟨n.myaddr_, r.2⟩])
  | .deliver k fuel => (air[k]?).elim (some (n, [])) fun m => (receive n now fuel m).map (·, [])
  | .timeout nb =>
    some (if (n.table_ nb).any DsdvEnt.timeout_event then n.helper_callback now nb else n, [])
  | .lost next_hop dst p => some (n.lost_link now next_hop dst p, [])
  | .data dst p => some ((n.recv now dst p).1, [])

/-- An event at a node and a time. -/
def step (s : DsdvNetwork) (e : Nsaddr × ℚ × DsdvEvent) : Option (DsdvNetwork × Unit) :=
  (handle s.air (s.node e.1) e.2.1 e.2.2).map fun r =>
    (⟨Function.update s.node e.1 r.1, s.air ++ r.2⟩, ())

/-- The node has an entry that is at least as new as the number and the metric. -/
def Knows (s : DsdvNetwork) (j d : Nsaddr) (seqnum metric : BitVec 32) : Prop :=
  ∃ e, (s.node j).table_ d = some e ∧
    (seqnum < e.seqnum ∨ seqnum = e.seqnum ∧ e.metric ≤ metric)

structure Inv (s : DsdvNetwork) : Prop where
  addr : ∀ i, (s.node i).myaddr_ = i
  nodes : ∀ i, (s.node i).Ok s.Knows
  air : ∀ m ∈ s.air, ∀ r ∈ m.routes, DsdvNode.Told s.Knows m.src r

/-- The next hop of a data packet. -/
def NextHop (s : DsdvNetwork) (d i j : Nsaddr) : Prop :=
  i ≠ d ∧ ∃ e, (s.node i).table_ d = some e ∧ e.metric ≠ dsdvBig ∧
    j = if e.metric > 1 then e.hop else d

/-- The routes of a delivered update for which packets wait are stored. -/
def NewsStored (s : DsdvNetwork) (e : Nsaddr × ℚ × DsdvEvent) : Prop :=
  ∀ k fuel m, e.2.2 = .deliver k fuel → s.air[k]? = some m → m.src ≠ e.1 →
    DsdvNode.AllStored m.src e.2.1 (s.node e.1) m.routes

variable {s : DsdvNetwork}

/-! ### One event -/

theorem knows_mono {i : Nsaddr} {n : DsdvNode} {air : List DsdvMessage}
    (hgrows : ∀ d, d ≠ i → (s.node i).Grows n d) {j d : Nsaddr} {seqnum metric : BitVec 32}
    (hj : j ≠ d) (h : s.Knows j d seqnum metric) :
    (⟨Function.update s.node i n, air⟩ : DsdvNetwork).Knows j d seqnum metric := by
  obtain ⟨e, he, hle⟩ := h
  by_cases hji : j = i
  · subst hji
    obtain ⟨e', he', hle'⟩ := hgrows d (Ne.symm hj) e he
    refine ⟨e', ?_, ?_⟩
    · rw [← he']
      exact congrArg (fun m : DsdvNode => m.table_ d) (Function.update_self ..)
    · unfold DsdvEnt.NotOlder at hle'
      bv_omega
  · refine ⟨e, ?_, hle⟩
    rw [← he]
    exact congrArg (fun m : DsdvNode => m.table_ d) (Function.update_of_ne hji ..)

/-- An update tells what the table has. -/
theorem makeUpdate_route {n : DsdvNode} {now : ℚ} {periodic : Bool} {dsts : List Nsaddr}
    {r : DsdvRoute} (hr : r ∈ (n.makeUpdate now periodic dsts).2) :
    ∃ e, (n.makeUpdate now periodic dsts).1.table_ r.dst = some e ∧
      r.metric = (e.metric.setWidth 8).setWidth 32 ∧ r.seqnum = e.seqnum := by
  obtain ⟨d, -, hd⟩ := List.mem_filterMap.mp hr
  obtain ⟨e, he, hr⟩ := Option.bind_eq_some_iff.mp hd
  split_ifs at hr with hin
  obtain rfl := Option.some.inj hr
  refine ⟨if d ∈ dsts ∧ e.included now periodic then e.advertise periodic else e, ?_, ?_, ?_⟩
  · rw [DsdvNode.makeUpdate]
    dsimp only
    rw [he]
    rfl
  · split_ifs <;> rfl
  · split_ifs <;> rfl

/-- The state after an event. -/
theorem Inv.next (h : s.Inv) {i : Nsaddr} {n : DsdvNode} {out : List DsdvMessage}
    (hn : (s.node i).Steps s.Knows n)
    (hout : ∀ m ∈ out, m.src = i ∧ ∀ r ∈ m.routes, ∃ e, n.table_ r.dst = some e ∧
      r.metric = (e.metric.setWidth 8).setWidth 32 ∧ r.seqnum = e.seqnum) :
    (⟨Function.update s.node i n, s.air ++ out⟩ : DsdvNetwork).Inv := by
  have hi := h.addr i
  have hself : Function.update s.node i n i = n := Function.update_self ..
  have hother : ∀ j, j ≠ i → Function.update s.node i n j = s.node j := fun j hj =>
    Function.update_of_ne hj ..
  have hK : ∀ j d v m, j ≠ d → s.Knows j d v m →
      (⟨Function.update s.node i n, s.air ++ out⟩ : DsdvNetwork).Knows j d v m :=
    fun j d v m hj => knows_mono (fun d hd => hn.grows d (hi.symm ▸ hd)) hj
  refine ⟨fun j => ?_, fun j => ?_, fun m hm r hr => ?_⟩
  · by_cases hj : j = i
    · rw [hj]
      exact (congrArg _ hself).trans (hn.addr.trans hi)
    · exact (congrArg _ (hother j hj)).trans (h.addr j)
  · have hj : (Function.update s.node i n j).Ok s.Knows := by
      by_cases hj : j = i
      · rw [hj, hself]
        exact hn.ok
      · rw [hother j hj]
        exact h.nodes j
    exact ⟨hj.seqno, fun d e he => (hj.entries d e he).mono hK⟩
  · rcases List.mem_append.mp hm with hm | hm
    · exact (h.air m hm r hr).mono hK
    · obtain ⟨hsrc, hroutes⟩ := hout m hm
      obtain ⟨e, he, hmetric, hseqnum⟩ := hroutes r hr
      have hok := hn.ok.entries _ e he
      have hbig := hok.big
      have hsame : r.metric = e.metric := by
        rw [hmetric]
        unfold dsdvBig at hbig
        apply BitVec.eq_of_toNat_eq
        rw [BitVec.toNat_setWidth, BitVec.toNat_setWidth]
        bv_omega
      refine ⟨hsame ▸ hbig, fun hr => ?_, .inr ⟨e, ?_, .inr ⟨hseqnum, ?_⟩⟩⟩
      · rw [hseqnum]
        exact hok.even (hsame ▸ hr)
      · rw [hsrc]
        exact (congrArg (fun m : DsdvNode => m.table_ r.dst) hself).trans he
      · rw [hsame]
        exact BitVec.le_refl _

/-- An update that is received. -/
theorem Inv.receive (h : s.Inv) {i : Nsaddr} {now : ℚ} {fuel : ℕ} {m : DsdvMessage} (hm : m ∈ s.air)
    (hnews : m.src ≠ i → DsdvNode.AllStored m.src now (s.node i) m.routes) {n : DsdvNode}
    (hn : receive (s.node i) now fuel m = some n) :
    (s.node i).Steps s.Knows n ∧ ∀ d, (s.node i).Grows n d := by
  have hok := h.nodes i
  rw [DsdvNetwork.receive, h.addr i] at hn
  by_cases hsrc : m.src = i
  · rw [if_pos hsrc] at hn
    obtain rfl := Option.some.inj hn
    exact ⟨hok.refl, fun d => .refl _ d⟩
  · rw [if_neg hsrc] at hn
    obtain ⟨n', hn', rfl⟩ := Option.map_eq_some_iff.mp hn
    cases hr : (s.node i).processRoutes fuel m.src now m.routes with
    | error e =>
      rw [hr] at hn'
      cases hn'
    | ok n'' =>
      rw [hr] at hn'
      obtain rfl := Option.some.inj hn'
      refine hok.update (h.air m hm) (hnews hsrc) ?_ hr
      rw [h.addr i]
      exact hsrc

/-- What an event does to its node, and what it sends. -/
theorem Inv.handle (h : s.Inv) {e : Nsaddr × ℚ × DsdvEvent} (hnews : s.NewsStored e)
    {r : DsdvNode × List DsdvMessage} (hr : handle s.air (s.node e.1) e.2.1 e.2.2 = some r) :
    (s.node e.1).Steps s.Knows r.1 ∧
      (∀ m ∈ r.2, m.src = e.1 ∧ ∀ q ∈ m.routes, ∃ x, r.1.table_ q.dst = some x ∧
        q.metric = (x.metric.setWidth 8).setWidth 32 ∧ q.seqnum = x.seqnum) ∧
      (∀ k fuel, e.2.2 = .deliver k fuel → ∀ d, (s.node e.1).Grows r.1 d) := by
  obtain ⟨i, now, e⟩ := e
  have hok := h.nodes i
  cases e with
  | startUp =>
    obtain rfl := Option.some.inj hr
    exact ⟨hok.startUp, fun m hm => (List.not_mem_nil hm).elim, fun k fuel he => by cases he⟩
  | update periodic dsts =>
    obtain rfl := Option.some.inj hr
    refine ⟨hok.makeUpdate periodic dsts, fun m hm => ?_, fun k fuel he => by cases he⟩
    dsimp only at hm
    split_ifs at hm
    · exact (List.not_mem_nil hm).elim
    · obtain rfl := List.mem_singleton.mp hm
      exact ⟨h.addr i, fun q hq => makeUpdate_route hq⟩
  | deliver k fuel =>
    rw [DsdvNetwork.handle] at hr
    cases hk : s.air[k]? with
    | none =>
      rw [hk] at hr
      obtain rfl := Option.some.inj hr
      exact ⟨hok.refl, fun m hm => (List.not_mem_nil hm).elim, fun _ _ _ d => .refl _ d⟩
    | some m =>
      rw [hk] at hr
      obtain ⟨n, hn, rfl⟩ := Option.map_eq_some_iff.mp hr
      obtain ⟨hstep, hgrows⟩ := h.receive (List.mem_of_getElem? hk) (hnews k fuel m rfl hk) hn
      exact ⟨hstep, fun m hm => (List.not_mem_nil hm).elim, fun _ _ _ => hgrows⟩
  | timeout nb =>
    obtain rfl := Option.some.inj hr
    refine ⟨?_, fun m hm => (List.not_mem_nil hm).elim, fun k fuel he => by cases he⟩
    dsimp only
    split_ifs
    · exact hok.helper_callback nb
    · exact hok.refl
  | lost next_hop dst p =>
    obtain rfl := Option.some.inj hr
    exact ⟨hok.lost_link next_hop dst p, fun m hm => (List.not_mem_nil hm).elim,
      fun k fuel he => by cases he⟩
  | data dst p =>
    obtain rfl := Option.some.inj hr
    exact ⟨hok.recv dst p, fun m hm => (List.not_mem_nil hm).elim, fun k fuel he => by cases he⟩

theorem Inv.step (h : s.Inv) {e : Nsaddr × ℚ × DsdvEvent} (hnews : s.NewsStored e)
    {s' : DsdvNetwork} {o : Unit} (hs : s.step e = some (s', o)) : s'.Inv ∧
      ∀ k fuel, e.2.2 = .deliver k fuel → ∀ d, (s.node e.1).Grows (s'.node e.1) d := by
  obtain ⟨r, hr, he⟩ := Option.map_eq_some_iff.mp hs
  obtain ⟨rfl, -⟩ := Prod.mk.inj he
  obtain ⟨hsteps, hout, hgrows⟩ := h.handle hnews hr
  refine ⟨h.next hsteps hout, fun k fuel hd d => ?_⟩
  dsimp only
  rw [Function.update_self]
  exact hgrows k fuel hd d

theorem inv_start (alpha_ wst0_ : Nsaddr → ℚ) (use_mac_ : Nsaddr → Bool) :
    (start alpha_ wst0_ use_mac_).Inv where
  addr _ := rfl
  nodes _ := ⟨rfl, fun _ _ he => by cases he⟩
  air _ hm := (List.not_mem_nil hm).elim

/-! ### The next hops -/

/-- A next hop is the destination, or has a newer number, or the same one and a smaller metric. -/
theorem Inv.next_hop (h : s.Inv) {d i j : Nsaddr} (hij : s.NextHop d i j) : ∃ e,
    (s.node i).table_ d = some e ∧ (j = d ∨ ∃ e', (s.node j).table_ d = some e' ∧
      (e.seqnum < e'.seqnum ∨ e.seqnum = e'.seqnum ∧ e'.metric < e.metric)) := by
  obtain ⟨hi, e, he, hm, hj⟩ := hij
  refine ⟨e, he, ?_⟩
  by_cases hone : e.metric > 1
  · rw [if_pos hone] at hj
    rcases ((h.nodes i).entries d e he).edge (by rw [h.addr i]; exact hi) hm with hhop | hknows
    · exact .inl (hj.trans hhop)
    · obtain ⟨e', he', hle⟩ := hknows
      refine .inr ⟨e', hj ▸ he', ?_⟩
      bv_omega
  · rw [if_neg hone] at hj
    exact .inl hj

theorem Inv.next_hops (h : s.Inv) {d i j : Nsaddr} (hij : Relation.TransGen (s.NextHop d) i j) :
    ∃ e, (s.node i).table_ d = some e ∧ (j = d ∨ ∃ e', (s.node j).table_ d = some e' ∧
      (e.seqnum < e'.seqnum ∨ e.seqnum = e'.seqnum ∧ e'.metric < e.metric)) := by
  induction hij with
  | single hij => exact h.next_hop hij
  | @tail j k _ hjk ih =>
    obtain ⟨e, he, hj | ⟨e', he', hlt⟩⟩ := ih
    · exact absurd hj hjk.1
    · refine ⟨e, he, ?_⟩
      obtain ⟨x, hx, hk⟩ := h.next_hop hjk
      obtain rfl := Option.some.inj (he'.symm.trans hx)
      refine hk.imp_right fun ⟨e'', he'', hlt'⟩ => ⟨e'', he'', ?_⟩
      bv_omega

theorem Inv.loop_free (h : s.Inv) (d i : Nsaddr) : ¬ Relation.TransGen (s.NextHop d) i i := by
  intro hcycle
  obtain ⟨e, he, hi | ⟨e', he', hlt⟩⟩ := h.next_hops hcycle
  · obtain ⟨j, hij, -⟩ := Relation.TransGen.head'_iff.mp hcycle
    exact hij.1 hi
  · obtain rfl := Option.some.inj (he.symm.trans he')
    bv_omega

/-- In every run in which the routes that packets wait for are stored, no update makes an entry
older, and the next hops for a destination form no cycle. -/
theorem run_never_older (alpha_ wst0_ : Nsaddr → ℚ) (use_mac_ : Nsaddr → Bool)
    {es : List (Nsaddr × ℚ × DsdvEvent)} {s : DsdvNetwork} {os : List Unit}
    (hes : Machine.Admits step NewsStored (start alpha_ wst0_ use_mac_) es)
    (hrun : Machine.run step (start alpha_ wst0_ use_mac_) es = some (s, os)) :
    (∀ d i, ¬ Relation.TransGen (s.NextHop d) i i) ∧
      ∀ i now k fuel s' o, s.NewsStored (i, now, .deliver k fuel) →
        s.step (i, now, .deliver k fuel) = some (s', o) → ∀ d, (s.node i).Grows (s'.node i) d := by
  have hinv := Machine.run_invariant (I := Inv) (fun s e s' o h hok hs => (h.step hok hs).1)
    (inv_start alpha_ wst0_ use_mac_) hes hrun
  exact ⟨hinv.loop_free, fun i now k fuel s' o hok hs => (hinv.step hok hs).2 k fuel rfl⟩

/-! ### Routes that are older -/

/-- A packet of another node. -/
def transit : DsdvPacket := ⟨.ofWord 4, 1, 10⟩

/-- Nodes 1 and 3 hear of node 2, lose it, and have a packet waiting for it when each of them hears
of the route that the other one had. -/
def oldRoutes : List (Nsaddr × ℚ × DsdvEvent) :=
  [(.ofWord 1, 0, .startUp), (.ofWord 2, 0, .startUp), (.ofWord 3, 0, .startUp),
    (.ofWord 2, 1, .update true [.ofWord 2]), (.ofWord 1, 1, .deliver 0 1),
    (.ofWord 3, 1, .deliver 0 1), (.ofWord 1, 2, .lost (.ofWord 2) (.ofWord 2) transit),
    (.ofWord 3, 13, .update false [.ofWord 2, .ofWord 3]),
    (.ofWord 3, 21, .lost (.ofWord 2) (.ofWord 2) transit), (.ofWord 1, 22, .deliver 1 20),
    (.ofWord 1, 40, .update true [.ofWord 1, .ofWord 2, .ofWord 3]), (.ofWord 3, 41, .deliver 2 20)]

/-- What a node knows of a destination. -/
def hop (s : DsdvNetwork) (i d : Nsaddr) : Option (Nsaddr × BitVec 32 × BitVec 32) :=
  ((s.node i).table_ d).map fun e => (e.hop, e.metric, e.seqnum)

theorem nextHop_of_hop {i j d : Nsaddr} {metric seqnum : BitVec 32} (hi : i ≠ d)
    (h : s.hop i d = some (j, metric, seqnum)) (hm : metric ≠ dsdvBig) (hone : metric > 1) :
    s.NextHop d i j := by
  obtain ⟨e, he, hj⟩ := Option.map_eq_some_iff.mp h
  obtain ⟨rfl, rfl, -⟩ := (Prod.mk.injEq ..).mp hj |>.imp_right (Prod.mk.injEq ..).mp
  exact ⟨hi, e, he, hm, (if_pos hone).symm⟩

theorem older_routes_loop : ¬ ∀ (alpha_ wst0_ : Nsaddr → ℚ) (use_mac_ : Nsaddr → Bool)
    (es : List (Nsaddr × ℚ × DsdvEvent)) (s : DsdvNetwork) (os : List Unit),
    Machine.run step (start alpha_ wst0_ use_mac_) es = some (s, os) →
      (∀ d i, ¬ Relation.TransGen (s.NextHop d) i i) ∧
        ∀ i now k fuel s' o, s.step (i, now, .deliver k fuel) = some (s', o) →
          ∀ d, (s.node i).Grows (s'.node i) d := by
  intro h
  have hrun : (Machine.run step (start (fun _ => 7 / 8) (fun _ => 6) fun _ => true) oldRoutes).map
      (fun r => (r.1.hop (.ofWord 1) (.ofWord 2), r.1.hop (.ofWord 3) (.ofWord 2))) =
        some (some (.ofWord 3, 2, 4), some (.ofWord 1, 3, 4)) := by decide +kernel
  obtain ⟨⟨s, os⟩, hs, hhops⟩ := Option.map_eq_some_iff.mp hrun
  obtain ⟨h1, h3⟩ := Prod.mk.inj hhops
  have h13 : s.NextHop (.ofWord 2) (.ofWord 1) (.ofWord 3) :=
    nextHop_of_hop (by decide) h1 (by decide) (by decide)
  have h31 : s.NextHop (.ofWord 2) (.ofWord 3) (.ofWord 1) :=
    nextHop_of_hop (by decide) h3 (by decide) (by decide)
  exact (h _ _ _ _ s os hs).1 _ _ (.tail (.single h13) h31)

/-- Node 1 hears of node 2. -/
def firstNews : List (Nsaddr × ℚ × DsdvEvent) :=
  [(.ofWord 2, 0, .startUp), (.ofWord 2, 1, .update true [.ofWord 2]), (.ofWord 1, 1, .deliver 0 1)]

theorem firstNews_stored :
    Machine.Admits step NewsStored (start (fun _ => 7 / 8) (fun _ => 6) fun _ => true)
      firstNews := by
  refine Machine.admits_cons (fun k fuel m he => by cases he) rfl ?_
  refine Machine.admits_cons (fun k fuel m he => by cases he) rfl ?_
  refine Machine.admits_cons (fun k fuel m he hk _ => ?_) rfl trivial
  cases he
  obtain rfl := Option.some.inj hk
  refine ⟨fun _ e q he => ?_, fun _ _ _ => trivial⟩
  cases he

theorem run_never_older_two : ∃ s os,
    Machine.run step (start (fun _ => 7 / 8) (fun _ => 6) fun _ => true) firstNews = some (s, os) ∧
      (∀ d i, ¬ Relation.TransGen (s.NextHop d) i i) ∧
        ∀ i now k fuel s' o, s.NewsStored (i, now, .deliver k fuel) →
          s.step (i, now, .deliver k fuel) = some (s', o) → ∀ d, (s.node i).Grows (s'.node i) d :=
  ⟨_, _, rfl, run_never_older _ _ _ firstNews_stored rfl⟩

end DsdvNetwork

end Ns2
