import Mathlib.Logic.Relation
import Mathlib.Order.WithBot
import Ns2.Tora.ToraHeights

/-! A network of TORA nodes: every node's height is its own, and the downstream links form no
cycle. -/

namespace Ns2

/-- The nodes and the packets that were sent, each with its sender. A packet may reach any node, at
any time and any number of times. -/
structure ToraNetwork where
  nodes : ℤ → ToraAgent
  sent : List (ℤ × HdrTora)

/-- What happens to a node of the network. -/
inductive ToraNetEvent where
  | deliver (k : ℕ) (biLinks : List ℤ)
  | rt_resolve (biLinks : List ℤ) (daddr : ℤ)
  | linkUP (nb : ℤ)
  | linkDN (nb : ℤ)

namespace ToraNetwork

/-- The event at the node, if there is such a packet. -/
def event (s : ToraNetwork) (now : ℚ) : ToraNetEvent → Option ToraEvent
  | .deliver k biLinks => s.sent[k]?.map fun p => .recv now biLinks p.1 p.2
  | .rt_resolve biLinks daddr => some (.rt_resolve now biLinks daddr)
  | .linkUP nb => some (.rtNotifyLinkUP now nb)
  | .linkDN nb => some (.rtNotifyLinkDN now nb)

/-- An event at a node and a time. -/
def step (s : ToraNetwork) (e : ℤ × ℚ × ToraNetEvent) : Option (ToraNetwork × Unit) :=
  (s.event e.2.1 e.2.2).bind fun ev => ((s.nodes e.1).step ev).map fun r =>
    ({ nodes := Function.update s.nodes e.1 r.1
       sent := s.sent ++ r.2.map fun p => (e.1, p) }, ())

def start : ToraNetwork := ⟨.ofAddr, []⟩

/-- A link joins two nodes. -/
def Joins (i : ℤ) : ToraNetEvent → Prop
  | .deliver _ biLinks => i ∉ biLinks
  | .rt_resolve biLinks _ => i ∉ biLinks
  | .linkUP nb => nb ≠ i
  | .linkDN _ => True

instance (i : ℤ) : ∀ e, Decidable (Joins i e)
  | .deliver _ biLinks => inferInstanceAs (Decidable (i ∉ biLinks))
  | .rt_resolve biLinks _ => inferInstanceAs (Decidable (i ∉ biLinks))
  | .linkUP nb => inferInstanceAs (Decidable (nb ≠ i))
  | .linkDN _ => inferInstanceAs (Decidable True)

/-- No node is left with upstream links only by the loss of a neighbour. -/
def KeepsDown (s : ToraNetwork) (i : ℤ) : ToraNetEvent → Prop
  | .linkDN nb => ∀ td ∈ (s.nodes i).dstlist, ∀ tn ∈ td.nb_find nb,
      ¬ ((td.remove tn).num_down = 0 ∧ (td.remove tn).num_up > 0)
  | _ => True

instance (s : ToraNetwork) (i : ℤ) : ∀ e, Decidable (s.KeepsDown i e)
  | .linkDN nb => inferInstanceAs (Decidable (∀ td ∈ (s.nodes i).dstlist, ∀ tn ∈ td.nb_find nb,
      ¬ ((td.remove tn).num_down = 0 ∧ (td.remove tn).num_up > 0)))
  | .deliver _ _ => inferInstanceAs (Decidable True)
  | .rt_resolve _ _ => inferInstanceAs (Decidable True)
  | .linkUP _ => inferInstanceAs (Decidable True)

/-- `j` is a downstream neighbour of `i` for a destination. -/
def Downstream (s : ToraNetwork) (dst i j : ℤ) : Prop :=
  ∃ td ∈ (s.nodes i).dst_find dst, ∃ tn ∈ td.nblist, tn.index = j ∧ tn.lnk_stat = .dn

/-- A height that is not null. -/
def proper (h : Height) : Option Height := if h.isNull then none else some h

/-- The height of a node. -/
def heightOf (s : ToraNetwork) (dst i : ℤ) : Option Height :=
  ((s.nodes i).dst_find dst).bind fun td => proper td.height

/-- The tables hold the heights that the neighbours have. -/
def Current (s : ToraNetwork) (dst : ℤ) : Prop :=
  ∀ i, ∀ td ∈ (s.nodes i).dst_find dst, ∀ tn ∈ td.nblist, tn.index ≠ dst →
    proper tn.height = s.heightOf dst tn.index

end ToraNetwork

namespace ToraAgent

variable {a a' : ToraAgent} {i : ℤ} {now : ℚ}

/-- The heights of a node are its own. -/
def Own (i : ℤ) (a : ToraAgent) : Prop := a.ipaddr = i ∧ ∀ td ∈ a.dstlist, td.Own i

/-- Where the reference level of a destination comes from. -/
def Level (i : ℤ) (now : ℚ) (a : ToraAgent) (td' : TORADest) : Prop :=
  (∃ td ∈ a.dstlist, td.index = td'.index ∧ td'.height = td.height) ∨ td'.height.isNull = true ∨
    (∃ tn ∈ td'.nblist, td'.height.tau = tn.height.tau ∧ td'.height.oid = tn.height.oid) ∨
    td'.height = ⟨now, i, 0, 0, i⟩

/-- What an event at node `i` gives. -/
structure Handles (i : ℤ) (now : ℚ) (a : ToraAgent) (r : ToraAgent × List HdrTora) : Prop where
  own : r.1.Own i
  level : ∀ td ∈ r.1.dstlist, Level i now a td
  sent : ∀ p ∈ r.2, p.From i

theorem own_newDest {biLinks : List ℤ} (hi : i ∉ biLinks) (now : ℚ) (id : ℤ) :
    (newDest now biLinks id).Own i ∧ (newDest now biLinks id).height.isNull = true := by
  have hadd : ∀ td : TORADest, td.Own i ∧ td.height.isNull = true →
      (biLinks.foldl (fun td nb => td.nb_add nb now) td).Own i ∧
        (biLinks.foldl (fun td nb => td.nb_add nb now) td).height.isNull = true := by
    induction biLinks with
    | nil => exact fun td h => h
    | cons nb l ih =>
      intro td h
      obtain ⟨hnb, hl⟩ := not_or.mp (mt List.mem_cons.mpr hi)
      refine ih hl _ ⟨h.1.nb_add (Ne.symm hnb) now, ?_⟩
      rw [TORADest.height_nb_add]
      exact h.2
  refine hadd (.ofId id) ⟨⟨.inr ⟨rfl, rfl⟩, ?_, ?_, ?_, fun _ => ⟨rfl, rfl, ?_⟩⟩, rfl⟩ <;>
    exact fun tn htn => absurd htn List.not_mem_nil

theorem index_destFor (a : ToraAgent) (now : ℚ) (biLinks : List ℤ) (id : ℤ) :
    (a.destFor now biLinks id).index = id := by
  rw [destFor]
  cases hfind : a.dst_find id with
  | none => exact index_newDest now biLinks id
  | some td => simpa using List.find?_some hfind

theorem level_refl {td : TORADest} (htd : td ∈ a.dstlist) : Level i now a td :=
  .inl ⟨td, htd, rfl, rfl⟩

/-- A handler for one destination. -/
theorem Own.withDest (h : a.Own i) {biLinks : List ℤ} (hi : i ∉ biLinks) {id : ℤ}
    {f : TORADest → Option (TORADest × List HdrTora)} {r : ToraAgent × List HdrTora}
    (hf : ∀ td q, td.Own i → td.index = id → f td = some q → TORADest.Handles i now td q)
    (hr : a.withDest now biLinks id f = some r) : Handles i now a r := by
  obtain ⟨A, B, hAB, hdest, heq⟩ := a.withDest_eq now biLinks id
  rw [heq] at hr
  obtain ⟨q, hq, rfl⟩ := Option.map_eq_some_iff.mp hr
  have hown : (a.destFor now biLinks id).Own i := by
    rcases hdest with hmem | hnew
    · exact h.2 _ hmem
    · rw [hnew]
      exact (own_newDest hi now id).1
  have hq := hf _ q hown (index_destFor a now biLinks id) hq
  have hall : ∀ P : TORADest → Prop, (∀ td ∈ a.dstlist, P td) → P q.1 →
      ∀ td ∈ A ++ q.1 :: B, P td := by
    intro P hold hnew td htd
    rcases List.mem_append.mp htd with hA | hB
    · exact hold td (hAB td (List.mem_append_left _ hA))
    rcases List.mem_cons.mp hB with rfl | hB
    · exact hnew
    · exact hold td (hAB td (List.mem_append_right _ hB))
  refine ⟨⟨h.1, hall _ h.2 hq.own⟩, hall _ (fun td htd => level_refl htd) ?_, hq.sent⟩
  rcases hq.level with hkeep | hnull | hnb | hnew
  · rcases hdest with hmem | hfresh
    · exact .inl ⟨_, hmem, hq.index.symm, hkeep⟩
    · refine .inr (.inl ?_)
      rw [hkeep, hfresh]
      exact (own_newDest hi now id).2
  · exact .inr (.inl hnull)
  · exact .inr (.inr (.inl hnb))
  · exact .inr (.inr (.inr hnew))

/-- A handler for all destinations. -/
theorem Own.forDests (h : a.Own i) {f : TORADest → TORADest × List HdrTora}
    (hf : ∀ td ∈ a.dstlist, TORADest.Handles i now td (f td)) : Handles i now a (a.forDests f) := by
  refine ⟨⟨h.1, fun td htd => ?_⟩, fun td htd => ?_, fun p hp => ?_⟩
  · obtain ⟨td, hmem, rfl⟩ := List.mem_map.mp htd
    exact (hf td hmem).own
  · obtain ⟨td, hmem, rfl⟩ := List.mem_map.mp htd
    rcases (hf td hmem).level with hkeep | hrest
    · exact .inl ⟨td, hmem, (hf td hmem).index.symm, hkeep⟩
    · exact .inr hrest
  · obtain ⟨td, hmem, hp⟩ := List.mem_flatMap.mp hp
    exact (hf td hmem).sent p hp

end ToraAgent

namespace ToraNetwork

variable {s s' : ToraNetwork}

/-- Every height in the network is that of its node. -/
structure Own (s : ToraNetwork) : Prop where
  nodes : ∀ i, (s.nodes i).Own i
  sent : ∀ q ∈ s.sent, q.2.From q.1

/-- The condition on an event, and that links join two nodes. -/
def Keeps (s : ToraNetwork) (e : ℤ × ℚ × ToraNetEvent) : Prop :=
  Joins e.1 e.2.2 ∧ s.KeepsDown e.1 e.2.2

instance (s : ToraNetwork) (e : ℤ × ℚ × ToraNetEvent) : Decidable (s.Keeps e) :=
  inferInstanceAs (Decidable (_ ∧ _))

theorem Own.event (h : s.Own) {i : ℤ} {now : ℚ} {e : ToraNetEvent} (hk : s.Keeps (i, now, e))
    {ev : ToraEvent} (hev : s.event now e = some ev) {r : ToraAgent × List HdrTora}
    (hr : (s.nodes i).step ev = some r) : ToraAgent.Handles i now (s.nodes i) r := by
  have hi := h.nodes i
  cases e with
  | deliver k biLinks =>
    obtain ⟨⟨j, p⟩, hp, rfl⟩ := Option.map_eq_some_iff.mp hev
    have hfrom : p.From j := h.sent (j, p) (List.mem_of_getElem? hp)
    rw [ToraAgent.step] at hr
    by_cases hself : p.dst = (s.nodes i).ipaddr
    · rw [if_pos hself] at hr
      obtain rfl := Option.some.inj hr
      exact ⟨hi, fun td htd => ToraAgent.level_refl htd, fun p hp => absurd hp List.not_mem_nil⟩
    · rw [if_neg hself] at hr
      rw [hi.1] at hr hself
      exact hi.withDest hk.1 (fun td q htd hindex hq =>
        htd.recv (by rw [hindex]; exact hself) hindex.symm hfrom hq) hr
  | rt_resolve biLinks daddr =>
    obtain rfl := Option.some.inj hev
    refine hi.withDest hk.1 (fun td q htd _ hq => ?_) hr
    obtain rfl := Option.some.inj hq
    exact htd.rt_resolve now
  | linkUP nb =>
    obtain rfl := Option.some.inj hev
    obtain rfl := Option.some.inj hr
    exact hi.forDests fun td htd => (hi.2 td htd).linkUP hk.1 now
  | linkDN nb =>
    obtain rfl := Option.some.inj hev
    obtain rfl := Option.some.inj hr
    exact hi.forDests fun td htd => (hi.2 td htd).linkDN (hk.2 td htd) now

/-- What one event of the network does. -/
theorem Own.step (h : s.Own) {e : ℤ × ℚ × ToraNetEvent} (hk : s.Keeps e)
    (hs : s.step e = some (s', ())) :
    s'.Own ∧ ∀ i, ∀ td ∈ (s'.nodes i).dstlist, ToraAgent.Level i e.2.1 (s.nodes i) td := by
  obtain ⟨j, now, e⟩ := e
  obtain ⟨ev, hev, hmap⟩ := Option.bind_eq_some_iff.mp hs
  obtain ⟨r, hr, heq⟩ := Option.map_eq_some_iff.mp hmap
  obtain ⟨rfl, -⟩ := Prod.mk.inj heq
  have hh := h.event hk hev hr
  refine ⟨⟨fun i => ?_, fun q hq => ?_⟩, fun i td htd => ?_⟩
  · by_cases hij : i = j
    · subst hij
      dsimp only
      rw [Function.update_self]
      exact hh.own
    · dsimp only
      rw [Function.update_of_ne hij]
      exact h.nodes i
  · rcases List.mem_append.mp hq with hq | hq
    · exact h.sent q hq
    · obtain ⟨p, hp, rfl⟩ := List.mem_map.mp hq
      exact hh.sent p hp
  · by_cases hij : i = j
    · subst hij
      dsimp only at htd
      rw [Function.update_self] at htd
      exact hh.level td htd
    · dsimp only at htd
      rw [Function.update_of_ne hij] at htd
      exact ToraAgent.level_refl htd

/-- A downstream neighbour is below, and there is none below the destination. -/
theorem Own.downstream (h : s.Own) {dst i j : ℤ} (hc : s.Current dst)
    (hd : s.Downstream dst i j) : i ≠ dst ∧ (j = dst ∨
      ((s.heightOf dst j).map Height.key).elim ⊤ WithTop.some <
        ((s.heightOf dst i).map Height.key).elim ⊤ WithTop.some) := by
  obtain ⟨td, htd, tn, htn, rfl, hdn⟩ := hd
  have hown := (h.nodes i).2 td (List.mem_of_find?_eq_some htd)
  have hindex : td.index = dst := by simpa using List.find?_some htd
  constructor
  · rintro rfl
    have := ((hown.last hindex).2.2 tn htn).2
    rw [hdn] at this
    cases this
  · by_cases hdst : tn.index = dst
    · exact .inl hdst
    · right
      obtain ⟨hnull, hbelow⟩ := hown.below tn htn hdn (by rw [hindex]; exact hdst)
      have hi : s.heightOf dst i = proper td.height := by
        rw [heightOf, htd]
        rfl
      rw [← hc i td htd tn htn hdst, hi, proper, proper, hnull, if_neg Bool.false_ne_true]
      by_cases hown : td.height.isNull = true
      · rw [if_pos hown]
        exact WithTop.coe_lt_top _
      · rw [if_neg hown]
        exact WithTop.coe_lt_coe.mpr
          ((Height.compare_pos_iff _ _).mp (hbelow.resolve_left hown))

/-- The downstream links form no cycle. -/
theorem Own.acyclic (h : s.Own) {dst : ℤ} (hc : s.Current dst) (i : ℤ) :
    ¬ Relation.TransGen (s.Downstream dst) i i := by
  have hpath : ∀ {j}, Relation.TransGen (s.Downstream dst) i j → j = dst ∨
      ((s.heightOf dst j).map Height.key).elim ⊤ WithTop.some <
        ((s.heightOf dst i).map Height.key).elim ⊤ WithTop.some := by
    intro j hj
    induction hj with
    | single hd => exact (h.downstream hc hd).2
    | tail _ hd ih =>
      obtain ⟨hne, hlt⟩ := h.downstream hc hd
      exact hlt.imp (fun he => he) fun hlt => hlt.trans (ih.resolve_left hne)
  intro hcycle
  rcases hpath hcycle with rfl | hlt
  · obtain ⟨k, hd, -⟩ := Relation.TransGen.head'_iff.mp hcycle
    exact (h.downstream hc hd).1 rfl
  · exact lt_irrefl _ hlt

/-- In a run where no node is left with upstream links only by the loss of a neighbour: a height that
is not null carries the node's own id, so those of distinct nodes are distinct in a total order;
there is no cycle of downstream links when the tables are current; and a reference level is kept,
taken from a neighbour, or has the node as its originator. -/
theorem run_heights {events : List (ℤ × ℚ × ToraNetEvent)}
    (hk : Machine.Admits step Keeps start events) {os : List Unit}
    (hrun : Machine.run step start events = some (s, os)) :
    (∀ i, ∀ td ∈ (s.nodes i).dstlist, td.height.isNull = false → td.height.id = i) ∧
      IsStrictTotalOrder Height (fun h h' => 0 < h.compare h') ∧
      (∀ i j, i ≠ j → ∀ td ∈ (s.nodes i).dstlist, ∀ td' ∈ (s.nodes j).dstlist,
        td.height.isNull = false → td'.height.isNull = false → td.height.compare td'.height ≠ 0) ∧
      (∀ dst, s.Current dst → ∀ i, ¬ Relation.TransGen (s.Downstream dst) i i) ∧
      ∀ e s', s.Keeps e → s.step e = some (s', ()) → ∀ i, ∀ td ∈ (s'.nodes i).dstlist,
        ToraAgent.Level i e.2.1 (s.nodes i) td := by
  have hstart : start.Own :=
    ⟨fun i => ⟨rfl, fun td htd => absurd htd List.not_mem_nil⟩,
      fun q hq => absurd hq List.not_mem_nil⟩
  have h : s.Own := Machine.run_invariant (fun s e s' o hs he hstep => (hs.step he hstep).1)
    hstart hk hrun
  have hid : ∀ i, ∀ td ∈ (s.nodes i).dstlist, td.height.isNull = false → td.height.id = i :=
    fun i td htd hnull => (((h.nodes i).2 td htd).height).resolve_right fun hn => by
      rw [hnull] at hn
      exact Bool.false_ne_true hn.1
  refine ⟨hid, Height.isStrictTotalOrder, fun i j hij td htd td' htd' hn hn' => ?_,
    fun dst hc => h.acyclic hc, fun e s' he hs => (h.step he hs).2⟩
  apply Height.compare_ne_zero
  rw [hid i td htd hn, hid j td' htd' hn']
  exact hij

/-- Node 2 is next to the destination 9, node 1 has its route through node 2, and node 3 has one
through node 1. -/
def lineEvents : List (ℤ × ℚ × ToraNetEvent) :=
  [(2, 0, .rt_resolve [9] 9), (1, 0, .rt_resolve [2, 3] 9), (2, 1, .deliver 0 []),
    (1, 1, .deliver 1 []), (3, 2, .rt_resolve [1] 9), (3, 2, .deliver 2 []), (1, 3, .deliver 4 [])]

theorem run_heights_line : ∃ s os, Machine.run step start lineEvents = some (s, os) ∧
    ∀ i, ∀ td ∈ (s.nodes i).dstlist, td.height.isNull = false → td.height.id = i := by
  obtain ⟨⟨s, os⟩, hrun⟩ := Option.isSome_iff_exists.mp
    (show (Machine.run step start lineEvents).isSome = true by decide +kernel)
  exact ⟨s, os, hrun, (run_heights (by decide +kernel) hrun).1⟩

/-- Node 1 loses node 2 and takes the id of the destination. -/
theorem height_of_lost_link : ¬ ∀ (events : List (ℤ × ℚ × ToraNetEvent)) (s : ToraNetwork)
    (os : List Unit), (∀ e ∈ events, Joins e.1 e.2.2) →
      Machine.run step start events = some (s, os) →
      ∀ i, ∀ td ∈ (s.nodes i).dstlist, td.height.isNull = false → td.height.id = i := by
  intro h
  have hbad : ((Machine.run step start (lineEvents ++ [(1, 4, .linkDN 2)])).map fun r =>
      decide (∀ td ∈ (r.1.nodes 1).dstlist, td.height.isNull = false → td.height.id = 1)) =
        some false := by
    decide +kernel
  obtain ⟨⟨s, os⟩, hrun, hs⟩ := Option.map_eq_some_iff.mp hbad
  exact of_decide_eq_false hs (h _ s os (by decide) hrun 1)

end ToraNetwork

end Ns2
