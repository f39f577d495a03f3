import Ns2.Dsdv.DsdvDrain

/-! The other handlers of a DSDV node. None of them puts an older route in the place of a newer one,
and `processUpdate` does not either where no packet waits for the older route. -/

namespace Ns2

namespace DsdvEnt

/-- The entry is part of an update. -/
def included (now : ℚ) (periodic : Bool) (e : DsdvEnt) : Bool :=
  if periodic && e.advertise_ok_at > now then false
  else periodic || (e.advert_seqnum || e.advert_metric) && e.advertise_ok_at ≤ now

def advertise (periodic : Bool) (e : DsdvEnt) : DsdvEnt :=
  { e with
    last_advertised_metric := e.metric
    advert_seqnum := false
    advert_metric := if periodic then false else e.advert_metric }

/-- The neighbour `nb` is lost. -/
def lose (now : ℚ) (nb : Nsaddr) (e : DsdvEnt) : DsdvEnt :=
  if e.hop = nb ∧ e.metric ≠ dsdvBig then
    { e with
      metric := dsdvBig
      advertise_ok_at := now
      advert_metric := true
      advert_seqnum := true
      seqnum := e.seqnum + 1 }
  else e

/-- The sequence number has not decreased, and under the same one the metric has not increased. -/
def NotOlder (e e' : DsdvEnt) : Prop :=
  e.seqnum < e'.seqnum ∨ e.seqnum = e'.seqnum ∧ e'.metric ≤ e.metric

theorem NotOlder.trans {e e' e'' : DsdvEnt} (h : e.NotOlder e') (h' : e'.NotOlder e'') :
    e.NotOlder e'' := by
  unfold NotOlder at *
  bv_omega

theorem notOlder_of_eq {e e' : DsdvEnt} (hseqnum : e'.seqnum = e.seqnum)
    (hmetric : e'.metric = e.metric) : e.NotOlder e' :=
  .inr ⟨hseqnum.symm, hmetric ▸ BitVec.le_refl _⟩

theorem Fresh.notOlder {e e' : DsdvEnt} (h : e.Fresh e') : e.NotOlder e' :=
  h.imp_right fun h => ⟨h.1, BitVec.le_of_lt h.2⟩

end DsdvEnt

namespace DsdvNode

def startUp (n : DsdvNode) (now : ℚ) : DsdvNode :=
  { n with seqno_ := n.seqno_ + 2 }.addEntry n.myaddr_
    { DsdvEnt.zero with
      hop := n.myaddr_
      metric := 0
      seqnum := n.seqno_
      advert_seqnum := true
      advert_metric := true
      changed_at := now
      new_seqnum_at := now }

/-- A periodic update renews the node's own entry. -/
def refreshed (n : DsdvNode) (now : ℚ) (periodic : Bool) : DsdvNode :=
  if periodic then
    { n with seqno_ := n.seqno_ + 2 }.addEntry n.myaddr_
      { DsdvEnt.zero with
        hop := n.myaddr_
        metric := 0
        seqnum := n.seqno_ + 2
        advert_seqnum := true
        changed_at := now
        new_seqnum_at := now }
  else n

/-- `makeUpdate` for the destinations that are in the table; a metric is written as one byte. -/
def makeUpdate (n : DsdvNode) (now : ℚ) (periodic : Bool) (dsts : List Nsaddr) :
    DsdvNode × List DsdvRoute :=
  let n := n.refreshed now periodic
  ({ n with
      table_ := fun d => (n.table_ d).map fun e =>
        if d ∈ dsts ∧ e.included now periodic then e.advertise periodic else e },
    dsts.filterMap fun d => (n.table_ d).bind fun e =>
      if e.included now periodic then some ⟨d, (e.metric.setWidth 8).setWidth 32, e.seqnum⟩
      else none)

/-- `helper_callback` for the timeout of a neighbour. -/
def helper_callback (n : DsdvNode) (now : ℚ) (nb : Nsaddr) : DsdvNode :=
  { n with
    table_ := fun d => (n.table_ d).map fun e =>
      let e := e.lose now nb
      if d = nb then { e with timeout_event := false } else e }

def lost_link (n : DsdvNode) (now : ℚ) (next_hop dst : Nsaddr) (p : DsdvPacket) : DsdvNode :=
  if n.use_mac_ = false then n
  else
    match n.table_ next_hop with
    | none => n
    | some prte =>
      let n := if prte.timeout_event ∨ prte.metric ≠ dsdvBig then n.helper_callback now next_hop
        else n
      (n.recv now dst p).1

variable {K : Nsaddr → Nsaddr → BitVec 32 → BitVec 32 → Prop} {n n' n'' : DsdvNode} {now : ℚ}
  {src : Nsaddr}

/-- What holds of the entry of node `i` for `d`; `K j d seqnum metric` is to say that node `j` knows
of `d` something that is at least as new. -/
structure EntryOk (K : Nsaddr → Nsaddr → BitVec 32 → BitVec 32 → Prop) (i d : Nsaddr)
    (e : DsdvEnt) : Prop where
  big : e.metric ≤ dsdvBig
  even : e.metric ≠ dsdvBig → e.seqnum.toNat % 2 = 0
  queue : e.metric ≠ dsdvBig → e.q = none
  edge : i ≠ d → e.metric ≠ dsdvBig → e.hop = d ∨ K e.hop d e.seqnum (e.metric - 1)

/-- What holds of a route in a message of `src`. -/
structure Told (K : Nsaddr → Nsaddr → BitVec 32 → BitVec 32 → Prop) (src : Nsaddr)
    (r : DsdvRoute) : Prop where
  big : r.metric ≤ dsdvBig
  even : r.metric ≠ dsdvBig → r.seqnum.toNat % 2 = 0
  stands : src = r.dst ∨ K src r.dst r.seqnum r.metric

structure Ok (K : Nsaddr → Nsaddr → BitVec 32 → BitVec 32 → Prop) (n : DsdvNode) : Prop where
  seqno : n.seqno_.toNat % 2 = 0
  entries : ∀ d e, n.table_ d = some e → EntryOk K n.myaddr_ d e

/-- The entry for `d` does not regress. -/
def Grows (n n' : DsdvNode) (d : Nsaddr) : Prop :=
  ∀ e, n.table_ d = some e → ∃ e', n'.table_ d = some e' ∧ e.NotOlder e'

/-- What a handler does: only the node's own entry may regress. -/
structure Steps (K : Nsaddr → Nsaddr → BitVec 32 → BitVec 32 → Prop) (n n' : DsdvNode) : Prop where
  addr : n'.myaddr_ = n.myaddr_
  ok : n'.Ok K
  grows : ∀ d, d ≠ n.myaddr_ → n.Grows n' d

theorem Grows.refl (n : DsdvNode) (d : Nsaddr) : n.Grows n d :=
  fun e he => ⟨e, he, DsdvEnt.notOlder_of_eq rfl rfl⟩

theorem Grows.trans {d : Nsaddr} (h : n.Grows n' d) (h' : n'.Grows n'' d) : n.Grows n'' d := by
  intro e he
  obtain ⟨e', he', hle⟩ := h e he
  obtain ⟨e'', he'', hle'⟩ := h' e' he'
  exact ⟨e'', he'', hle.trans hle'⟩

theorem Ok.refl (h : n.Ok K) : n.Steps K n := ⟨rfl, h, fun d _ => .refl n d⟩

theorem Steps.trans (h : n.Steps K n') (h' : n'.Steps K n'') : n.Steps K n'' :=
  ⟨h'.addr.trans h.addr, h'.ok, fun d hd => (h.grows d hd).trans (h'.grows d (h.addr ▸ hd))⟩

theorem EntryOk.congr {i d : Nsaddr} {e x : DsdvEnt} (h : EntryOk K i d e)
    (hmetric : x.metric = e.metric) (hseqnum : x.seqnum = e.seqnum) (hhop : x.hop = e.hop)
    (hq : x.metric ≠ dsdvBig → x.q = none) : EntryOk K i d x where
  big := hmetric ▸ h.big
  even hm := by
    rw [hseqnum]
    exact h.even (hmetric ▸ hm)
  queue := hq
  edge hi hm := by
    rw [hhop, hseqnum, hmetric]
    exact h.edge hi (hmetric ▸ hm)

theorem EntryOk.mono {K' : Nsaddr → Nsaddr → BitVec 32 → BitVec 32 → Prop} {i d : Nsaddr}
    {e : DsdvEnt} (hK : ∀ j d v m, j ≠ d → K j d v m → K' j d v m)
    (h : EntryOk K i d e) : EntryOk K' i d e where
  big := h.big
  even := h.even
  queue := h.queue
  edge hi hm := by
    by_cases hhop : e.hop = d
    · exact .inl hhop
    · exact .inr (hK _ _ _ _ hhop ((h.edge hi hm).resolve_left hhop))

theorem Told.mono {K' : Nsaddr → Nsaddr → BitVec 32 → BitVec 32 → Prop} {r : DsdvRoute}
    (hK : ∀ j d v m, j ≠ d → K j d v m → K' j d v m)
    (h : Told K src r) : Told K' src r where
  big := h.big
  even := h.even
  stands := by
    by_cases hsrc : src = r.dst
    · exact .inl hsrc
    · exact .inr (hK _ _ _ _ hsrc (h.stands.resolve_left hsrc))

/-- An entry without a route. -/
theorem entryOk_big {i d : Nsaddr} {x : DsdvEnt} (h : x.metric = dsdvBig) : EntryOk K i d x where
  big := h ▸ BitVec.le_refl _
  even hm := absurd h hm
  queue hm := absurd h hm
  edge _ hm := absurd h hm

theorem Ok.addEntry (h : n.Ok K) {d : Nsaddr} {x : DsdvEnt} (hx : EntryOk K n.myaddr_ d x)
    (hnew : d ≠ n.myaddr_ → ∀ e, n.table_ d = some e → e.NotOlder x) :
    n.Steps K (n.addEntry d x) := by
  have hself : (n.addEntry d x).table_ d = some x := Function.update_self ..
  have hother : ∀ b, b ≠ d → (n.addEntry d x).table_ b = n.table_ b := fun b hb =>
    Function.update_of_ne hb ..
  refine ⟨rfl, ⟨h.seqno, fun b e he => ?_⟩, fun b hb e he => ?_⟩
  · by_cases hbd : b = d
    · subst hbd
      obtain rfl := Option.some.inj (hself.symm.trans he)
      exact hx
    · exact h.entries b e ((hother b hbd).symm.trans he)
  · by_cases hbd : b = d
    · subst hbd
      exact ⟨x, hself, hnew hb e he⟩
    · exact ⟨e, (hother b hbd).trans he, DsdvEnt.notOlder_of_eq rfl rfl⟩

theorem grows_map {f : Nsaddr → DsdvEnt → DsdvEnt} {d : Nsaddr}
    (hf : ∀ e, n.table_ d = some e → e.NotOlder (f d e)) :
    n.Grows { n with table_ := fun d => (n.table_ d).map (f d) } d := by
  intro e he
  refine ⟨f d e, ?_, hf e he⟩
  dsimp only
  rw [he]
  rfl

theorem Ok.map (h : n.Ok K) {f : Nsaddr → DsdvEnt → DsdvEnt}
    (hf : ∀ d e, EntryOk K n.myaddr_ d e → EntryOk K n.myaddr_ d (f d e) ∧ e.NotOlder (f d e)) :
    n.Steps K { n with table_ := fun d => (n.table_ d).map (f d) } := by
  refine ⟨rfl, ⟨h.seqno, fun d x hx => ?_⟩, fun d _ => grows_map fun e he =>
    (hf d e (h.entries d e he)).2⟩
  obtain ⟨e, he, rfl⟩ := Option.map_eq_some_iff.mp hx
  exact (hf d e (h.entries d e he)).1

/-! ### The handlers -/

theorem even_add_two {v : BitVec 32} (h : v.toNat % 2 = 0) : (v + 2).toNat % 2 = 0 := by
  bv_omega

/-- The node's own entry with a new number. -/
theorem Ok.own (h : n.Ok K) {v : BitVec 32} (hv : v.toNat % 2 = 0) {x : DsdvEnt}
    (hmetric : x.metric = 0) (hseqnum : x.seqnum.toNat % 2 = 0) (hq : x.q = none) :
    n.Steps K ({ n with seqno_ := v }.addEntry n.myaddr_ x) := by
  have hn : ({ n with seqno_ := v } : DsdvNode).Ok K := ⟨hv, h.entries⟩
  have hx : EntryOk K n.myaddr_ n.myaddr_ x :=
    ⟨by rw [hmetric]; decide, fun _ => hseqnum, fun _ => hq, fun hne => absurd rfl hne⟩
  have hadd := hn.addEntry (d := n.myaddr_) hx (fun hne => absurd rfl hne)
  exact ⟨rfl, hadd.ok, hadd.grows⟩

theorem Ok.startUp (h : n.Ok K) : n.Steps K (n.startUp now) :=
  h.own (even_add_two h.seqno) rfl h.seqno rfl

theorem Ok.refreshed (h : n.Ok K) (periodic : Bool) : n.Steps K (n.refreshed now periodic) := by
  rw [DsdvNode.refreshed]
  split_ifs
  · exact h.own (even_add_two h.seqno) rfl (even_add_two h.seqno) rfl
  · exact h.refl

theorem Ok.makeUpdate (h : n.Ok K) (periodic : Bool) (dsts : List Nsaddr) :
    n.Steps K (n.makeUpdate now periodic dsts).1 := by
  have hr : n.Steps K (n.refreshed now periodic) := h.refreshed periodic
  refine hr.trans (hr.ok.map fun d e he => ?_)
  split_ifs
  · exact ⟨he.congr rfl rfl rfl he.queue, DsdvEnt.notOlder_of_eq rfl rfl⟩
  · exact ⟨he, DsdvEnt.notOlder_of_eq rfl rfl⟩

theorem EntryOk.lose {i d : Nsaddr} {e : DsdvEnt} (h : EntryOk K i d e) (nb : Nsaddr) :
    EntryOk K i d (e.lose now nb) ∧ e.NotOlder (e.lose now nb) := by
  rw [DsdvEnt.lose]
  by_cases hb : e.hop = nb ∧ e.metric ≠ dsdvBig
  · rw [if_pos hb]
    have heven := h.even hb.2
    refine ⟨entryOk_big rfl, .inl ?_⟩
    -- the number of a route is even
    show e.seqnum < e.seqnum + 1
    bv_omega
  · rw [if_neg hb]
    exact ⟨h, DsdvEnt.notOlder_of_eq rfl rfl⟩

theorem Ok.helper_callback (h : n.Ok K) (nb : Nsaddr) : n.Steps K (n.helper_callback now nb) := by
  refine h.map fun d e he => ?_
  have hlose : EntryOk K n.myaddr_ d (e.lose now nb) ∧ e.NotOlder (e.lose now nb) := he.lose nb
  obtain ⟨hok, hle⟩ := hlose
  dsimp only
  split_ifs
  · exact ⟨hok.congr rfl rfl rfl hok.queue, hle⟩
  · exact ⟨hok, hle⟩

theorem Ok.forwardPacket (h : n.Ok K) (dst : Nsaddr) (p : DsdvPacket) :
    n.Steps K (n.forwardPacket now dst p).1 := by
  rw [DsdvNode.forwardPacket]
  cases he : n.table_ dst with
  | none =>
    refine h.addEntry (entryOk_big rfl) fun _ e he' => ?_
    rw [he] at he'
    cases he'
  | some e =>
    dsimp only
    by_cases hbig : e.metric ≠ dsdvBig
    · rw [if_pos hbig]
      exact h.refl
    · rw [if_neg hbig]
      refine h.addEntry (entryOk_big (not_not.mp hbig)) fun _ e' he' => ?_
      obtain rfl := Option.some.inj (he.symm.trans he')
      exact DsdvEnt.notOlder_of_eq rfl rfl

theorem Ok.recv (h : n.Ok K) (dst : Nsaddr) (p : DsdvPacket) : n.Steps K (n.recv now dst p).1 := by
  rw [DsdvNode.recv]
  cases recvChecks n.myaddr_ p with
  | none => exact h.refl
  | some p' => exact h.forwardPacket dst p'

theorem Ok.lost_link (h : n.Ok K) (next_hop dst : Nsaddr) (p : DsdvPacket) :
    n.Steps K (n.lost_link now next_hop dst p) := by
  rw [DsdvNode.lost_link]
  split_ifs with hmac
  · exact h.refl
  · cases n.table_ next_hop with
    | none => exact h.refl
    | some prte =>
      dsimp only
      split_ifs
      · have hc : n.Steps K (n.helper_callback now next_hop) := h.helper_callback next_hop
        exact hc.trans (hc.ok.recv dst p)
      · exact h.recv dst p

/-! ### Updates -/

/-- No packet waits for the route, or it is stored. -/
def Stored (n : DsdvNode) (src : Nsaddr) (now : ℚ) (r : DsdvRoute) : Prop :=
  r.dst ≠ n.myaddr_ → ∀ e q, n.table_ r.dst = some e → e.q = some q →
    (n.learn src now r).metric ≠ dsdvBig → e.Fresh (n.learn src now r)

/-- So it is with every route of the update, each in the state that it meets. -/
def AllStored (src : Nsaddr) (now : ℚ) : DsdvNode → List DsdvRoute → Prop
  | _, [] => True
  | n, r :: rs => Stored n src now r ∧
      ∀ fuel n', processRoute fuel n src now r = .ok n' → AllStored src now n' rs

theorem learn_metric (n : DsdvNode) (src : Nsaddr) (now : ℚ) (r : DsdvRoute) :
    (n.learn src now r).metric = if r.metric ≠ dsdvBig then r.metric + 1 else r.metric := rfl

theorem compare_q {e : DsdvEnt} {rte : DsdvEnt} (h : (compare now (some e) rte).2.2 = false) :
    (compare now (some e) rte).2.1.q = e.q := by
  rw [compare] at h ⊢
  dsimp only at h ⊢
  split_ifs at h ⊢ <;> rfl

/-- What the table has for the route's destination: the route, or what it had before. -/
theorem processRoute_entry {fuel : ℕ} {r : DsdvRoute} (hd : r.dst ≠ n.myaddr_)
    (hstored : Stored n src now r)
    (hqueue : ∀ e, n.table_ r.dst = some e → e.metric ≠ dsdvBig → e.q = none)
    (h : processRoute fuel n src now r = .ok n') :
    ∃ x, n' = n.addEntry r.dst x ∧ (x.metric ≠ dsdvBig → x.q = none) ∧
      ((x.metric = (n.learn src now r).metric ∧ x.seqnum = r.seqnum ∧ x.hop = src ∧
          ∀ e, n.table_ r.dst = some e → e.Fresh (n.learn src now r)) ∨
        ∃ e, n.table_ r.dst = some e ∧ x.metric = e.metric ∧ x.seqnum = e.seqnum ∧
          x.hop = e.hop) := by
  obtain ⟨hq, hm, hs, hh, hcases⟩ := compare_spec now (n.table_ r.dst) (n.learn src now r)
  obtain ⟨d, hc⟩ : ∃ d, compare now (n.table_ r.dst) (n.learn src now r) = d := ⟨_, rfl⟩
  rw [processRoute_eq hd hc] at h
  have hcq : ∀ e, n.table_ r.dst = some e → d.2.2 = false → d.2.1.q = e.q := by
    intro e he hno
    rw [he] at hc
    rw [← hc] at hno ⊢
    exact compare_q hno
  rw [hc] at hq hm hs hh hcases
  rw [learn_q] at hq
  split_ifs at h with hbig
  by_cases hnull : d.1.q = none ∨ d.1.metric = dsdvBig
  · rw [retry_null hnull] at h
    refine ⟨d.2.1, (Except.ok.inj h).symm, ?_, ?_⟩
    · rcases hcases with ⟨-, hent, -⟩ | ⟨hno, e, he, -, hme, -, -⟩
      · rw [hent]
        exact fun hb => hnull.resolve_right hb
      · rw [hcq e he hno, hme]
        exact hqueue e he
    · rcases hcases with ⟨-, hent, hall⟩ | ⟨-, e, he, -, hsame⟩
      · rw [hent]
        exact .inl ⟨hm, hs, hh, hall⟩
      · exact .inr ⟨e, he, hsame⟩
  · obtain ⟨hdq, hdm⟩ := not_or.mp hnull
    obtain ⟨q, hdq⟩ := Option.ne_none_iff_exists'.mp hdq
    rw [retry_some hdq hdm] at h
    have hfresh : ∀ e, n.table_ r.dst = some e → e.Fresh (n.learn src now r) := by
      intro e he
      rw [he, hdq] at hq
      exact hstored hd e q he hq.symm (hm ▸ hdm)
    cases hdrain : drain (n.addEntry r.dst d.2.1).myaddr_ (d.2.1.metric != dsdvBig) fuel q with
    | none =>
      rw [hdrain] at h
      cases h
    | some out =>
      rw [hdrain, Option.elim_some] at h
      split_ifs at h
      refine ⟨{ d.1 with q := none }, ?_, fun _ => rfl, .inl ⟨hm, hs, hh, hfresh⟩⟩
      rw [← Except.ok.inj h, DsdvNode.addEntry, DsdvNode.addEntry, DsdvNode.addEntry,
        Function.update_idem]

/-- A route that is stored is as good as what was told. -/
theorem Told.entryOk {i : Nsaddr} {r : DsdvRoute} {x : DsdvEnt} (h : Told K src r)
    (hmetric : x.metric = (n.learn src now r).metric) (hseqnum : x.seqnum = r.seqnum)
    (hhop : x.hop = src) (hq : x.metric ≠ dsdvBig → x.q = none) : EntryOk K i r.dst x := by
  rw [learn_metric] at hmetric
  by_cases hr : r.metric = dsdvBig
  · rw [if_neg (not_not.mpr hr)] at hmetric
    exact entryOk_big (hmetric.trans hr)
  · rw [if_pos hr] at hmetric
    have hbig := h.big
    refine ⟨?_, fun _ => hseqnum ▸ h.even hr, hq, fun _ _ => ?_⟩
    · rw [hmetric]
      unfold dsdvBig at *
      bv_omega
    · rw [hhop, hseqnum, hmetric, BitVec.add_sub_cancel]
      exact h.stands

theorem Ok.processRoute (h : n.Ok K) {r : DsdvRoute} (hr : Told K src r)
    (hstored : Stored n src now r) {fuel : ℕ}
    (hn' : DsdvNode.processRoute fuel n src now r = .ok n') :
    n.Steps K n' ∧ n'.table_ n.myaddr_ = n.table_ n.myaddr_ := by
  by_cases hd : r.dst = n.myaddr_
  · rw [processRoute_own hd] at hn'
    obtain rfl := Except.ok.inj hn'
    exact ⟨h.refl, rfl⟩
  · obtain ⟨x, rfl, hxq, hx⟩ := processRoute_entry hd hstored
      (fun e he => (h.entries _ e he).queue) hn'
    refine ⟨?_, Function.update_of_ne (Ne.symm hd) ..⟩
    rcases hx with ⟨hm, hs, hh, hall⟩ | ⟨e, he, hm, hs, hh⟩
    · refine h.addEntry (hr.entryOk hm hs hh hxq) fun _ e he => ?_
      exact (hall e he).notOlder.trans (DsdvEnt.notOlder_of_eq hs hm)
    · refine h.addEntry ((h.entries _ e he).congr hm hs hh hxq) fun _ e' he' => ?_
      obtain rfl := Option.some.inj (he.symm.trans he')
      exact DsdvEnt.notOlder_of_eq hs hm

theorem Ok.processRoutes (h : n.Ok K) {rs : List DsdvRoute} (hrs : ∀ r ∈ rs, Told K src r)
    (hstored : AllStored src now n rs) {fuel : ℕ}
    (hn' : DsdvNode.processRoutes fuel n src now rs = .ok n') :
    n.Steps K n' ∧ n'.table_ n.myaddr_ = n.table_ n.myaddr_ := by
  induction rs generalizing n with
  | nil =>
    obtain rfl := Except.ok.inj hn'
    exact ⟨h.refl, rfl⟩
  | cons r rs ih =>
    rw [DsdvNode.processRoutes] at hn'
    cases hr : DsdvNode.processRoute fuel n src now r with
    | error e =>
      rw [hr] at hn'
      cases hn'
    | ok m =>
      rw [hr] at hn'
      obtain ⟨hstep, hown⟩ := h.processRoute (hrs r (by simp)) hstored.1 hr
      obtain ⟨hrest, hown'⟩ := ih hstep.ok (fun r hr => hrs r (List.mem_cons_of_mem _ hr))
        (hstored.2 fuel m hr) hn'
      rw [hstep.addr] at hown'
      exact ⟨hstep.trans hrest, hown'.trans hown⟩

theorem Ok.heardFrom (h : n.Ok K) (src : Nsaddr) : n.Steps K (n.heardFrom src now) := by
  rw [DsdvNode.heardFrom]
  cases he : n.table_ src with
  | none =>
    refine h.addEntry ⟨?_, fun _ => ?_, fun _ => rfl, fun _ _ => .inl rfl⟩ fun _ e he' => ?_
    · show (1 : BitVec 32) ≤ dsdvBig
      decide
    · show (0 : BitVec 32).toNat % 2 = 0
      decide
    · rw [he] at he'
      cases he'
  | some e =>
    have hok := h.entries src e he
    refine h.addEntry (hok.congr rfl rfl rfl hok.queue) fun _ e' he' => ?_
    obtain rfl := Option.some.inj (he.symm.trans he')
    exact DsdvEnt.notOlder_of_eq rfl rfl

/-- An update of another node leaves every entry as new as it was. -/
theorem Ok.update (h : n.Ok K) {rs : List DsdvRoute} (hrs : ∀ r ∈ rs, Told K src r)
    (hstored : AllStored src now n rs) (hsrc : src ≠ n.myaddr_) {fuel : ℕ}
    (hn' : DsdvNode.processRoutes fuel n src now rs = .ok n') :
    n.Steps K (n'.heardFrom src now) ∧ ∀ d, n.Grows (n'.heardFrom src now) d := by
  obtain ⟨hstep, hown⟩ := h.processRoutes hrs hstored hn'
  have hheard : n'.Steps K (n'.heardFrom src now) := hstep.ok.heardFrom src
  have hall := hstep.trans hheard
  refine ⟨hall, fun d => ?_⟩
  by_cases hd : d = n.myaddr_
  · rw [hd]
    intro e he
    refine ⟨e, ?_, DsdvEnt.notOlder_of_eq rfl rfl⟩
    rw [← he, ← hown, DsdvNode.heardFrom]
    exact Function.update_of_ne (Ne.symm hsrc) ..
  · exact hall.grows d hd

end DsdvNode

end Ns2
