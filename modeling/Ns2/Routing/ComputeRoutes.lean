import Ns2.Routing.RouteLogic
import Ns2.Lib.ShortestPath

/-! Each row of the route table holds the first hops of shortest paths, and the rows of the
nodes together forward along one shortest path. -/

namespace Ns2.RouteLogic

open ShortestPath

variable {ε : Type*}

/-- A link between nodes. -/
def Link (s : RouteLogic ε) (u v : ℕ) (c : ℚ) : Prop :=
  u ∈ s.nodes ∧ v ∈ s.nodes ∧ s.adj u v = c ∧ c < infinity

/-- The costs are positive, and a cost that is not below infinity is infinity. -/
def Costs (s : RouteLogic ε) : Prop :=
  ∀ u ∈ s.nodes, ∀ v ∈ s.nodes, 0 < s.adj u v ∧ s.adj u v ≤ infinity

theorem Costs.link_pos {s : RouteLogic ε} (hs : Costs s) (u v : ℕ) (c : ℚ) (h : Link s u v c) :
    0 < c := by
  obtain ⟨hu, hv, rfl, -⟩ := h
  exact (hs u hu v hv).1

/-! ### One source -/

/-- The distance of a routed node. -/
def dist (k : ℕ) (hopcnt : ℕ → ℚ) (u : ℕ) : ℚ := if u = k then 0 else hopcnt u

/-- The routed nodes have their least costs, and every other node the least cost over one of
them; only the node `o` may have been routed with its links still to be looked at, except for
the links to `done`. -/
structure Inv (s : RouteLogic ε) (k o : ℕ) (done : List ℕ) (t : Arrays ε) : Prop where
  source : t.parent k = k
  le : ∀ v ∈ s.nodes, v ≠ k → t.hopcnt v ≤ infinity
  none : ∀ v ∈ s.nodes, v ≠ k → t.hopcnt v = infinity →
    t.route_ (index k v s.size_) = ⟨0, .none⟩
  some : ∀ v ∈ s.nodes, v ≠ k → t.hopcnt v < infinity →
    Via (Link s) k (t.route_ (index k v s.size_)).next_hop v (t.hopcnt v) ∧
      (t.route_ (index k v s.size_)).entry =
        s.adjEntry k (t.route_ (index k v s.size_)).next_hop
  routed : ∀ u ∈ s.nodes, t.parent u = k →
    IsDist (Link s) k u (dist k t.hopcnt u) ∧ (u ≠ k → t.hopcnt u < infinity)
  relaxed : ∀ u ∈ s.nodes, t.parent u = k → ∀ x, t.parent x ≠ k → ∀ b, Link s u x b →
    (u = o → x ∈ done) → t.hopcnt x ≤ dist k t.hopcnt u + b

section source

variable {s : RouteLogic ε} (hs : Costs s) {k : ℕ} (hk : k ∈ s.nodes)

include hk in
theorem ne_of_parent {t : Arrays ε} (h : t.parent k = k) {v : ℕ} (hv : t.parent v ≠ k) :
    v ≠ k := by
  rintro rfl
  exact hv h

include hs hk in
theorem Inv.relax {o : ℕ} {done : List ℕ} {t : Arrays ε} (h : Inv s k o done t)
    (ho : o ∈ s.nodes) (hok : o ≠ k) (hpo : t.parent o = k) {w : ℕ} (hw : w ∈ s.nodes) :
    Inv s k o (w :: done) (relax s k o t w) := by
  have hoinf := (h.routed o ho hpo).2 hok
  have hdo : dist k t.hopcnt o = t.hopcnt o := if_neg hok
  unfold RouteLogic.relax
  by_cases hlt : t.parent w ≠ k ∧ t.hopcnt o + s.adj o w < t.hopcnt w
  · obtain ⟨hpw, hlt⟩ := hlt
    have hwk : w ≠ k := ne_of_parent hk h.source hpw
    have hwo : w ≠ o := by
      rintro rfl
      exact hpw hpo
    have hlink : Link s o w (s.adj o w) := by
      refine ⟨ho, hw, rfl, ?_⟩
      have hvia := (h.some o ho hok hoinf).1.pos hs.link_pos
      have := h.le w hw hwk
      linarith
    have hnew : t.hopcnt o + s.adj o w < infinity := hlt.trans_le (h.le w hw hwk)
    have hother : ∀ v ∈ s.nodes, v ≠ w →
        Function.update t.route_ (index k w s.size_) (t.route_ (index k o s.size_))
          (index k v s.size_) = t.route_ (index k v s.size_) := fun v hv hvw => by
      refine Function.update_of_ne (fun he => hvw ?_) _ _
      exact ((index_inj (mem_nodes.mp hv).2 (mem_nodes.mp hw).2).mp he).2
    have hdist : ∀ u, t.parent u = k →
        dist k (Function.update t.hopcnt w (t.hopcnt o + s.adj o w)) u =
          dist k t.hopcnt u := fun u hu => by
      have huw : u ≠ w := by
        rintro rfl
        exact hpw hu
      simp [dist, Function.update_of_ne huw]
    rw [if_pos ⟨hpw, hlt⟩]
    refine ⟨h.source, fun v hv hvk => ?_, fun v hv hvk hvi => ?_, fun v hv hvk hvi => ?_,
      fun u hu hpu => ?_, fun u hu hpu x hx b hb hdone => ?_⟩
    · by_cases hvw : v = w
      · subst hvw
        simpa using hnew.le
      · simpa [hvw] using h.le v hv hvk
    · by_cases hvw : v = w
      · subst hvw
        simp [hnew.ne] at hvi
      · dsimp only at hvi ⊢
        rw [hother v hv hvw]
        exact h.none v hv hvk (by simpa [hvw] using hvi)
    · by_cases hvw : v = w
      · subst hvw
        obtain ⟨hvia, he⟩ := h.some o ho hok hoinf
        simpa using ⟨hvia.snoc hlink, he⟩
      · dsimp only at hvi ⊢
        rw [hother v hv hvw]
        simpa [hvw] using h.some v hv hvk (by simpa [hvw] using hvi)
    · obtain ⟨h1, h2⟩ := h.routed u hu hpu
      have huw : u ≠ w := by
        rintro rfl
        exact hpw hpu
      exact ⟨(hdist u hpu).symm ▸ h1, fun huk => by simpa [huw] using h2 huk⟩
    · dsimp only at hpu hx ⊢
      rw [hdist u hpu]
      by_cases hxw : x = w
      · subst hxw
        by_cases huo : u = o
        · subst huo
          obtain ⟨-, -, rfl, -⟩ := hb
          simp [hdo]
        · have := h.relaxed u hu hpu x hx b hb (fun he => absurd he huo)
          simp only [Function.update_self]
          exact hlt.le.trans this
      · simp only [Function.update_of_ne hxw]
        refine h.relaxed u hu hpu x hx b hb fun huo => ?_
        exact (List.mem_cons.mp (hdone huo)).resolve_left hxw
  · rw [if_neg hlt]
    refine ⟨h.source, h.le, h.none, h.some, h.routed, fun u hu hpu x hx b hb hdone => ?_⟩
    by_cases huo : u = o
    · subst huo
      rcases List.mem_cons.mp (hdone rfl) with rfl | hd
      · obtain ⟨-, -, rfl, -⟩ := hb
        rw [hdo]
        exact not_lt.mp fun hh => hlt ⟨hx, hh⟩
      · exact h.relaxed u hu hpu x hx b hb fun _ => hd
    · exact h.relaxed u hu hpu x hx b hb fun he => absurd he huo

include hs hk in
theorem Inv.foldl_relax {o : ℕ} {l done : List ℕ} {t : Arrays ε} (h : Inv s k o done t)
    (ho : o ∈ s.nodes) (hok : o ≠ k) (hpo : t.parent o = k) (hl : ∀ w ∈ l, w ∈ s.nodes) :
    Inv s k o (l.reverse ++ done) (l.foldl (RouteLogic.relax s k o) t) ∧
      (l.foldl (RouteLogic.relax s k o) t).parent = t.parent := by
  induction l generalizing t done with
  | nil => exact ⟨h, rfl⟩
  | cons w l ih =>
    have hparent : (RouteLogic.relax s k o t w).parent = t.parent := by
      unfold RouteLogic.relax
      split_ifs <;> rfl
    have hw := h.relax hs hk ho hok hpo (hl w (by simp))
    have := ih hw (by rw [hparent]; exact hpo) fun x hx => hl x (List.mem_cons_of_mem _ hx)
    rw [hparent] at this
    simpa using this

theorem nearest_spec (s : RouteLogic ε) (k : ℕ) (t : Arrays ε) :
    (nearest s k t = 0 ∨ nearest s k t ∈ s.nodes ∧ t.parent (nearest s k t) ≠ k ∧
      t.hopcnt (nearest s k t) < t.hopcnt 0) ∧
    ∀ w ∈ s.nodes, t.parent w ≠ k → t.hopcnt (nearest s k t) ≤ t.hopcnt w := by
  suffices h : ∀ (l : List ℕ) (o : ℕ), (∀ w ∈ l, w ∈ s.nodes) →
      (o = 0 ∨ o ∈ s.nodes ∧ t.parent o ≠ k ∧ t.hopcnt o < t.hopcnt 0) →
      let o' := l.foldl (fun o w => if t.parent w ≠ k ∧ t.hopcnt w < t.hopcnt o then w else o) o
      (o' = 0 ∨ o' ∈ s.nodes ∧ t.parent o' ≠ k ∧ t.hopcnt o' < t.hopcnt 0) ∧
        t.hopcnt o' ≤ t.hopcnt o ∧ ∀ w ∈ l, t.parent w ≠ k → t.hopcnt o' ≤ t.hopcnt w by
    obtain ⟨h1, -, h3⟩ := h s.nodes 0 (fun _ hw => hw) (.inl rfl)
    exact ⟨h1, h3⟩
  intro l
  induction l with
  | nil => exact fun o _ ho => ⟨ho, le_rfl, by simp⟩
  | cons w l ih =>
    intro o hl ho
    have hl' : ∀ x ∈ l, x ∈ s.nodes := fun x hx => hl x (List.mem_cons_of_mem _ hx)
    rw [List.foldl_cons]
    by_cases hw : t.parent w ≠ k ∧ t.hopcnt w < t.hopcnt o
    · rw [if_pos hw]
      have hw0 : t.hopcnt w < t.hopcnt 0 := by
        rcases ho with rfl | ⟨-, -, ho⟩
        · exact hw.2
        · exact hw.2.trans ho
      obtain ⟨h1, h2, h3⟩ := ih w hl' (.inr ⟨hl w (by simp), hw.1, hw0⟩)
      refine ⟨h1, h2.trans hw.2.le, fun x hx hpx => ?_⟩
      rcases List.mem_cons.mp hx with rfl | hx
      · exact h2
      · exact h3 x hx hpx
    · rw [if_neg hw]
      obtain ⟨h1, h2, h3⟩ := ih o hl' ho
      refine ⟨h1, h2, fun x hx hpx => ?_⟩
      rcases List.mem_cons.mp hx with rfl | hx
      · exact h2.trans (not_lt.mp fun hh => hw ⟨hpx, hh⟩)
      · exact h3 x hx hpx

include hs hk in
/-- The nearest node is routed: its distance is the least cost. -/
theorem Inv.settle {t : Arrays ε} (h : Inv s k 0 [] t) {o : ℕ} (ho : o ∈ s.nodes)
    (hpo : t.parent o ≠ k) (hoinf : t.hopcnt o < infinity)
    (hmin : ∀ w ∈ s.nodes, t.parent w ≠ k → t.hopcnt o ≤ t.hopcnt w) :
    Inv s k o [] { t with parent := Function.update t.parent o k } := by
  have hok : o ≠ k := ne_of_parent hk h.source hpo
  have hdist : IsDist (Link s) k o (t.hopcnt o) := by
    refine IsDist.of_frontier (S := {u | u ∈ s.nodes ∧ t.parent u = k}) hs.link_pos
      ⟨hk, h.source⟩ (fun u hu => ⟨_, (h.routed u hu.1 hu.2).1, fun x hx b hb => ?_⟩)
      (fun hmem => hpo hmem.2) (h.some o ho hok hoinf).1.walk
    have hpx : t.parent x ≠ k := fun hpx => hx ⟨hb.2.1, hpx⟩
    refine (hmin x hb.2.1 hpx).trans (h.relaxed u hu.1 hu.2 x hpx b hb fun hu0 => ?_)
    have := (mem_nodes.mp hu.1).1
    omega
  have hold : ∀ u, u ≠ o → Function.update t.parent o k u = t.parent u := fun u hu =>
    Function.update_of_ne hu _ _
  refine ⟨?_, h.le, h.none, h.some, fun u hu hpu => ?_, fun u hu hpu x hx b hb hdone => ?_⟩
  · exact (hold k hok.symm).trans h.source
  · by_cases huo : u = o
    · subst huo
      refine ⟨?_, fun _ => hoinf⟩
      simpa [dist, hok] using hdist
    · exact h.routed u hu (hold u huo ▸ hpu)
  · have huo : u ≠ o := fun huo => absurd (hdone huo) (by simp)
    have hxo : x ≠ o := by
      rintro rfl
      exact hx (Function.update_self ..)
    refine h.relaxed u hu (hold u huo ▸ hpu) x (hold x hxo ▸ hx) b hb fun hu0 => ?_
    have := (mem_nodes.mp hu).1
    omega

/-- No node that is not routed is nearer than infinity. -/
def Done (s : RouteLogic ε) (k : ℕ) (t : Arrays ε) : Prop :=
  ∀ x ∈ s.nodes, t.parent x ≠ k → infinity ≤ t.hopcnt x

/-- The number of nodes that are not routed yet. -/
def unrouted (s : RouteLogic ε) (k : ℕ) (t : Arrays ε) : ℕ :=
  (s.nodes.toFinset.filter fun x => t.parent x ≠ k).card

include hs hk in
theorem Inv.round {t : Arrays ε} (h : Inv s k 0 [] t) :
    Inv s k 0 [] (round s k t) ∧ (Done s k t → Done s k (round s k t)) ∧
      (Done s k (round s k t) ∨ unrouted s k (round s k t) < unrouted s k t) := by
  have hne0 : ∀ v ∈ s.nodes, v ≠ 0 := fun v hv => by
    have := (mem_nodes.mp hv).1
    omega
  obtain ⟨t₀, ht₀⟩ : ∃ t₀ : Arrays ε, t₀ =
    { t with hopcnt := Function.update t.hopcnt 0 infinity } := ⟨_, rfl⟩
  have hhop : ∀ v ∈ s.nodes, t₀.hopcnt v = t.hopcnt v := fun v hv => by
    rw [ht₀]
    exact Function.update_of_ne (hne0 v hv) _ _
  have h0 : t₀.hopcnt 0 = infinity := by
    rw [ht₀]
    exact Function.update_self 0 infinity t.hopcnt
  have hparent : t₀.parent = t.parent := by rw [ht₀]
  have hroute : t₀.route_ = t.route_ := by rw [ht₀]
  have hdist : ∀ u ∈ s.nodes, dist k t₀.hopcnt u = dist k t.hopcnt u := fun u hu => by
    simp only [dist, hhop u hu]
  have hclear : Inv s k 0 [] t₀ := by
    refine ⟨hparent ▸ h.source, fun v hv hvk => (hhop v hv).symm ▸ h.le v hv hvk,
      fun v hv hvk hvi => hroute ▸ h.none v hv hvk (hhop v hv ▸ hvi),
      fun v hv hvk hvi => ?_, fun u hu hpu => ?_, fun u hu hpu x hx b hb hu0 => ?_⟩
    · rw [hhop v hv] at hvi ⊢
      rw [hroute]
      exact h.some v hv hvk hvi
    · rw [hdist u hu, hhop u hu]
      exact h.routed u hu (hparent ▸ hpu)
    · rw [hdist u hu, hhop x hb.2.1]
      exact h.relaxed u hu (hparent ▸ hpu) x (hparent ▸ hx) b hb hu0
  obtain ⟨ho, hmin⟩ := nearest_spec s k t₀
  unfold RouteLogic.round
  rw [← ht₀]
  dsimp only
  generalize nearest s k t₀ = o at ho hmin
  by_cases ho0 : o = 0
  · subst ho0
    have hpar : ∀ v ∈ s.nodes, Function.update t₀.parent 0 k v = t₀.parent v := fun v hv =>
      Function.update_of_ne (hne0 v hv) _ _
    have hdone : Done s k { t₀ with parent := Function.update t₀.parent 0 k } := fun x hx hpx => by
      rw [← h0]
      exact hmin x hx (hpar x hx ▸ hpx)
    rw [if_pos rfl]
    refine ⟨⟨(hpar k hk).trans hclear.source, hclear.le, hclear.none, hclear.some,
      fun u hu hpu => hclear.routed u hu (hpar u hu ▸ hpu), fun u hu hpu x hx b hb hu0 => ?_⟩,
      fun _ => hdone, .inl hdone⟩
    exact hclear.relaxed u hu (hpar u hu ▸ hpu) x (hpar x hb.2.1 ▸ hx) b hb hu0
  · obtain ⟨hon, hpo, hlt⟩ := ho.resolve_left ho0
    have hok : o ≠ k := ne_of_parent hk hclear.source hpo
    rw [h0] at hlt
    rw [if_neg ho0]
    obtain ⟨hinv, hpar⟩ := (hclear.settle hs hk hon hpo hlt hmin).foldl_relax hs hk hon hok
      (Function.update_self ..) (l := s.nodes) fun _ hw => hw
    generalize s.nodes.foldl (RouteLogic.relax s k o) _ = t' at hinv hpar
    refine ⟨⟨hinv.source, hinv.le, hinv.none, hinv.some, hinv.routed,
      fun u hu hpu x hx b hb _ => hinv.relaxed u hu hpu x hx b hb fun _ => ?_⟩,
      fun hdone => ?_, .inr ?_⟩
    · simpa using hb.2.1
    · have := hdone o hon (hparent ▸ hpo)
      rw [hhop o hon] at hlt
      exact absurd hlt (not_lt.mpr this)
    · refine Finset.card_lt_card ((Finset.ssubset_iff_of_subset fun x hx => ?_).mpr ⟨o, ?_, ?_⟩)
      · obtain ⟨hx, hpx⟩ := Finset.mem_filter.mp hx
        refine Finset.mem_filter.mpr ⟨hx, fun hh => hpx ?_⟩
        rw [hpar]
        by_cases hxo : x = o
        · rw [hxo]
          exact Function.update_self ..
        · exact (Function.update_of_ne hxo _ _).trans (hparent ▸ hh)
      · exact Finset.mem_filter.mpr ⟨by simpa using hon, hparent ▸ hpo⟩
      · simp [hpar]

include hs hk in
theorem Inv.rounds {t : Arrays ε} (h : Inv s k 0 [] t) {l : List ℕ}
    (hl : Done s k t ∨ unrouted s k t ≤ l.length) :
    Inv s k 0 [] (l.foldl (fun t _ => RouteLogic.round s k t) t) ∧
      Done s k (l.foldl (fun t _ => RouteLogic.round s k t) t) := by
  induction l generalizing t with
  | nil =>
    refine ⟨h, hl.elim id fun hl x hx hpx => ?_⟩
    have hz := Finset.card_eq_zero.mp (Nat.le_zero.mp hl)
    have : x ∈ (∅ : Finset ℕ) := hz ▸ Finset.mem_filter.mpr ⟨by simpa using hx, hpx⟩
    simp at this
  | cons w l ih =>
    obtain ⟨hinv, hdone, hless⟩ := h.round hs hk
    refine ih hinv ?_
    rcases hl with hl | hl
    · exact .inl (hdone hl)
    · rw [List.length_cons] at hl
      exact hless.imp id fun hlt => Nat.le_of_lt_succ (hlt.trans_le hl)

omit hs hk in
theorem foldl_neighbour {l : List ℕ} (hl : ∀ w ∈ l, w ∈ s.nodes) {t : Arrays ε}
    (hp : t.parent = id) :
    (l.foldl (neighbour s k) t).parent = id ∧ ∀ v ∈ s.nodes, v ≠ k →
      (v ∈ l → (l.foldl (neighbour s k) t).hopcnt v = s.adj k v) ∧
      (v ∉ l → (l.foldl (neighbour s k) t).hopcnt v = t.hopcnt v) ∧
      (l.foldl (neighbour s k) t).route_ (index k v s.size_) =
        if v ∈ l ∧ s.adj k v ≠ infinity then ⟨v, s.adjEntry k v⟩
        else t.route_ (index k v s.size_) := by
  induction l generalizing t with
  | nil => exact ⟨hp, fun v _ _ => ⟨by simp, by simp, by simp⟩⟩
  | cons w l ih =>
    have hw := (mem_nodes.mp (hl w (by simp))).2
    rw [List.foldl_cons]
    obtain ⟨h1, h2⟩ := ih (fun x hx => hl x (List.mem_cons_of_mem _ hx)) (t := neighbour s k t w) (by
      unfold neighbour
      split_ifs <;> exact hp)
    refine ⟨h1, fun v hv hvk => ?_⟩
    obtain ⟨h3, h4, h5⟩ := h2 v hv hvk
    have hvn := (mem_nodes.mp hv).2
    have hrow : v ≠ w → index k v s.size_ ≠ index k w s.size_ := fun hne he =>
      hne ((index_inj hvn hw).mp he).2
    by_cases hvl : v ∈ l
    · refine ⟨fun _ => h3 hvl, fun hn => absurd (List.mem_cons_of_mem _ hvl) hn, ?_⟩
      rw [h5]
      by_cases hinf : s.adj k v = infinity
      · simp only [hinf, ne_eq, not_true_eq_false, and_false, if_false]
        unfold neighbour
        by_cases hvw : v = w
        · subst hvw
          simp [hp, hvk, hinf]
        · split_ifs <;> first | rfl | exact Function.update_of_ne (hrow hvw) _ _
      · simp [hvl, hinf]
    · have h4 := h4 hvl
      rw [if_neg (fun hh => hvl hh.1)] at h5
      rw [h4, h5]
      by_cases hvw : v = w
      · subst hvw
        have hpv : t.parent v ≠ k := by simpa [hp] using hvk
        refine ⟨fun _ => by simp [neighbour, hpv], fun hn => absurd (by simp) hn, ?_⟩
        by_cases hinf : s.adj k v = infinity <;> simp [neighbour, hpv, hinf]
      · refine ⟨fun hm => absurd ((List.mem_cons.mp hm).resolve_left hvw) hvl, fun _ => ?_, ?_⟩
        · unfold neighbour
          split_ifs <;> first | rfl | exact Function.update_of_ne hvw _ _
        · rw [if_neg (by simp [hvw, hvl])]
          unfold neighbour
          split_ifs <;> first | rfl | exact Function.update_of_ne (hrow hvw) _ _

include hs hk in
theorem inv_neighbours {t : Arrays ε}
    (hzero : ∀ v ∈ s.nodes, t.route_ (index k v s.size_) = ⟨0, none⟩) :
    Inv s k 0 [] (s.nodes.foldl (neighbour s k) { t with parent := id }) := by
  obtain ⟨hp, hv⟩ := foldl_neighbour (k := k) (fun _ hw => hw)
    (show ({ t with parent := id } : Arrays ε).parent = id from rfl)
  generalize s.nodes.foldl (neighbour s k) { t with parent := id } = t' at hp hv
  have hhop : ∀ v ∈ s.nodes, v ≠ k → t'.hopcnt v = s.adj k v := fun v hvn hvk =>
    (hv v hvn hvk).1 hvn
  refine ⟨by rw [hp]; rfl, fun v hvn hvk => ?_, fun v hvn hvk hvi => ?_, fun v hvn hvk hvi => ?_,
    fun u hu hpu => ?_, fun u hu hpu x hx b hb _ => ?_⟩
  · rw [hhop v hvn hvk]
    exact (hs k hk v hvn).2
  · rw [(hv v hvn hvk).2.2, if_neg fun hh => hh.2 (hhop v hvn hvk ▸ hvi)]
    exact hzero v hvn
  · rw [hhop v hvn hvk] at hvi ⊢
    rw [(hv v hvn hvk).2.2, if_pos ⟨hvn, hvi.ne⟩]
    exact ⟨.edge ⟨hk, hvn, rfl, hvi⟩, rfl⟩
  · have huk : u = k := by simpa [hp] using hpu
    subst huk
    refine ⟨?_, fun hh => absurd rfl hh⟩
    rw [dist, if_pos rfl]
    exact isDist_self hs.link_pos u
  · have huk : u = k := by simpa [hp] using hpu
    subst huk
    have hxk : x ≠ u := by simpa [hp] using hx
    rw [hhop x hb.2.1 hxk, dist, if_pos rfl, zero_add, hb.2.2.1]

/-- Row `k` of the table. -/
structure Row (s : RouteLogic ε) (k : ℕ) (route_ : ℕ → RouteEntry ε) : Prop where
  near : ∀ d ∈ s.nodes, d ≠ k → ∀ c < infinity, IsDist (Link s) k d c →
    FirstHop (Link s) k d (route_ (index k d s.size_)).next_hop ∧
      (route_ (index k d s.size_)).entry = s.adjEntry k (route_ (index k d s.size_)).next_hop
  far : ∀ d ∈ s.nodes, d ≠ k → (∀ c < infinity, ¬ IsDist (Link s) k d c) →
    route_ (index k d s.size_) = ⟨0, none⟩

include hs hk in
theorem row_source {t : Arrays ε}
    (hzero : ∀ v ∈ s.nodes, t.route_ (index k v s.size_) = ⟨0, none⟩) :
    Row s k (RouteLogic.source s t k).route_ := by
  have hrounds := (inv_neighbours hs hk hzero).rounds hs hk (l := s.nodes) (.inr (by
    refine (Finset.card_filter_le _ _).trans ?_
    exact List.toFinset_card_le _))
  obtain ⟨h, hdone⟩ := hrounds
  unfold RouteLogic.source
  dsimp only
  generalize s.nodes.foldl (fun t _ => RouteLogic.round s k t) _ = t' at h hdone
  have hfar : ∀ d ∈ s.nodes, t'.parent d ≠ k → ∀ c, Walk (Link s) k d c → infinity ≤ c :=
    fun d hd hpd c hc => by
      refine frontier_le (S := {u | u ∈ s.nodes ∧ t'.parent u = k}) hs.link_pos ⟨hk, h.source⟩
        (fun u hu => ⟨_, (h.routed u hu.1 hu.2).1, fun x hx b hb => ?_⟩) (fun hmem => hpd hmem.2) hc
      have hpx : t'.parent x ≠ k := fun hpx => hx ⟨hb.2.1, hpx⟩
      refine (hdone x hb.2.1 hpx).trans (h.relaxed u hu.1 hu.2 x hpx b hb fun hu0 => ?_)
      have := (mem_nodes.mp hu.1).1
      omega
  refine ⟨fun d hd hdk c hc hdist => ?_, fun d hd hdk hno => ?_⟩
  · by_cases hpd : t'.parent d = k
    · obtain ⟨hr, hlt⟩ := h.routed d hd hpd
      rw [dist, if_neg hdk] at hr
      obtain ⟨hvia, he⟩ := h.some d hd hdk (hlt hdk)
      exact ⟨⟨_, hr, hvia⟩, he⟩
    · exact absurd hc (not_lt.mpr (hfar d hd hpd c hdist.1))
  · by_cases hpd : t'.parent d = k
    · obtain ⟨hr, hlt⟩ := h.routed d hd hpd
      rw [dist, if_neg hdk] at hr
      exact absurd hr (hno _ (hlt hdk))
    · exact h.none d hd hdk ((h.le d hd hdk).antisymm (hdone d hd hpd))

end source

/-! ### All sources -/

/-- The rows other than `k` are unchanged. -/
def Frame (s : RouteLogic ε) (k : ℕ) (r r' : ℕ → RouteEntry ε) : Prop :=
  ∀ i, i ≠ k → ∀ j ∈ s.nodes, r' (index i j s.size_) = r (index i j s.size_)

theorem frame_update {s : RouteLogic ε} {k w : ℕ} (hw : w ∈ s.nodes) (r : ℕ → RouteEntry ε)
    (e : RouteEntry ε) : Frame s k r (Function.update r (index k w s.size_) e) := fun i hi j hj => by
  refine Function.update_of_ne (fun he => hi ?_) _ _
  exact ((index_inj (mem_nodes.mp hj).2 (mem_nodes.mp hw).2).mp he).1

theorem frame_foldl {s : RouteLogic ε} {k : ℕ} {f : Arrays ε → ℕ → Arrays ε}
    (hf : ∀ t, ∀ w ∈ s.nodes, Frame s k t.route_ (f t w).route_) {l : List ℕ}
    (hl : ∀ w ∈ l, w ∈ s.nodes) (t : Arrays ε) : Frame s k t.route_ (l.foldl f t).route_ := by
  induction l generalizing t with
  | nil => exact fun _ _ _ _ => rfl
  | cons w l ih =>
    intro i hi j hj
    rw [List.foldl_cons, ih (fun x hx => hl x (List.mem_cons_of_mem _ hx)) _ i hi j hj]
    exact hf t w (hl w (by simp)) i hi j hj

theorem frame_neighbour {s : RouteLogic ε} {k : ℕ} (t : Arrays ε) (w : ℕ) (hw : w ∈ s.nodes) :
    Frame s k t.route_ (neighbour s k t w).route_ := by
  unfold neighbour
  split_ifs
  · exact frame_update hw _ _
  all_goals exact fun _ _ _ _ => rfl

theorem frame_relax {s : RouteLogic ε} {k o : ℕ} (t : Arrays ε) (w : ℕ) (hw : w ∈ s.nodes) :
    Frame s k t.route_ (relax s k o t w).route_ := by
  unfold relax
  split_ifs
  · exact frame_update hw _ _
  · exact fun _ _ _ _ => rfl

theorem frame_round {s : RouteLogic ε} {k : ℕ} (t : Arrays ε) :
    Frame s k t.route_ (round s k t).route_ := by
  unfold round
  dsimp only
  split_ifs
  · exact fun _ _ _ _ => rfl
  · exact frame_foldl frame_relax (fun _ hw => hw) { t with parent := _, hopcnt := _ }

theorem frame_source {s : RouteLogic ε} (t : Arrays ε) (k : ℕ) :
    Frame s k t.route_ (source s t k).route_ := fun i hi j hj => by
  refine (frame_foldl (fun t _ _ => frame_round t) (fun _ hw => hw) _ i hi j hj).trans ?_
  exact frame_foldl frame_neighbour (fun _ hw => hw) { t with parent := id } i hi j hj

theorem rows_sources {s : RouteLogic ε} (hs : Costs s) {l : List ℕ} (hl : ∀ k ∈ l, k ∈ s.nodes)
    (hnd : l.Nodup) {t : Arrays ε}
    (hzero : ∀ k ∈ l, ∀ v ∈ s.nodes, t.route_ (index k v s.size_) = ⟨0, none⟩) :
    ∀ k ∈ l, Row s k (l.foldl (source s) t).route_ := by
  induction l generalizing t with
  | nil => simp
  | cons k l ih =>
    obtain ⟨hkl, hnd⟩ := List.nodup_cons.mp hnd
    have hl' : ∀ i ∈ l, i ∈ s.nodes := fun i hi => hl i (List.mem_cons_of_mem _ hi)
    have hframe : ∀ (l : List ℕ), k ∉ l → ∀ t : Arrays ε, ∀ j ∈ s.nodes,
        (l.foldl (source s) t).route_ (index k j s.size_) = t.route_ (index k j s.size_) := by
      intro l
      induction l with
      | nil => exact fun _ _ _ _ => rfl
      | cons i l ih =>
        intro hk t j hj
        rw [List.foldl_cons, ih (fun hm => hk (List.mem_cons_of_mem _ hm)) _ j hj]
        exact frame_source t i k (fun he => hk (he ▸ List.mem_cons_self)) j hj
    intro i hi
    rw [List.foldl_cons]
    rcases List.mem_cons.mp hi with rfl | hi
    · have hrow := row_source hs (hl i (by simp)) (hzero i (by simp))
      exact ⟨fun d hd => by rw [hframe l hkl _ d hd]; exact hrow.near d hd,
        fun d hd => by rw [hframe l hkl _ d hd]; exact hrow.far d hd⟩
    · refine ih hl' hnd (fun j hj v hv => ?_) i hi
      rw [frame_source t k j (fun he => hkl (he ▸ hj)) v hv]
      exact hzero j (List.mem_cons_of_mem _ hj) v hv

theorem foldl_self {s : RouteLogic ε} {k d : ℕ} (hd : d ∈ s.nodes) (hkd : k ≠ d) {l : List ℕ}
    (hl : ∀ i ∈ l, i ∈ s.nodes) (r : ℕ → RouteEntry ε) :
    l.foldl (fun r i => Function.update r (index i i s.size_) ⟨i, none⟩) r (index k d s.size_) =
      r (index k d s.size_) := by
  induction l generalizing r with
  | nil => rfl
  | cons i l ih =>
    rw [List.foldl_cons, ih fun x hx => hl x (List.mem_cons_of_mem _ hx)]
    refine Function.update_of_ne (fun he => hkd ?_) _ _
    obtain ⟨rfl, rfl⟩ := (index_inj (mem_nodes.mp hd).2 (mem_nodes.mp (hl i (by simp))).2).mp he
    rfl

theorem row_computeRoutes {s : RouteLogic ε} (hs : Costs s) (parent : ℕ → ℕ) (hopcnt : ℕ → ℚ)
    {k : ℕ} (hk : k ∈ s.nodes) : Row s k (computeRoutes s parent hopcnt).route_ := by
  have hrow := rows_sources hs (fun _ hk => hk) List.nodup_range'
    (t := ⟨parent, hopcnt, fun _ => ⟨0, .none⟩⟩) (fun _ _ _ _ => rfl) k hk
  have hself : ∀ d ∈ s.nodes, d ≠ k → (computeRoutes s parent hopcnt).route_ (index k d s.size_) =
      (s.nodes.foldl (source s) ⟨parent, hopcnt, fun _ => ⟨0, none⟩⟩).route_
        (index k d s.size_) := fun d hd hdk =>
    foldl_self hd hdk.symm (fun _ hi => hi) _
  exact ⟨fun d hd hdk => by rw [hself d hd hdk]; exact hrow.near d hd hdk,
    fun d hd hdk => by rw [hself d hd hdk]; exact hrow.far d hd hdk⟩

/-- An entry is nonzero exactly if the least cost is below infinity. It is then the first hop of a
shortest path, and the entries of the successive nodes forward along one. -/
theorem computeRoutes_forwards {s : RouteLogic ε} (hs : Costs s) (parent : ℕ → ℕ)
    (hopcnt : ℕ → ℚ) {k d : ℕ} (hk : k ∈ s.nodes) (hd : d ∈ s.nodes) (hkd : k ≠ d) :
    let s' := computeRoutes s parent hopcnt
    (s'.route k d ≠ 0 ↔ ∃ c < infinity, IsDist (Link s) k d c) ∧
      ∀ c < infinity, IsDist (Link s) k d c → FirstHop (Link s) k d (s'.route k d) ∧
        ∃ p, Forwards (Link s) (fun u => s'.route u d) d k p c ∧ p.Nodup := by
  intro s'
  have hhop : ∀ u ∈ s.nodes, u ≠ d → ∀ c < infinity, IsDist (Link s) u d c →
      FirstHop (Link s) u d (s'.route u d) := fun u hu hud c hc hdist =>
    ((row_computeRoutes hs parent hopcnt hu).near d hd hud.symm c hc hdist).1
  refine ⟨⟨fun hne => ?_, fun ⟨c, hc, hdist⟩ h0 => ?_⟩,
    fun c hc hdist => ⟨hhop k hk hkd c hc hdist, ?_⟩⟩
  · by_contra hno
    have hrow := (row_computeRoutes hs parent hopcnt hk).far d hd hkd.symm fun c hc hdist =>
      hno ⟨c, hc, hdist⟩
    exact hne (congrArg RouteEntry.next_hop hrow)
  · obtain ⟨b, c', hb, -⟩ := (hhop k hk hkd c hc hdist).dist
    have := (mem_nodes.mp hb.2.1).1
    omega
  · classical
    let S := s.nodes.toFinset.filter fun u => ∃ c < infinity, IsDist (Link s) u d c
    have hnext : ∀ u ∈ S, u ≠ d → FirstHop (Link s) u d (s'.route u d) ∧ s'.route u d ∈ S := by
      intro u hu hud
      obtain ⟨hu, c', hc', hdist'⟩ := Finset.mem_filter.mp hu
      have hfirst := hhop u (List.mem_toFinset.mp hu) hud c' hc' hdist'
      refine ⟨hfirst, ?_⟩
      obtain ⟨b, c'', hb, hdist'', hsum⟩ := hfirst.dist
      have hpos := hs.link_pos _ _ _ hb
      obtain rfl := hdist'.unique hsum
      exact Finset.mem_filter.mpr ⟨List.mem_toFinset.mpr hb.2.1, c'', by linarith, hdist''⟩
    have hkS : k ∈ S := Finset.mem_filter.mpr ⟨List.mem_toFinset.mpr hk, c, hc, hdist⟩
    obtain ⟨p, hp, hnd, -⟩ := exists_forwards hs.link_pos hnext hkS hdist
    exact ⟨p, hp, hnd⟩

/-- Three nodes in a line, one cost apart. -/
def lineCosts : RouteLogic Unit where
  size_ := 4
  adj_ i := ⟨if i ∈ [6, 9, 11, 14] then 1 else infinity, none⟩
  route_ _ := ⟨0, none⟩

theorem costs_lineCosts : Costs lineCosts := by
  intro u _ v _
  unfold adj lineCosts
  dsimp only
  split_ifs <;> norm_num [infinity]

theorem lineCosts_forwards :
    let s' := computeRoutes lineCosts id (fun _ => 7)
    (s'.route 1 3 ≠ 0 ↔ ∃ c < infinity, IsDist (Link lineCosts) 1 3 c) ∧
      ∀ c < infinity, IsDist (Link lineCosts) 1 3 c →
        FirstHop (Link lineCosts) 1 3 (s'.route 1 3) ∧
          ∃ p, Forwards (Link lineCosts) (fun u => s'.route u 3) 3 1 p c ∧ p.Nodup :=
  computeRoutes_forwards costs_lineCosts id (fun _ => 7) (by decide) (by decide) (by decide)

end Ns2.RouteLogic
