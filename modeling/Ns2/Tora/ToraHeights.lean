import Mathlib.Data.Prod.Lex
import Ns2.Tora.ToraCounts

/-! The heights of a TORA node: they are its own, the links follow them, and a reference level is
taken from a neighbour or made by the node. -/

namespace Ns2

namespace Height

/-- The lexicographic order that `compare` follows. -/
def key (h : Height) : ℚ ×ₗ ℤ ×ₗ ℤ ×ₗ ℤ ×ₗ ℤ :=
  toLex (h.tau, toLex (h.oid, toLex (h.r, toLex (h.delta, h.id))))

theorem compare_pos_iff (a b : Height) : 0 < a.compare b ↔ a.key < b.key := by
  unfold compare key
  simp only [Prod.Lex.toLex_lt_toLex]
  split_ifs <;> simp_all <;> grind

theorem key_injective : Function.Injective key := by
  rintro ⟨⟩ ⟨⟩ h
  simpa [key] using h

theorem compare_neg_iff (a b : Height) : a.compare b < 0 ↔ b.key < a.key := by
  unfold compare key
  simp only [Prod.Lex.toLex_lt_toLex]
  split_ifs <;> simp_all <;> grind

/-- Heights are totally ordered. -/
theorem isStrictTotalOrder : IsStrictTotalOrder Height fun a b => 0 < a.compare b := by
  simp only [compare_pos_iff]
  exact (RelEmbedding.preimage ⟨key, key_injective⟩ (· < ·)).isStrictTotalOrder

theorem compare_ne_zero {a b : Height} (h : a.id ≠ b.id) : a.compare b ≠ 0 := by
  intro hz
  have hp := compare_pos_iff a b
  have hn := compare_neg_iff a b
  have heq : a.key = b.key := le_antisymm (by
    by_contra hlt
    have := hn.mpr (not_le.mp hlt)
    omega) (by
    by_contra hlt
    have := hp.mpr (not_le.mp hlt)
    omega)
  exact h (congrArg Height.id (key_injective heq))

end Height

namespace HdrTora

/-- The height of an update is the sender's, or null as it is made for a destination. -/
def From (i : ℤ) : HdrTora → Prop
  | .upd dst h => h.id = i ∨ h.isNull = true ∧ h.id = dst
  | _ => True

end HdrTora

namespace TORADest

variable {td td' : TORADest} {i saddr : ℤ} {now : ℚ}

/-- A neighbour's height is below the node's. -/
def Below (h own : Height) : Prop :=
  h.isNull = false ∧ (own.isNull = true ∨ 0 < h.compare own)

/-- The heights at node `i` and the links: the node's height is its own, that of a neighbour is the
neighbour's, downstream neighbours are below, and there is no way on from the destination. -/
structure Own (i : ℤ) (td : TORADest) : Prop where
  height : td.height.id = i ∨ td.height.isNull = true ∧ td.height.id = td.index
  apart : ∀ tn ∈ td.nblist, tn.index ≠ i
  nbs : ∀ tn ∈ td.nblist, tn.height.id = tn.index ∨ tn.height.isNull = true ∧
    tn.height.id = td.index
  below : ∀ tn ∈ td.nblist, tn.lnk_stat = .dn → tn.index ≠ td.index → Below tn.height td.height
  last : td.index = i → td.height.isNull = true ∧ td.num_up = 0 ∧
    ∀ tn ∈ td.nblist, tn.height.isNull = true ∧ tn.lnk_stat = .un

/-- Where the reference level of a height comes from: it is kept, taken from a neighbour, or made
by the node, which is then its originator. -/
def Level (i : ℤ) (now : ℚ) (td td' : TORADest) : Prop :=
  td'.height = td.height ∨ td'.height.isNull = true ∨
    (∃ tn ∈ td'.nblist, td'.height.tau = tn.height.tau ∧ td'.height.oid = tn.height.oid) ∨
    td'.height = ⟨now, i, 0, 0, i⟩

/-- What a handler at node `i` gives. -/
structure Handles (i : ℤ) (now : ℚ) (td : TORADest) (r : TORADest × List HdrTora) : Prop where
  own : r.1.Own i
  index : r.1.index = td.index
  level : Level i now td r.1
  sent : ∀ p ∈ r.2, p.From i

theorem Own.congr (h : td.Own i) (hi : td'.index = td.index) (hh : td'.height = td.height)
    (hl : td'.nblist = td.nblist) (hu : td'.num_up = td.num_up) : td'.Own i := by
  obtain ⟨h1, h2, h3, h4, h5⟩ := h
  refine ⟨?_, ?_, ?_, ?_, ?_⟩
  · rwa [hh, hi]
  · rwa [hl]
  · rwa [hl, hi]
  · rwa [hl, hi, hh]
  · rwa [hi, hh, hu, hl]

theorem Own.upd (h : td.Own i) : td.upd.From i := h.height

/-- A link whose status is set anew. -/
theorem below_update_link_status {tn : TORANeighbor} {h : Height} {dst : ℤ}
    (hid : tn.height.id = tn.index ∨ tn.height.isNull = true ∧ tn.height.id = dst)
    (hne : tn.index ≠ i) (hh : h.id = i ∨ h.isNull = true)
    (hdn : (tn.update_link_status h).lnk_stat = .dn) : Below tn.height h := by
  rw [TORANeighbor.update_link_status] at hdn
  dsimp only at hdn
  split_ifs at hdn with h1 h2 h3 h4
  · exact ⟨Bool.eq_false_of_not_eq_true h1, .inl h2⟩
  · exact ⟨Bool.eq_false_of_not_eq_true h1, .inr h3⟩
  · have hzero : tn.height.compare h = 0 := by omega
    have htn : tn.height.id = tn.index := hid.resolve_right fun hn => h1 hn.1
    have hown : h.id = i := hh.resolve_right h2
    exact absurd hzero (Height.compare_ne_zero (by rw [htn, hown]; exact hne))

theorem Own.update_height (h : td.Own i) (tau : ℚ) (oid r delta id : ℤ)
    (hid : id = i ∨ (⟨tau, oid, r, delta, id⟩ : Height).isNull = true ∧ id = td.index)
    (hlast : td.index = i → (⟨tau, oid, r, delta, id⟩ : Height).isNull = true) :
    (td.update_height tau oid r delta id).Own i := by
  obtain ⟨-, hapart, hnbs, -, hend⟩ := h
  rw [update_height_eq]
  refine ⟨hid, ?_, ?_, ?_, fun hi => ⟨hlast hi, ?_, ?_⟩⟩
  · exact List.forall_mem_map.mpr hapart
  · exact List.forall_mem_map.mpr hnbs
  · refine List.forall_mem_map.mpr fun tn htn hdn _ => ?_
    exact @below_update_link_status i tn ⟨tau, oid, r, delta, id⟩ _ (hnbs tn htn) (hapart tn htn)
      (hid.imp (fun he => he) And.left) hdn
  · have hun : ∀ tn ∈ td.nblist.map (fun tn => tn.update_link_status ⟨tau, oid, r, delta, id⟩),
        ¬ decide (tn.lnk_stat = .up) = true := by
      refine List.forall_mem_map.mpr fun tn htn => ?_
      rw [TORANeighbor.update_link_status, if_pos ((hend hi).2.2 tn htn).1]
      exact fun hn => LinkStatus.noConfusion (of_decide_eq_true hn)
    exact congrArg _ (List.countP_eq_zero.mpr hun)
  · refine List.forall_mem_map.mpr fun tn htn => ⟨((hend hi).2.2 tn htn).1, ?_⟩
    rw [TORANeighbor.update_link_status, if_pos ((hend hi).2.2 tn htn).1]

theorem level_update_height {tn : TORANeighbor} (htn : tn ∈ td.nblist) (now : ℚ) (r delta : ℤ) :
    Level i now td' (td.update_height tn.height.tau tn.height.oid r delta i) := by
  rw [update_height_eq]
  exact .inr (.inr (.inl ⟨_, List.mem_map_of_mem htn, rfl, rfl⟩))

/-- The last lines of a case. -/
theorem handles_sendUPD (h : td'.Own i) (hi : td'.index = td.index) (hl : Level i now td td') :
    Handles i now td (td'.sendUPD now) := by
  refine ⟨h.congr rfl rfl rfl rfl, hi, hl, fun p hp => ?_⟩
  obtain rfl := List.mem_singleton.mp hp
  exact h.upd

theorem handles_nil (h : td'.Own i) (hi : td'.index = td.index) (hl : Level i now td td') :
    Handles i now td (td', []) :=
  ⟨h, hi, hl, fun _ hp => absurd hp List.not_mem_nil⟩

theorem index_update_height (td : TORADest) (tau : ℚ) (oid r delta id : ℤ) :
    (td.update_height tau oid r delta id).index = td.index := by
  rw [update_height_eq]

theorem Own.recvQRY (h : td.Own i) (hi : td.index ≠ i) (now : ℚ) (saddr : ℤ) :
    Handles i now td (td.recvQRY i now saddr) := by
  rw [TORADest.recvQRY]
  by_cases hreq : td.rt_req = true
  · rw [if_pos hreq]
    exact handles_nil h rfl (.inl rfl)
  rw [if_neg hreq]
  by_cases hr : td.height.r = 0
  · rw [if_pos hr]
    split
    · split_ifs
      · exact handles_sendUPD h rfl (.inl rfl)
      · exact handles_nil h rfl (.inl rfl)
    · exact handles_nil h rfl (.inl rfl)
  · rw [if_neg hr]
    split
    · next tn hmin =>
      exact handles_sendUPD (h.update_height _ _ _ _ _ (.inl rfl) fun he => absurd he hi)
        (index_update_height _ _ _ _ _ _) (level_update_height (nb_find_best_some hmin).1 now _ _)
    · refine ⟨h.congr rfl rfl rfl rfl, rfl, .inl rfl, fun p hp => ?_⟩
      split_ifs at hp
      · obtain rfl := List.mem_singleton.mp hp
        trivial
      · exact absurd hp List.not_mem_nil

theorem Own.erase (h : td.Own i) (hi : td.index ≠ i) : td.erase.Own i := by
  obtain ⟨hheight, hapart, hnbs, -, -⟩ := h
  have hindex : ∀ tn : TORANeighbor, (tn.erase td.index).index = tn.index := fun tn => by
    rw [TORANeighbor.erase]
    split_ifs <;> rfl
  refine ⟨?_, ?_, ?_, ?_, fun he => absurd he hi⟩
  · exact hheight.imp id fun hn => ⟨rfl, hn.2⟩
  · refine List.forall_mem_map.mpr fun tn htn => ?_
    rw [hindex]
    exact hapart tn htn
  · refine List.forall_mem_map.mpr fun tn htn => ?_
    rw [TORANeighbor.erase]
    have hnb := hnbs tn htn
    split_ifs with hdst
    · exact .inl (hnb.elim id fun hn => hn.2.trans hdst.symm)
    · exact hnb.imp id fun hn => ⟨rfl, hn.2⟩
  · refine List.forall_mem_map.mpr fun tn _ hdn hne => ?_
    rw [TORANeighbor.erase] at hdn hne
    split_ifs at hdn hne with hdst
    · exact absurd hdst hne

theorem handles_erase (h : td.Own i) (hi : td.index ≠ i) (htd : td.index = td'.index)
    (ps : List HdrTora) (hps : ∀ p ∈ ps, p.From i) : Handles i now td' (td.erase, ps) :=
  ⟨h.erase hi, htd, .inr (.inl rfl), hps⟩

/-- The node's height becomes null, and the links stay. -/
theorem Own.null (h : td.Own i) (hi : td.index ≠ i) :
    Own i { td with height := td.height.Null } := by
  obtain ⟨hheight, hapart, hnbs, hbelow, -⟩ := h
  exact ⟨hheight.imp id fun hn => ⟨rfl, hn.2⟩, hapart, hnbs,
    fun tn htn hdn hne => ⟨(hbelow tn htn hdn hne).1, .inl rfl⟩, fun he => absurd he hi⟩

theorem Own.reverseLinks (h : td.Own i) (hi : td.index ≠ i) (htd : td.index = td'.index)
    {r : TORADest × List HdrTora} (hr : td.reverseLinks i now = some r) : Handles i now td' r := by
  have hheight : ∀ {tn : TORANeighbor}, tn ∈ td.nblist → ∀ r delta, Handles i now td'
      ((td.update_height tn.height.tau tn.height.oid r delta i).sendUPD now) :=
    fun htn r delta => handles_sendUPD (h.update_height _ _ _ _ _ (.inl rfl) fun he => absurd he hi)
      ((index_update_height _ _ _ _ _ _).trans htd) (level_update_height htn now r delta)
  rw [TORADest.reverseLinks] at hr
  by_cases hsame : td.nb_check_same_ref = true
  · rw [if_pos hsame] at hr
    cases hmin : td.nb_find_min_height 0 with
    | some tn =>
      rw [hmin] at hr
      obtain rfl := Option.some.inj hr
      exact hheight (nb_find_best_some hmin).1 _ _
    | none =>
      rw [hmin] at hr
      dsimp only at hr
      split_ifs at hr
      · obtain rfl := Option.some.inj hr
        refine handles_erase h hi htd _ fun p hp => ?_
        obtain rfl := List.mem_singleton.mp hp
        trivial
      · obtain rfl := Option.some.inj hr
        have hnew := h.update_height now i 0 0 i (.inl rfl) fun he => absurd he hi
        refine handles_sendUPD (Own.congr hnew rfl rfl rfl rfl) ?_ ?_
        · exact (index_update_height _ _ _ _ _ _).trans htd
        · rw [update_height_eq]
          exact .inr (.inr (.inr rfl))
  · rw [if_neg hsame] at hr
    split at hr
    · cases hr
    · split at hr
      · cases hr
      · next m hm =>
        obtain rfl := Option.some.inj hr
        exact hheight (nb_find_best_some hm).1 _ _

theorem Own.update_height_nb (h : td.Own i) (hi : td.index ≠ i) {tn : TORANeighbor}
    (htn : td.nb_find saddr = some tn) {hgt : Height}
    (hsent : hgt.id = saddr ∨ hgt.isNull = true ∧ hgt.id = td.index) :
    (td.update_height_nb tn hgt).Own i := by
  obtain rfl := index_of_nb_find htn
  have hmem : tn ∈ td.nblist := List.mem_of_find?_eq_some htn
  obtain ⟨A, B, hl, hmodify, -⟩ := exists_first htn
  obtain ⟨hheight, hapart, hnbs, hbelow, -⟩ := h
  have hall : ∀ P : TORANeighbor → Prop, (∀ t ∈ td.nblist, P t) →
      P (({ tn with height := hgt } : TORANeighbor).update_link_status td.height) →
      ∀ t ∈ (td.update_height_nb tn hgt).nblist, P t := by
    intro P hold hnew t ht
    rw [TORADest.update_height_nb] at ht
    dsimp only at ht
    rw [hmodify] at ht
    rcases List.mem_append.mp ht with ht | ht
    · exact hold t (hl ▸ List.mem_append_left _ ht)
    rcases List.mem_cons.mp ht with rfl | ht
    · exact hnew
    · exact hold t (hl ▸ List.mem_append_right _ (List.mem_cons_of_mem tn ht))
  refine ⟨hheight, hall _ hapart (hapart tn hmem), hall _ hnbs hsent, hall _ hbelow ?_,
    fun he => absurd he hi⟩
  exact fun hdn _ => @below_update_link_status i { tn with height := hgt } td.height td.index hsent
    (hapart tn hmem) (hheight.imp (fun he => he) And.left) hdn

theorem Own.recvUPD (h : td.Own i) (hi : td.index ≠ i) {hgt : Height}
    (hsent : hgt.id = saddr ∨ hgt.isNull = true ∧ hgt.id = td.index)
    {r : TORADest × List HdrTora} (hr : td.recvUPD i now saddr hgt = some r) :
    Handles i now td r := by
  rw [TORADest.recvUPD] at hr
  cases htn : td.nb_find saddr with
  | none =>
    rw [htn] at hr
    obtain rfl := Option.some.inj hr
    exact handles_nil h rfl (.inl rfl)
  | some tn =>
    rw [htn] at hr
    have h1 := h.update_height_nb hi htn hsent
    have hindex : (td.update_height_nb tn hgt).index = td.index := rfl
    have hheight : (td.update_height_nb tn hgt).height = td.height := rfl
    have hmem : ∃ t ∈ (td.update_height_nb tn hgt).nblist, t.height = hgt := by
      obtain ⟨A, B, -, hmodify, -⟩ := exists_first htn
      rw [TORADest.update_height_nb, index_of_nb_find htn]
      dsimp only
      rw [hmodify]
      exact ⟨_, List.mem_append_right _ List.mem_cons_self, rfl⟩
    dsimp only at hr
    generalize td.update_height_nb tn hgt = td1 at hr h1 hindex hheight hmem
    have hi1 : td1.index ≠ i := by rwa [hindex]
    by_cases hreq : td1.rt_req = true ∧ hgt.r = 0
    · rw [if_pos hreq] at hr
      obtain rfl := Option.some.inj hr
      obtain ⟨t, ht, rfl⟩ := hmem
      refine handles_sendUPD (Own.congr (h1.update_height t.height.tau t.height.oid
        t.height.r (t.height.delta + 1) i (.inl rfl)
        fun he => absurd he hi1) rfl rfl rfl rfl) ?_ ?_
      · exact (index_update_height _ _ _ _ _ _).trans hindex
      · exact level_update_height ht now _ _
    rw [if_neg hreq] at hr
    by_cases hdown : td1.num_down = 0
    swap
    · rw [if_neg hdown] at hr
      obtain rfl := Option.some.inj hr
      exact handles_nil h1 hindex (.inl hheight)
    rw [if_pos hdown] at hr
    by_cases hup : td1.num_up = 0
    · rw [if_pos hup] at hr
      split_ifs at hr
      · obtain rfl := Option.some.inj hr
        exact handles_nil h1 hindex (.inl hheight)
      · obtain rfl := Option.some.inj hr
        exact handles_sendUPD (h1.null hi1) hindex (.inr (.inl rfl))
    · rw [if_neg hup] at hr
      exact h1.reverseLinks hi1 hindex hr

theorem Own.clearLevel (h : td.Own i) (hi : td.index ≠ i) {tn : TORANeighbor}
    (htn : td.nb_find saddr = some tn) (tau : ℚ) (oid : ℤ) :
    (td.clearLevel saddr tau oid).Own i := by
  obtain ⟨A, B, hl, hmodify, -⟩ := exists_first htn
  obtain ⟨hheight, hapart, hnbs, hbelow, -⟩ := h
  have hall : ∀ P : TORANeighbor → Prop, (∀ t ∈ td.nblist, P t ∧ P t.clear) →
      ∀ t ∈ (td.clearLevel saddr tau oid).nblist, P t := by
    intro P hP t ht
    rw [TORADest.clearLevel] at ht
    dsimp only at ht
    rw [hmodify] at ht
    obtain ⟨t, hmem, rfl⟩ := List.mem_map.mp ht
    have hor : ∃ u ∈ td.nblist, t = u ∨ t = u.clear := by
      rcases List.mem_append.mp hmem with ht | ht
      · exact ⟨t, hl ▸ List.mem_append_left _ ht, .inl rfl⟩
      rcases List.mem_cons.mp ht with rfl | ht
      · exact ⟨tn, List.mem_of_find?_eq_some htn, .inr rfl⟩
      · exact ⟨t, hl ▸ List.mem_append_right _ (List.mem_cons_of_mem tn ht), .inl rfl⟩
    obtain ⟨u, hu, rfl | rfl⟩ := hor
    · split_ifs
      · exact (hP t hu).2
      · exact (hP t hu).1
    · split_ifs
      · exact (hP u hu).2
      · exact (hP u hu).2
  refine ⟨hheight, hall _ fun t ht => ?_, hall _ fun t ht => ?_, hall _ fun t ht => ?_,
    fun he => absurd he hi⟩
  · exact ⟨hapart t ht, hapart t ht⟩
  · exact ⟨hnbs t ht, (hnbs t ht).imp (fun he => he) fun hn => ⟨rfl, hn.2⟩⟩
  · exact ⟨hbelow t ht, fun hdn => LinkStatus.noConfusion hdn⟩

theorem Own.recvCLR (h : td.Own i) (hi : td.index ≠ i) (now : ℚ) (saddr : ℤ) (tau : ℚ) (oid : ℤ) :
    Handles i now td (td.recvCLR i now saddr tau oid) := by
  rw [TORADest.recvCLR]
  by_cases hlevel : td.height.tau = tau ∧ td.height.oid = oid ∧ td.height.r = 1
  · rw [if_pos hlevel]
    refine handles_erase h hi rfl _ fun p hp => ?_
    split_ifs at hp
    · obtain rfl := List.mem_singleton.mp hp
      trivial
    · exact absurd hp List.not_mem_nil
  rw [if_neg hlevel]
  cases htn : td.nb_find saddr with
  | none => exact handles_nil h rfl (.inl rfl)
  | some tn =>
    have h1 := h.clearLevel hi htn tau oid
    have hindex : (td.clearLevel saddr tau oid).index = td.index := rfl
    have hheight : (td.clearLevel saddr tau oid).height = td.height := rfl
    dsimp only
    generalize td.clearLevel saddr tau oid = td1 at h1 hindex hheight
    have hi1 : td1.index ≠ i := by rwa [hindex]
    split_ifs
    · exact handles_nil h1 hindex (.inl hheight)
    · exact handles_sendUPD (h1.null hi1) hindex (.inr (.inl rfl))
    · have hnew := h1.update_height now i 0 0 i (.inl rfl) fun he => absurd he hi1
      refine handles_sendUPD (Own.congr hnew rfl rfl rfl rfl) ?_ ?_
      · exact (index_update_height _ _ _ _ _ _).trans hindex
      · rw [update_height_eq]
        exact .inr (.inr (.inr rfl))
    · exact handles_nil h1 hindex (.inl hheight)

/-- A packet from `saddr`, about this destination. -/
theorem Own.recv (h : td.Own i) (hi : td.index ≠ i) {p : HdrTora} (hdst : p.dst = td.index)
    (hp : p.From saddr) {r : TORADest × List HdrTora} (hr : td.recv i now saddr p = some r) :
    Handles i now td r := by
  cases p with
  | qry dst =>
    obtain rfl := Option.some.inj hr
    exact h.recvQRY hi now saddr
  | upd dst hgt =>
    obtain rfl : dst = td.index := hdst
    exact h.recvUPD hi hp hr
  | clr dst tau oid =>
    obtain rfl := Option.some.inj hr
    exact h.recvCLR hi now saddr tau oid

theorem Own.rt_resolve (h : td.Own i) (now : ℚ) : Handles i now td td.rt_resolve := by
  rw [TORADest.rt_resolve]
  split
  · exact handles_nil h rfl (.inl rfl)
  · split_ifs
    · exact handles_nil h rfl (.inl rfl)
    · refine ⟨h.congr rfl rfl rfl rfl, rfl, .inl rfl, fun p hp => ?_⟩
      obtain rfl := List.mem_singleton.mp hp
      trivial

theorem Own.nb_add (h : td.Own i) {id : ℤ} (hid : id ≠ i) (now : ℚ) : (td.nb_add id now).Own i := by
  obtain ⟨hheight, hapart, hnbs, hbelow, hlast⟩ := h
  rw [TORADest.nb_add]
  split_ifs with hindex
  · have hdst : id = td.index := hindex
    refine ⟨hheight, ?_, ?_, ?_, fun he => absurd (hdst.trans he) hid⟩
    · exact List.forall_mem_cons.mpr ⟨hid, hapart⟩
    · exact List.forall_mem_cons.mpr ⟨.inl rfl, hnbs⟩
    · exact List.forall_mem_cons.mpr ⟨fun _ hne => absurd hindex hne, hbelow⟩
  · refine ⟨hheight, ?_, ?_, ?_, fun he => ⟨(hlast he).1, (hlast he).2.1, ?_⟩⟩
    · exact List.forall_mem_cons.mpr ⟨hid, hapart⟩
    · exact List.forall_mem_cons.mpr ⟨.inl rfl, hnbs⟩
    · exact List.forall_mem_cons.mpr ⟨fun hdn _ => LinkStatus.noConfusion hdn, hbelow⟩
    · exact List.forall_mem_cons.mpr ⟨⟨rfl, rfl⟩, (hlast he).2.2⟩

theorem index_nb_add (td : TORADest) (id : ℤ) (now : ℚ) : (td.nb_add id now).index = td.index := by
  rw [TORADest.nb_add]
  split_ifs <;> rfl

theorem height_nb_add (td : TORADest) (id : ℤ) (now : ℚ) :
    (td.nb_add id now).height = td.height := by
  rw [TORADest.nb_add]
  split_ifs <;> rfl

theorem Own.linkUP (h : td.Own i) {id : ℤ} (hid : id ≠ i) (now : ℚ) :
    Handles i now td (td.linkUP id now) := by
  have hqry : ∀ p ∈ (td.linkUP id now).2, p.From i := fun p hp => by
    rw [TORADest.linkUP] at hp
    dsimp only at hp
    split_ifs at hp
    · obtain rfl := List.mem_singleton.mp hp
      trivial
    · exact absurd hp List.not_mem_nil
  rw [TORADest.linkUP] at hqry ⊢
  cases hfind : td.nb_find id with
  | some tn =>
    rw [hfind] at hqry
    exact ⟨h, rfl, .inl rfl, hqry⟩
  | none =>
    rw [hfind] at hqry
    exact ⟨h.nb_add hid now, index_nb_add td id now, .inl (height_nb_add td id now), hqry⟩

theorem Own.remove (h : td.Own i) (tn : TORANeighbor)
    (hun : td.index = i → tn.lnk_stat = .un) : (td.remove tn).Own i := by
  obtain ⟨hheight, hapart, hnbs, hbelow, hlast⟩ := h
  have hsub : ∀ t ∈ (td.remove tn).nblist, t ∈ td.nblist := fun t ht => List.mem_of_mem_eraseP ht
  refine ⟨hheight, fun t ht => hapart t (hsub t ht), fun t ht => hnbs t (hsub t ht),
    fun t ht => hbelow t (hsub t ht), fun he => ⟨(hlast he).1, ?_, fun t ht =>
      (hlast he).2.2 t (hsub t ht)⟩⟩
  rw [TORADest.remove]
  dsimp only
  rw [if_neg (by rw [hun he]; decide)]
  exact (hlast he).2.1

/-- The loss of a neighbour that does not leave upstream links only. -/
theorem Own.linkDN (h : td.Own i) {id : ℤ}
    (hkeep : ∀ tn ∈ td.nb_find id, ¬ ((td.remove tn).num_down = 0 ∧ (td.remove tn).num_up > 0))
    (now : ℚ) : Handles i now td (td.linkDN id now) := by
  simp only [TORADest.linkDN]
  rw [nb_del]
  cases htn : td.nb_find id with
  | none => exact handles_nil h rfl (.inl rfl)
  | some tn =>
    have hup := hkeep tn htn
    have h1 := h.remove tn fun he => ((h.last he).2.2 tn (List.mem_of_find?_eq_some htn)).2
    have hindex : (td.remove tn).index = td.index := rfl
    have hheight : (td.remove tn).height = td.height := rfl
    dsimp only
    by_cases hdown : (td.remove tn).num_down = 0
    · have hnotup : ¬ (td.remove tn).num_up > 0 := fun hn => hup ⟨hdown, hn⟩
      simp only [if_pos hdown, if_neg hnotup, if_true]
      have h2 := h1.update_height (-1) (-1) (-1) (-1) td.index
        (.inr ⟨rfl, rfl⟩) fun _ => rfl
      refine ⟨h2, (index_update_height _ _ _ _ _ _).trans hindex, .inr (.inl ?_), fun p hp => ?_⟩
      · dsimp only
        rw [update_height_eq]
        rfl
      · obtain rfl := List.mem_singleton.mp hp
        exact h2.upd
    · simp only [if_neg hdown, Bool.false_eq_true, if_false]
      exact handles_nil h1 hindex (.inl hheight)

end TORADest

end Ns2
