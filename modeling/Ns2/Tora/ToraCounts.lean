import Ns2.Lib.Machine
import Ns2.Tora.ToraAgent

/-! The counters of a TORA destination over every sequence of events at a node. -/

namespace Ns2

/-- The first element with a property, and what is before and behind it. -/
theorem exists_first {α : Type*} {p : α → Bool} {l : List α} {x : α} (h : l.find? p = some x) :
    ∃ A B, l = A ++ x :: B ∧ (∀ f, modifyFirst p f l = A ++ f x :: B) ∧ l.eraseP p = A ++ B := by
  induction l with
  | nil => cases h
  | cons y l ih =>
    rw [List.find?_cons] at h
    cases hp : p y with
    | true =>
      rw [hp] at h
      obtain rfl := Option.some.inj h
      exact ⟨[], l, rfl, fun f => by rw [modifyFirst, hp]; rfl, List.eraseP_cons_of_pos hp⟩
    | false =>
      rw [hp] at h
      obtain ⟨A, B, rfl, hmodify, herase⟩ := ih h
      refine ⟨y :: A, B, rfl, fun f => by rw [modifyFirst, hp, hmodify]; rfl, ?_⟩
      rw [List.eraseP_cons_of_neg (by rw [hp]; exact Bool.false_ne_true), herase]
      rfl

/-- Two predicates of which one implies the other, with the same count. -/
theorem imp_of_countP_eq {α : Type*} {p q : α → Bool} {l : List α}
    (hpq : ∀ x ∈ l, p x = true → q x = true) (h : l.countP p = l.countP q) :
    ∀ x ∈ l, q x = true → p x = true := by
  induction l with
  | nil => exact fun x hx => absurd hx List.not_mem_nil
  | cons y l ih =>
    have hle := List.countP_mono_left fun x hx => hpq x (List.mem_cons_of_mem y hx)
    have hy := hpq y List.mem_cons_self
    rw [List.countP_cons, List.countP_cons] at h
    have hsame : (q y = true → p y = true) ∧ l.countP p = l.countP q := by
      split_ifs at h with hp hq hq
      · exact ⟨fun _ => hp, by omega⟩
      · exact absurd (hy hp) hq
      · omega
      · exact ⟨fun hq' => absurd hq' hq, by omega⟩
    intro x hx
    rcases List.mem_cons.mp hx with rfl | hx
    · exact hsame.1
    · exact ih (fun z hz => hpq z (List.mem_cons_of_mem y hz)) hsame.2 x hx

namespace TORADest

variable {td : TORADest} {ipaddr saddr : ℤ} {now : ℚ}

/-- The neighbours with a link status. -/
def links (td : TORADest) (s : LinkStatus) : ℕ := td.nblist.countP fun tn => tn.lnk_stat = s

/-- The counters are what they stand for. -/
structure Counted (td : TORADest) : Prop where
  active : td.num_active = td.nblist.length
  down : td.num_down = td.links .dn
  up : td.num_up = td.links .up

theorem foldl_recount (td : TORADest) (l : List TORANeighbor) :
    l.foldl recount td =
      let l' := l.map fun tn => tn.update_link_status td.height
      { td with
        nblist := td.nblist ++ l'
        num_active := td.num_active + l'.length
        num_down := td.num_down + l'.countP fun tn => tn.lnk_stat = .dn
        num_up := td.num_up + l'.countP fun tn => tn.lnk_stat = .up } := by
  induction l generalizing td with
  | nil => simp
  | cons tn l ih =>
    rw [List.foldl_cons, ih]
    simp only [recount, List.map_cons, List.append_assoc, List.cons_append, List.nil_append,
      List.length_cons, List.countP_cons, decide_eq_true_eq]
    congr 1
    · push_cast
      ring
    · split_ifs <;> push_cast <;> ring
    · split_ifs <;> push_cast <;> ring

/-- The height is set and all links are looked at again. -/
theorem update_height_eq (td : TORADest) (tau : ℚ) (oid r delta id : ℤ) :
    td.update_height tau oid r delta id =
      let l := td.nblist.map fun tn => tn.update_link_status ⟨tau, oid, r, delta, id⟩
      { td with
        height := ⟨tau, oid, r, delta, id⟩
        nblist := l
        num_active := l.length
        num_down := l.countP fun tn => tn.lnk_stat = .dn
        num_up := l.countP fun tn => tn.lnk_stat = .up } := by
  rw [update_height, foldl_recount]
  simp

theorem counted_update_height (td : TORADest) (tau : ℚ) (oid r delta id : ℤ) :
    (td.update_height tau oid r delta id).Counted := by
  rw [update_height_eq]
  exact ⟨rfl, rfl, rfl⟩

/-- What does not touch neighbours and counters. -/
theorem Counted.congr {td' : TORADest} (h : td.Counted) (hl : td'.nblist = td.nblist)
    (ha : td'.num_active = td.num_active) (hd : td'.num_down = td.num_down)
    (hu : td'.num_up = td.num_up) : td'.Counted := by
  refine ⟨?_, ?_, ?_⟩
  · rw [ha, hl, h.active]
  · rw [hd, links, hl, h.down, links]
  · rw [hu, links, hl, h.up, links]

theorem Counted.sendUPD (h : td.Counted) (now : ℚ) : (td.sendUPD now).1.Counted :=
  h.congr rfl rfl rfl rfl

theorem Counted.nb_add (h : td.Counted) (id : ℤ) (now : ℚ) : (td.nb_add id now).Counted := by
  obtain ⟨ha, hd, hu⟩ := h
  rw [TORADest.nb_add]
  split_ifs with hindex
  · refine ⟨?_, ?_, ?_⟩
    · simp [ha]
    · simp [links, hd]
    · simp [links, hu]
  · refine ⟨?_, ?_, ?_⟩
    · simp [ha]
    · simp [links, hd, TORANeighbor.ofId]
    · simp [links, hu, TORANeighbor.ofId]

theorem countP_around {A B : List TORANeighbor} (x : TORANeighbor) (s : LinkStatus) :
    (((A ++ x :: B).countP fun tn => tn.lnk_stat = s : ℕ) : ℤ) =
      ((A ++ B).countP fun tn => tn.lnk_stat = s : ℕ) + if x.lnk_stat = s then 1 else 0 := by
  rw [List.countP_append, List.countP_append, List.countP_cons]
  split_ifs <;> simp_all
  ring

theorem index_of_nb_find {tn : TORANeighbor} (htn : td.nb_find saddr = some tn) :
    tn.index = saddr := by
  simpa using List.find?_some htn

theorem Counted.remove (h : td.Counted) {tn : TORANeighbor} (htn : td.nb_find saddr = some tn) :
    (td.remove tn).Counted := by
  obtain rfl := index_of_nb_find htn
  obtain ⟨A, B, hl, -, herase⟩ := exists_first htn
  obtain ⟨ha, hd, hu⟩ := h
  rw [links, hl, countP_around] at hd hu
  rw [hl] at ha
  refine ⟨?_, ?_, ?_⟩
  · dsimp only [TORADest.remove]
    rw [herase, ha]
    simp
    ring
  · dsimp only [TORADest.remove, links]
    rw [herase]
    split_ifs at hd ⊢ with hs <;> omega
  · dsimp only [TORADest.remove, links]
    rw [herase]
    split_ifs at hu ⊢ with hs <;> omega

theorem Counted.nb_del (h : td.Counted) (id : ℤ) (now : ℚ) : (td.nb_del id now).1.Counted := by
  rw [TORADest.nb_del]
  cases htn : td.nb_find id with
  | none => exact h
  | some tn =>
    dsimp only
    split_ifs
    · exact counted_update_height _ _ _ _ _ _
    · exact counted_update_height _ _ _ _ _ _
    · exact h.remove htn

/-- Route maintenance runs exactly when no downstream link is left. -/
theorem Counted.nb_del_iff (h : td.Counted) (id : ℤ) (now : ℚ) :
    (td.nb_del id now).2 = true ↔ td.nb_find id ≠ none ∧
      ∀ tn ∈ td.nblist.eraseP (fun tn => tn.index = id), tn.lnk_stat ≠ .dn := by
  rw [TORADest.nb_del]
  cases htn : td.nb_find id with
  | none => simp
  | some tn =>
    have hdown := (h.remove htn).down
    have hnone : (td.remove tn).num_down = 0 ↔
        ∀ tn ∈ td.nblist.eraseP (fun tn => tn.index = id), tn.lnk_stat ≠ .dn := by
      rw [hdown, Int.natCast_eq_zero, links, List.countP_eq_zero, TORADest.remove,
        index_of_nb_find htn]
      simp
    rw [← hnone]
    dsimp only
    split_ifs with hzero hpos
    · exact iff_of_true rfl ⟨Option.some_ne_none _, hzero⟩
    · exact iff_of_true rfl ⟨Option.some_ne_none _, hzero⟩
    · exact iff_of_false (fun hn => hn) fun hn => hzero hn.2

theorem Counted.update_height_nb (h : td.Counted) {tn : TORANeighbor}
    (htn : td.nb_find saddr = some tn) (hgt : Height) :
    (td.update_height_nb tn hgt).Counted := by
  obtain rfl := index_of_nb_find htn
  obtain ⟨A, B, hl, hmodify, -⟩ := exists_first htn
  obtain ⟨ha, hd, hu⟩ := h
  rw [links, hl, countP_around] at hd hu
  rw [hl] at ha
  rw [TORADest.update_height_nb]
  refine ⟨?_, ?_, ?_⟩
  · dsimp only
    rw [hmodify, ha]
    simp
  · dsimp only [links]
    rw [hmodify, countP_around, hd]
    split_ifs <;> omega
  · dsimp only [links]
    rw [hmodify, countP_around, hu]
    split_ifs <;> omega

/-- The destination is a neighbour. -/
def Adjacent (td : TORADest) : Prop := ∃ tn ∈ td.nblist, tn.index = td.index

instance (td : TORADest) : Decidable td.Adjacent :=
  inferInstanceAs (Decidable (∃ tn ∈ td.nblist, tn.index = td.index))

/-- The route is erased when an update has no answer. -/
def Erases (td : TORADest) (ipaddr : ℤ) (h : Height) : Prop :=
  ¬ (td.rt_req ∧ h.r = 0) ∧ td.num_down = 0 ∧ td.num_up ≠ 0 ∧ td.nb_check_same_ref ∧
    td.nb_find_min_height 0 = none ∧ td.height.oid = ipaddr

instance (td : TORADest) (ipaddr : ℤ) (h : Height) : Decidable (td.Erases ipaddr h) :=
  inferInstanceAs (Decidable (_ ∧ _ ∧ _ ∧ _ ∧ _ ∧ _))

/-- The route was found through the reference level of a clear. -/
def OnLevel (td : TORADest) (tau : ℚ) (oid : ℤ) : Prop :=
  td.height.tau = tau ∧ td.height.oid = oid ∧ td.height.r = 1

instance (td : TORADest) (tau : ℚ) (oid : ℤ) : Decidable (td.OnLevel tau oid) :=
  inferInstanceAs (Decidable (_ ∧ _ ∧ _))

/-- A packet does not erase the route to a neighbour, and a clear takes away links that are
undirected, unless all links are looked at again. -/
def Recounts (td : TORADest) (ipaddr saddr : ℤ) : HdrTora → Prop
  | .qry _ => True
  | .upd _ h => ∀ tn ∈ td.nb_find saddr, (td.update_height_nb tn h).Erases ipaddr h → ¬ td.Adjacent
  | .clr _ tau oid =>
    if td.OnLevel tau oid then ¬ td.Adjacent
    else ∀ tn ∈ td.nb_find saddr, td.num_down = 0 ∧ td.num_up ≠ 0 ∨ tn.lnk_stat = .un ∧
      ∀ tn ∈ td.nblist, tn.height.tau = tau ∧ tn.height.oid = oid ∧ tn.height.r = 1 →
        tn.lnk_stat = .un

theorem counted_erase_iff (h : td.num_active = td.nblist.length) :
    td.erase.Counted ↔ ¬ td.Adjacent := by
  have hlink : ∀ tn : TORANeighbor, (tn.erase td.index).lnk_stat =
      if tn.index = td.index then .dn else .un := fun tn => by
    rw [TORANeighbor.erase]
    split_ifs <;> rfl
  have hdown : td.erase.links .dn = 0 ↔ ¬ td.Adjacent := by
    rw [links, List.countP_eq_zero]
    simp only [erase, List.forall_mem_map, Adjacent, not_exists, not_and, decide_eq_true_eq]
    refine forall₂_congr fun tn _ => not_congr ?_
    rw [hlink]
    split_ifs with hi <;> simp [hi]
  have hup : td.erase.links .up = 0 := by
    rw [links, List.countP_eq_zero]
    simp only [erase, List.forall_mem_map, decide_eq_true_eq]
    intro tn _
    rw [hlink]
    split_ifs <;> decide
  constructor
  · intro hc
    exact hdown.mp (Int.natCast_eq_zero.mp hc.down.symm)
  · intro hadj
    refine ⟨?_, ?_, ?_⟩
    · rw [erase, List.length_map]
      exact h
    · rw [hdown.mpr hadj]
      rfl
    · rw [hup]
      rfl

/-- The clearing of links that are undirected, and only this, keeps the counters. -/
theorem counted_clearLevel_iff (h : td.Counted) {tn : TORANeighbor}
    (htn : td.nb_find saddr = some tn) (tau : ℚ) (oid : ℤ) :
    (td.clearLevel saddr tau oid).Counted ↔ tn.lnk_stat = .un ∧
      ∀ tn ∈ td.nblist, tn.height.tau = tau ∧ tn.height.oid = oid ∧ tn.height.r = 1 →
        tn.lnk_stat = .un := by
  obtain ⟨A, B, hl, hmodify, -⟩ := exists_first htn
  let keep : TORANeighbor → Bool := fun tn =>
    ¬ (tn.height.tau = tau ∧ tn.height.oid = oid ∧ tn.height.r = 1)
  have hcount : ∀ s, s ≠ LinkStatus.un → (td.clearLevel saddr tau oid).links s =
      (A ++ B).countP fun tn => keep tn && tn.lnk_stat = s := by
    intro s hs
    rw [links, clearLevel]
    dsimp only
    rw [hmodify, List.countP_map, List.countP_append, List.countP_cons, List.countP_append]
    have hclear : ∀ t : TORANeighbor, (decide ((if t.height.tau = tau ∧ t.height.oid = oid ∧
        t.height.r = 1 then t.clear else t).lnk_stat = s)) = (keep t && t.lnk_stat = s) := by
      intro t
      by_cases ht : t.height.tau = tau ∧ t.height.oid = oid ∧ t.height.r = 1
      · rw [if_pos ht]
        simp [keep, ht, TORANeighbor.clear, hs.symm]
      · rw [if_neg ht]
        simp only [keep, ht, not_false_eq_true, decide_true, Bool.true_and]
    simp only [Function.comp_def, hclear]
    simp [TORANeighbor.clear, hs.symm]
  have hlength : (td.clearLevel saddr tau oid).nblist.length = td.nblist.length := by
    rw [clearLevel]
    dsimp only
    rw [List.length_map, hmodify, hl]
    simp
  have hold : ∀ s, (td.links s : ℤ) = ((A ++ B).countP fun tn => tn.lnk_stat = s : ℕ) +
      if tn.lnk_stat = s then 1 else 0 := fun s => by
    rw [links, hl]
    exact countP_around tn s
  have hle : ∀ s, ((A ++ B).countP fun tn => keep tn && tn.lnk_stat = s) ≤
      (A ++ B).countP fun tn => tn.lnk_stat = s := fun s =>
    List.countP_mono_left fun x _ hx => (Bool.and_eq_true_iff.mp hx).2
  -- what the links of one status say about the neighbours that are cleared
  have hone : ∀ s, s ≠ LinkStatus.un →
      ((td.links s : ℤ) = (td.clearLevel saddr tau oid).links s ↔ tn.lnk_stat ≠ s ∧
        ∀ t ∈ A ++ B, t.height.tau = tau ∧ t.height.oid = oid ∧ t.height.r = 1 →
          t.lnk_stat ≠ s) := by
    intro s hs
    rw [hold, hcount s hs]
    have hles := hle s
    constructor
    · intro heq
      have hfirst : tn.lnk_stat ≠ s := fun hts => by
        rw [if_pos hts] at heq
        omega
      rw [if_neg hfirst] at heq
      refine ⟨hfirst, fun t ht hlevel hts => ?_⟩
      have hsame : ((A ++ B).countP fun tn => keep tn && tn.lnk_stat = s) =
          (A ++ B).countP fun tn => tn.lnk_stat = s := by omega
      have hkeep := imp_of_countP_eq (fun x _ hx => (Bool.and_eq_true_iff.mp hx).2) hsame t ht
        (decide_eq_true hts)
      simp [keep, hlevel] at hkeep
    · rintro ⟨hfirst, hrest⟩
      rw [if_neg hfirst, add_zero]
      congr 1
      apply List.countP_congr
      intro t ht
      simp only [Bool.and_eq_true, decide_eq_true_eq, keep]
      exact ⟨fun hts => ⟨fun hlevel => hrest t ht hlevel hts, hts⟩, And.right⟩
  have hun : ∀ s : LinkStatus, s ≠ .dn ∧ s ≠ .up ↔ s = .un := fun s => by cases s <;> decide
  have hmem : ∀ t, t ∈ td.nblist ↔ t = tn ∨ t ∈ A ++ B := fun t => by
    rw [hl]
    simp only [List.mem_append, List.mem_cons]
    tauto
  constructor
  · intro hc
    obtain ⟨hd1, hd2⟩ := (hone .dn (by decide)).mp (h.down.symm.trans hc.down)
    obtain ⟨hu1, hu2⟩ := (hone .up (by decide)).mp (h.up.symm.trans hc.up)
    refine ⟨(hun _).mp ⟨hd1, hu1⟩, fun t ht hlevel => ?_⟩
    rcases (hmem t).mp ht with rfl | ht
    · exact (hun _).mp ⟨hd1, hu1⟩
    · exact (hun _).mp ⟨hd2 t ht hlevel, hu2 t ht hlevel⟩
  · rintro ⟨hfirst, hrest⟩
    obtain ⟨hd1, hu1⟩ := (hun _).mpr hfirst
    refine ⟨?_, ?_, ?_⟩
    · rw [hlength]
      exact h.active
    · refine h.down.trans ((hone .dn (by decide)).mpr ⟨hd1, fun t ht hlevel => ?_⟩)
      exact ((hun _).mpr (hrest t ((hmem t).mpr (.inr ht)) hlevel)).1
    · refine h.up.trans ((hone .up (by decide)).mpr ⟨hu1, fun t ht hlevel => ?_⟩)
      exact ((hun _).mpr (hrest t ((hmem t).mpr (.inr ht)) hlevel)).2

theorem nb_find_best_some {p : TORANeighbor → Bool} {better : ℤ → Bool} {l : List TORANeighbor}
    {b : TORANeighbor} (h : nb_find_best p better l = some b) : b ∈ l ∧ p b = true := by
  induction l using List.reverseRecOn generalizing b with
  | nil => cases h
  | append_singleton l tn ih =>
    rw [nb_find_best, List.foldl_append, ← nb_find_best] at h
    simp only [List.foldl_cons, List.foldl_nil] at h
    split_ifs at h with hp
    · cases hb : nb_find_best p better l with
      | none =>
        rw [hb] at h
        obtain rfl := Option.some.inj h
        exact ⟨by simp, hp⟩
      | some b' =>
        rw [hb] at h
        dsimp only at h
        split_ifs at h
        · obtain rfl := Option.some.inj h
          exact ⟨by simp, hp⟩
        · obtain rfl := Option.some.inj h
          exact ⟨List.mem_append_left _ (ih hb).1, (ih hb).2⟩
    · exact ⟨List.mem_append_left _ (ih h).1, (ih h).2⟩

theorem nb_find_best_none {p : TORANeighbor → Bool} {better : ℤ → Bool} {l : List TORANeighbor}
    (h : nb_find_best p better l = none) : ∀ tn ∈ l, p tn = false := by
  induction l using List.reverseRecOn with
  | nil => exact fun tn htn => absurd htn List.not_mem_nil
  | append_singleton l tn ih =>
    rw [nb_find_best, List.foldl_append, ← nb_find_best] at h
    simp only [List.foldl_cons, List.foldl_nil] at h
    split_ifs at h with hp
    · split at h
      · cases h
      · split_ifs at h
    · intro t ht
      rcases List.mem_append.mp ht with ht | ht
      · exact ih h t ht
      · rw [List.mem_singleton.mp ht]
        exact Bool.eq_false_of_not_eq_true hp

theorem exists_nonnull (h : ¬ td.nb_check_same_ref = true) :
    ∃ tn ∈ td.nblist, (!tn.height.isNull) = true := by
  by_contra hall
  have hnil : td.nblist.filter (fun tn => !tn.height.isNull) = [] :=
    List.filter_eq_nil_iff.mpr fun tn htn hp => hall ⟨tn, htn, hp⟩
  apply h
  rw [nb_check_same_ref, hnil]

/-- The assertions of `recvUPD` hold. -/
theorem reverseLinks_isSome (td : TORADest) (ipaddr : ℤ) (now : ℚ) :
    ∃ r, td.reverseLinks ipaddr now = some r := by
  rw [reverseLinks]
  by_cases hsame : td.nb_check_same_ref = true
  · rw [if_pos hsame]
    split
    · exact ⟨_, rfl⟩
    · split_ifs
      · exact ⟨_, rfl⟩
      · exact ⟨_, rfl⟩
  · rw [if_neg hsame]
    obtain ⟨tn, htn, hp⟩ := exists_nonnull hsame
    cases hmax : td.nb_find_max_height with
    | none =>
      have := nb_find_best_none hmax tn htn
      rw [hp] at this
      exact Bool.noConfusion this
    | some n =>
      obtain ⟨hn, hpn⟩ := nb_find_best_some hmax
      dsimp only
      cases hmin : td.nb_find_min_nonnull_height n.height with
      | none =>
        have := nb_find_best_none hmin n hn
        rw [hpn] at this
        simp [Height.sameRef] at this
      | some m => exact ⟨_, rfl⟩

/-- A route is erased, or the counters are made anew. -/
theorem counted_reverseLinks_iff (h : td.Counted) {r : TORADest × List HdrTora}
    (hr : td.reverseLinks ipaddr now = some r) :
    r.1.Counted ↔ (td.nb_check_same_ref = true ∧ td.nb_find_min_height 0 = none ∧
      td.height.oid = ipaddr → ¬ td.Adjacent) := by
  rw [reverseLinks] at hr
  by_cases hsame : td.nb_check_same_ref = true
  · rw [if_pos hsame] at hr
    cases hmin : td.nb_find_min_height 0 with
    | some tn =>
      rw [hmin] at hr
      obtain rfl := Option.some.inj hr
      exact iff_of_true ((counted_update_height _ _ _ _ _ _).sendUPD now) fun hn =>
        absurd hn.2.1 (Option.some_ne_none tn)
    | none =>
      rw [hmin] at hr
      dsimp only at hr
      by_cases hoid : td.height.oid = ipaddr
      · rw [if_pos hoid] at hr
        obtain rfl := Option.some.inj hr
        rw [counted_erase_iff h.active]
        exact ⟨fun hadj _ => hadj, fun himp => himp ⟨hsame, rfl, hoid⟩⟩
      · rw [if_neg hoid] at hr
        obtain rfl := Option.some.inj hr
        refine iff_of_true (Counted.sendUPD ?_ now) fun hn => absurd hn.2.2 hoid
        exact (counted_update_height td now ipaddr 0 0 ipaddr).congr rfl rfl rfl rfl
  · rw [if_neg hsame] at hr
    split at hr
    · cases hr
    · split at hr
      · cases hr
      · obtain rfl := Option.some.inj hr
        exact iff_of_true ((counted_update_height _ _ _ _ _ _).sendUPD now)
          fun hn => absurd hn.1 hsame

theorem update_height_nb_index (td : TORADest) (tn : TORANeighbor) (h : Height) :
    (td.update_height_nb tn h).index = td.index := rfl

theorem adjacent_update_height_nb {tn : TORANeighbor} (htn : td.nb_find saddr = some tn)
    (h : Height) : (td.update_height_nb tn h).Adjacent ↔ td.Adjacent := by
  obtain rfl := index_of_nb_find htn
  obtain ⟨A, B, hl, hmodify, -⟩ := exists_first htn
  rw [Adjacent, Adjacent, update_height_nb_index, hl, update_height_nb]
  dsimp only
  rw [hmodify]
  constructor
  · rintro ⟨t, ht, hi⟩
    rcases List.mem_append.mp ht with ht | ht
    · exact ⟨t, List.mem_append_left _ ht, hi⟩
    rcases List.mem_cons.mp ht with rfl | ht
    · exact ⟨tn, by simp, hi⟩
    · exact ⟨t, by simp [ht], hi⟩
  · rintro ⟨t, ht, hi⟩
    rcases List.mem_append.mp ht with ht | ht
    · exact ⟨t, List.mem_append_left _ ht, hi⟩
    rcases List.mem_cons.mp ht with rfl | ht
    · exact ⟨_, List.mem_append_right _ List.mem_cons_self, hi⟩
    · exact ⟨t, by simp [ht], hi⟩

/-- A packet that is handled keeps the counters exactly when links are looked at again. -/
theorem counted_recv_iff (h : td.Counted) (ipaddr : ℤ) (now : ℚ) (saddr : ℤ) (p : HdrTora) :
    ∃ r, td.recv ipaddr now saddr p = some r ∧ (r.1.Counted ↔ td.Recounts ipaddr saddr p) := by
  cases p with
  | qry dst =>
    refine ⟨_, rfl, iff_of_true ?_ trivial⟩
    rw [recvQRY]
    by_cases hreq : td.rt_req = true
    · rw [if_pos hreq]
      exact h
    rw [if_neg hreq]
    by_cases hr : td.height.r = 0
    · rw [if_pos hr]
      split
      · split_ifs
        · exact h.sendUPD now
        · exact h
      · exact h
    · rw [if_neg hr]
      split
      · exact (counted_update_height _ _ _ _ _ _).sendUPD now
      · exact h.congr rfl rfl rfl rfl
  | upd dst hgt =>
    rw [recv, recvUPD, Recounts]
    cases htn : td.nb_find saddr with
    | none => exact ⟨_, rfl, iff_of_true h fun tn htn => absurd htn (Option.not_mem_none tn)⟩
    | some tn =>
      have h1 := h.update_height_nb htn hgt
      have hadj := adjacent_update_height_nb htn hgt
      dsimp only
      have hor : (∀ t ∈ some tn, (td.update_height_nb t hgt).Erases ipaddr hgt → ¬ td.Adjacent) ↔
          ((td.update_height_nb tn hgt).Erases ipaddr hgt →
            ¬ (td.update_height_nb tn hgt).Adjacent) := by
        rw [hadj]
        exact ⟨fun hall => hall tn rfl, fun himp t ht => Option.some.inj ht ▸ himp⟩
      rw [hor]
      generalize td.update_height_nb tn hgt = td1 at h1
      by_cases hreq : td1.rt_req = true ∧ hgt.r = 0
      · rw [if_pos hreq]
        refine ⟨_, rfl, iff_of_true (Counted.sendUPD ?_ now) fun hn => absurd hreq hn.1⟩
        exact (counted_update_height td1 hgt.tau hgt.oid hgt.r (hgt.delta + 1) ipaddr).congr
          rfl rfl rfl rfl
      rw [if_neg hreq]
      by_cases hdown : td1.num_down = 0
      swap
      · rw [if_neg hdown]
        exact ⟨_, rfl, iff_of_true h1 fun hn => absurd hn.2.1 hdown⟩
      rw [if_pos hdown]
      by_cases hup : td1.num_up = 0
      · rw [if_pos hup]
        split_ifs
        · exact ⟨_, rfl, iff_of_true h1 fun hn => absurd hup hn.2.2.1⟩
        · refine ⟨_, rfl, iff_of_true (Counted.sendUPD ?_ now) fun hn => absurd hup hn.2.2.1⟩
          exact h1.congr rfl rfl rfl rfl
      · rw [if_neg hup]
        obtain ⟨r, hr⟩ := td1.reverseLinks_isSome ipaddr now
        refine ⟨r, hr, (counted_reverseLinks_iff h1 hr).trans ?_⟩
        exact ⟨fun himp hn => himp ⟨hn.2.2.2.1, hn.2.2.2.2.1, hn.2.2.2.2.2⟩,
          fun himp hn => himp ⟨hreq, hdown, hup, hn.1, hn.2.1, hn.2.2⟩⟩
  | clr dst tau oid =>
    refine ⟨_, rfl, ?_⟩
    rw [recvCLR, Recounts]
    by_cases hlevel : td.OnLevel tau oid
    · rw [if_pos hlevel, if_pos (show td.height.tau = tau ∧ td.height.oid = oid ∧ td.height.r = 1
        from hlevel)]
      exact counted_erase_iff h.active
    rw [if_neg hlevel, if_neg (show ¬ (td.height.tau = tau ∧ td.height.oid = oid ∧
      td.height.r = 1) from hlevel)]
    cases htn : td.nb_find saddr with
    | none => exact iff_of_true h fun tn htn => absurd htn (Option.not_mem_none tn)
    | some tn =>
      have hclear := counted_clearLevel_iff h htn tau oid
      have hor : ∀ P : TORANeighbor → Prop, (∀ t ∈ some tn, P t) ↔ P tn := fun P =>
        ⟨fun hall => hall tn rfl, fun hP t ht => Option.some.inj ht ▸ hP⟩
      rw [hor, ← hclear]
      dsimp only
      have hdown : (td.clearLevel saddr tau oid).num_down = td.num_down := rfl
      have hup : (td.clearLevel saddr tau oid).num_up = td.num_up := rfl
      rw [hdown, hup]
      generalize td.clearLevel saddr tau oid = td1 at hdown hup
      by_cases hd : td.num_down = 0
      swap
      · rw [if_neg hd]
        exact ⟨.inr, fun hn => hn.resolve_left fun hand => hd hand.1⟩
      rw [if_pos hd]
      by_cases hu : td.num_up = 0
      · rw [if_pos hu]
        have hiff : (td.num_down = 0 ∧ td.num_up ≠ 0 ∨ td1.Counted) ↔ td1.Counted :=
          ⟨fun hn => hn.resolve_left fun hand => hand.2 hu, .inr⟩
        rw [hiff]
        split_ifs
        · exact Iff.rfl
        · exact ⟨fun hc => hc.congr rfl rfl hdown hup,
            fun hc => hc.congr rfl rfl hdown.symm hup.symm⟩
      · rw [if_neg hu]
        refine iff_of_true (Counted.sendUPD ?_ now) (.inl ⟨hd, hu⟩)
        exact (counted_update_height td1 now ipaddr 0 0 ipaddr).congr rfl rfl rfl rfl

end TORADest

namespace ToraAgent

variable {a a' : ToraAgent}

/-- All counters are right. -/
def Counted (a : ToraAgent) : Prop := ∀ td ∈ a.dstlist, td.Counted

/-- The packet of an event has the links looked at again. -/
def Recounts (a : ToraAgent) : ToraEvent → Prop
  | .recv now biLinks saddr p =>
    p.dst ≠ a.ipaddr → (a.destFor now biLinks p.dst).Recounts a.ipaddr saddr p
  | _ => True

theorem counted_newDest (now : ℚ) (biLinks : List ℤ) (id : ℤ) :
    (newDest now biLinks id).Counted := by
  have hadd : ∀ td : TORADest, td.Counted →
      (biLinks.foldl (fun td nb => td.nb_add nb now) td).Counted := by
    induction biLinks with
    | nil => exact fun td h => h
    | cons nb l ih => exact fun td h => ih _ (h.nb_add nb now)
  exact hadd _ ⟨rfl, rfl, rfl⟩

theorem index_newDest (now : ℚ) (biLinks : List ℤ) (id : ℤ) :
    (newDest now biLinks id).index = id := by
  have hadd : ∀ td : TORADest,
      (biLinks.foldl (fun td nb => td.nb_add nb now) td).index = td.index := by
    induction biLinks with
    | nil => exact fun td => rfl
    | cons nb l ih =>
      intro td
      rw [List.foldl_cons, ih, TORADest.nb_add]
      split_ifs <;> rfl
  exact hadd _

/-- A handler changes one destination, or adds one. -/
theorem withDest_eq (a : ToraAgent) (now : ℚ) (biLinks : List ℤ) (id : ℤ) :
    ∃ A B, (∀ td, td ∈ A ++ B → td ∈ a.dstlist) ∧
      (a.destFor now biLinks id ∈ a.dstlist ∨
        a.destFor now biLinks id = newDest now biLinks id) ∧
      ∀ f, a.withDest now biLinks id f = (f (a.destFor now biLinks id)).map fun r =>
        ({ a with dstlist := A ++ r.1 :: B }, r.2) := by
  cases hfind : a.dst_find id with
  | none =>
    have hdest : a.destFor now biLinks id = newDest now biLinks id := by
      rw [destFor, hfind]
      rfl
    refine ⟨[], a.dstlist, fun td htd => htd, .inr hdest, fun f => ?_⟩
    have hindex : decide ((newDest now biLinks id).index = id) = true :=
      decide_eq_true (index_newDest now biLinks id)
    have hadded : (a.dst_add now biLinks id).dst_find id = some (newDest now biLinks id) := by
      rw [dst_find, dst_add]
      exact List.find?_cons_of_pos hindex
    rw [withDest, if_pos hfind, hdest, hadded]
    dsimp only [dst_add]
    simp only [modifyFirst, hindex, if_true, List.nil_append]
  | some td =>
    have hdest : a.destFor now biLinks id = td := by
      rw [destFor, hfind]
      rfl
    obtain ⟨A, B, hl, hmodify, -⟩ := exists_first hfind
    rw [hdest]
    refine ⟨A, B, fun t ht => ?_, .inl (List.mem_of_find?_eq_some hfind), fun f => ?_⟩
    · rw [hl]
      rcases List.mem_append.mp ht with ht | ht
      · exact List.mem_append_left _ ht
      · exact List.mem_append_right _ (List.mem_cons_of_mem td ht)
    · rw [withDest, if_neg (by rw [hfind]; exact Option.some_ne_none td), hfind]
      dsimp only
      simp only [hmodify]

theorem Counted.destFor (h : a.Counted) (now : ℚ) (biLinks : List ℤ) (id : ℤ) :
    (a.destFor now biLinks id).Counted := by
  obtain ⟨-, -, -, hor, -⟩ := a.withDest_eq now biLinks id
  rcases hor with hmem | hnew
  · exact h _ hmem
  · rw [hnew]
    exact counted_newDest now biLinks id

theorem counted_forDests (h : a.Counted) {f : TORADest → TORADest × List HdrTora}
    (hf : ∀ td, td.Counted → (f td).1.Counted) : (a.forDests f).1.Counted := by
  rintro td htd
  obtain ⟨td, hmem, rfl⟩ := List.mem_map.mp htd
  exact hf td (h td hmem)

/-- An event keeps the counters exactly when links are looked at again. -/
theorem counted_step_iff (h : a.Counted) (e : ToraEvent) :
    ∃ a' ps, a.step e = some (a', ps) ∧ (a'.Counted ↔ a.Recounts e) := by
  have hwith : ∀ now biLinks id f (P : Prop), (∃ r, f (a.destFor now biLinks id) = some r ∧
      (r.1.Counted ↔ P)) → ∃ a' ps, a.withDest now biLinks id f = some (a', ps) ∧
        (a'.Counted ↔ P) := by
    intro now biLinks id f P hf
    obtain ⟨r, hr, hiff⟩ := hf
    obtain ⟨A, B, hAB, -, heq⟩ := a.withDest_eq now biLinks id
    refine ⟨_, _, by rw [heq, hr]; rfl, ⟨fun hc => ?_, fun hP td htd => ?_⟩⟩
    · exact hiff.mp (hc r.1 (List.mem_append_right _ List.mem_cons_self))
    · rcases List.mem_append.mp htd with hA | hB
      · exact h td (hAB td (List.mem_append_left _ hA))
      · rcases List.mem_cons.mp hB with rfl | hB
        · exact hiff.mpr hP
        · exact h td (hAB td (List.mem_append_right _ hB))
  cases e with
  | recv now biLinks saddr p =>
    rw [step, Recounts]
    by_cases hself : p.dst = a.ipaddr
    · rw [if_pos hself]
      exact ⟨a, [], rfl, iff_of_true h fun hne => absurd hself hne⟩
    · rw [if_neg hself]
      apply hwith
      obtain ⟨r, hr, hiff⟩ :=
        TORADest.counted_recv_iff (h.destFor now biLinks p.dst) a.ipaddr now saddr p
      exact ⟨r, hr, hiff.trans ⟨fun hrec _ => hrec, fun himp => himp hself⟩⟩
  | rt_resolve now biLinks daddr =>
    apply hwith
    refine ⟨_, rfl, iff_of_true ?_ trivial⟩
    have hdest := h.destFor now biLinks daddr
    rw [TORADest.rt_resolve]
    split
    · exact hdest
    · split_ifs
      · exact hdest
      · exact hdest.congr rfl rfl rfl rfl
  | rtNotifyLinkUP now index =>
    refine ⟨_, _, rfl, iff_of_true (counted_forDests h fun td htd => ?_) trivial⟩
    rw [TORADest.linkUP]
    split
    · exact htd.nb_add index now
    · exact htd
  | rtNotifyLinkDN now index =>
    exact ⟨_, _, rfl, iff_of_true (counted_forDests h fun td htd => htd.nb_del index now) trivial⟩

/-- In a run of a node, the counters of every destination are right in every state, and route
maintenance runs exactly when no downstream link is left, if and only if every packet has the links
looked at again. -/
theorem run_counted_iff (ipaddr : ℤ) (events : List ToraEvent) :
    Machine.Always step (fun a => ∀ td ∈ a.dstlist, td.Counted ∧ ∀ id now,
      ((td.nb_del id now).2 = true ↔ td.nb_find id ≠ none ∧
        ∀ tn ∈ td.nblist.eraseP (fun tn => tn.index = id), tn.lnk_stat ≠ .dn)) (ofAddr ipaddr)
        events ↔
      Machine.Admits step Recounts (ofAddr ipaddr) events := by
  apply Machine.always_iff (I := Counted)
  · exact fun a h td htd => ⟨h td htd, (h td htd).nb_del_iff⟩
  · intro a e h he
    obtain ⟨a', ps, hstep, hiff⟩ := counted_step_iff h e
    exact ⟨a', ps, hstep, hiff.mpr he⟩
  · intro a e a' ps h he hstep hP
    obtain ⟨b, qs, hstep', hiff⟩ := counted_step_iff h e
    obtain ⟨rfl, -⟩ := Prod.mk.inj (Option.some.inj (hstep.symm.trans hstep'))
    exact he (hiff.mp fun td htd => (hP td htd).1)
  · exact fun td htd => absurd htd List.not_mem_nil

/-- A clear from a downstream neighbour leaves the counter of downstream links. -/
theorem counted_of_clear : ¬ ∀ (ipaddr : ℤ) (events : List ToraEvent),
    Machine.Always step (fun a => ∀ td ∈ a.dstlist, td.num_active = td.nblist.length ∧
      td.num_down = td.links .dn ∧ td.num_up = td.links .up) (ofAddr ipaddr) events := by
  intro h
  have hclear := h 1 [.rt_resolve 0 [2] 9, .recv 1 [2] 2 (.upd 9 ⟨0, 0, 0, 1, 2⟩),
    .recv 2 [2] 2 (.clr 9 5 7)]
  obtain ⟨a, ps, hrun, hP⟩ := hclear.run
  have hbad : ((Machine.run step (ofAddr 1) [.rt_resolve 0 [2] 9,
      .recv 1 [2] 2 (.upd 9 ⟨0, 0, 0, 1, 2⟩), .recv 2 [2] 2 (.clr 9 5 7)]).map fun r =>
        decide (∀ td ∈ r.1.dstlist, td.num_down = td.links .dn)) = some false := by
    decide +kernel
  rw [hrun] at hbad
  exact of_decide_eq_false (Option.some.inj hbad) fun td htd => (hP td htd).2.1

end ToraAgent

end Ns2
