import Ns2.Linkstate.LsPaths
import Ns2.Lib.ShortestPath

/-! The computed routes are the shortest paths over the links that are up, with all their first
hops. -/

namespace Ns2

open ShortestPath

/-! ### The path lists -/

theorem LsNodeIdList.mem_appendUnique {h : ℤ} {l x : LsNodeIdList} :
    h ∈ appendUnique l x ↔ h ∈ l ∨ h ∈ x := by
  unfold appendUnique
  induction x generalizing l with
  | nil => simp
  | cons y x ih =>
    rw [List.foldl_cons, ih]
    split_ifs with hy
    · constructor
      · exact fun hh => hh.imp_right (List.mem_cons_of_mem _)
      · rintro (hh | hh)
        · exact .inl hh
        · rcases List.mem_cons.mp hh with rfl | hh
          · exact .inl hy
          · exact .inr hh
    · simp [or_assoc]

theorem LsNodeIdList.nodup_appendUnique {l x : LsNodeIdList} (hl : l.Nodup) :
    (appendUnique l x).Nodup := by
  unfold appendUnique
  induction x generalizing l with
  | nil => exact hl
  | cons y x ih =>
    rw [List.foldl_cons]
    split_ifs with hy
    · exact ih hl
    · exact ih (List.nodup_append.mpr ⟨hl, List.nodup_singleton y, by
        rintro a ha b hb rfl
        exact hy (List.mem_singleton.mp hb ▸ ha)⟩)

namespace LsPaths

/-- What `insertNextHopList` leaves at its destination: the lesser cost, with the next hops of
that cost. -/
structure Merged (old : Option LsEqualPaths) (cost : ℤ) (nhl : LsNodeIdList)
    (new : LsEqualPaths) : Prop where
  le : new.cost ≤ cost
  le_old : ∀ ep, old = some ep → new.cost ≤ ep.cost
  cases : new.cost = cost ∨ old = some new
  nodup : nhl.Nodup → (∀ ep, old = some ep → ep.nextHopList.Nodup) → new.nextHopList.Nodup
  mem : ∀ h, h ∈ new.nextHopList ↔
    (new.cost = cost ∧ h ∈ nhl) ∨ ∃ ep, old = some ep ∧ ep.cost = new.cost ∧ h ∈ ep.nextHopList

theorem insertNextHopList_spec (t : LsPaths) (x cost : ℤ) (nhl : LsNodeIdList) :
    ∃ new, Merged (t.find x) cost nhl new ∧
      ∀ v, (insertNextHopList t x cost nhl).find v = if v = x then some new else t.find v := by
  unfold insertNextHopList
  cases ht : t.find x with
  | none =>
    refine ⟨⟨cost, nhl⟩, ⟨le_rfl, by simp, .inl rfl, fun h _ => h, by simp⟩, fun v => ?_⟩
    rw [SortedMap.find_set]
  | some ep =>
    dsimp only
    split_ifs with hlt hgt
    · refine ⟨ep, ⟨hlt.le, by simp, .inr rfl, fun _ h => h ep rfl, fun h => ?_⟩, fun v => ?_⟩
      · simp [hlt.ne]
      · by_cases hv : v = x <;> simp [hv, ht]
    · refine ⟨⟨cost, nhl⟩, ⟨le_rfl, by simpa using hgt.le, .inl rfl, fun h _ => h, fun h => ?_⟩,
        fun v => by rw [SortedMap.find_set]⟩
      simp [hgt.ne']
    · obtain rfl : ep.cost = cost := by omega
      refine ⟨⟨ep.cost, LsNodeIdList.appendUnique ep.nextHopList nhl⟩, ⟨le_rfl, by simp, .inl rfl,
        fun _ h => LsNodeIdList.nodup_appendUnique (h ep rfl), fun h => ?_⟩,
        fun v => by rw [SortedMap.find_set]⟩
      simp [LsNodeIdList.mem_appendUnique, or_comm]

theorem findMinEqualPaths_spec {t : LsPaths}
    (hne : ∀ v ep, t.find v = some ep → ep.nextHopList ≠ []) :
    match findMinEqualPaths t with
    | none => ∀ v ep, t.find v = some ep → lsMaxCost + 1 ≤ ep.cost
    | some (v, ep) => t.find v = some ep ∧ ep.cost < lsMaxCost + 1 ∧
        ∀ v' ep', t.find v' = some ep' → ep.cost ≤ ep'.cost := by
  suffices h : ∀ (l : List (ℤ × LsEqualPaths)) (r : ℤ × Option (ℤ × LsEqualPaths)),
      (∀ e ∈ l, e ∈ t.entries) →
      (match r with
        | (c, none) => c = lsMaxCost + 1
        | (c, some e) => e ∈ t.entries ∧ c = e.2.cost ∧ c < lsMaxCost + 1) →
      let r' := l.foldl (fun r e =>
        if r.1 > e.2.cost ∧ e.2.nextHopList ≠ [] then (e.2.cost, some e) else r) r
      (match r' with
        | (c, none) => c = lsMaxCost + 1
        | (c, some e) => e ∈ t.entries ∧ c = e.2.cost ∧ c < lsMaxCost + 1) ∧
        r'.1 ≤ r.1 ∧ ∀ e ∈ l, r'.1 ≤ e.2.cost by
    obtain ⟨h1, -, h3⟩ := h t.entries (lsMaxCost + 1, none) (fun _ he => he) rfl
    unfold findMinEqualPaths
    generalize t.entries.foldl _ _ = r at h1 h3
    obtain ⟨c, _ | ⟨v, ep⟩⟩ := r
    · intro v ep hv
      have := h3 (v, ep) (SortedMap.mem_entries.mpr hv)
      exact h1 ▸ this
    · obtain ⟨hmem, rfl, hlt⟩ := h1
      exact ⟨SortedMap.mem_entries.mp hmem, hlt, fun v' ep' hv' =>
        h3 (v', ep') (SortedMap.mem_entries.mpr hv')⟩
  intro l
  induction l with
  | nil => exact fun r _ hr => ⟨hr, le_rfl, by simp⟩
  | cons e l ih =>
    intro r hl hr
    have hl' : ∀ e ∈ l, e ∈ t.entries := fun x hx => hl x (List.mem_cons_of_mem _ hx)
    have hmem : e ∈ t.entries := hl e (by simp)
    have hlist : e.2.nextHopList ≠ [] := hne e.1 e.2 (SortedMap.mem_entries.mp hmem)
    rw [List.foldl_cons]
    by_cases hgt : r.1 > e.2.cost
    · rw [if_pos ⟨hgt, hlist⟩]
      have hlt : e.2.cost < lsMaxCost + 1 := by
        obtain ⟨c, _ | e'⟩ := r
        · exact hgt.trans_eq hr
        · exact hgt.trans hr.2.2
      obtain ⟨h1, h2, h3⟩ := ih (e.2.cost, some e) hl' ⟨hmem, rfl, hlt⟩
      refine ⟨h1, h2.trans hgt.le, fun x hx => ?_⟩
      rcases List.mem_cons.mp hx with rfl | hx
      · exact h2
      · exact h3 x hx
    · rw [if_neg (fun hh => hgt hh.1)]
      obtain ⟨h1, h2, h3⟩ := ih r hl' hr
      refine ⟨h1, h2, fun x hx => ?_⟩
      rcases List.mem_cons.mp hx with rfl | hx
      · exact h2.trans (not_lt.mp hgt)
      · exact h3 x hx

/-- The next hops to `v`. -/
def hops (p : LsPaths) (v : ℤ) : LsNodeIdList := ((p.find v).map LsEqualPaths.nextHopList).getD []

theorem hops_some {p : LsPaths} {v : ℤ} {ep : LsEqualPaths} (h : p.find v = some ep) :
    hops p v = ep.nextHopList := by simp [hops, h]

theorem hops_none {p : LsPaths} {v : ℤ} (h : p.find v = none) : hops p v = [] := by simp [hops, h]

/-- The least cost to `x` that is known, in the paths or else among the tentative ones. -/
def label (p t : LsPaths) (x : ℤ) : Option ℤ :=
  ((p.find x).or (t.find x)).map LsEqualPaths.cost

/-- A path to `x` of cost `c` with the first hops `hs` is taken into account. -/
def Known (p t : LsPaths) (x c : ℤ) (hs : LsNodeIdList) : Prop :=
  ∃ c' ≤ c, label p t x = some c' ∧ (c' = c → ∀ h ∈ hs, h ∈ hops p x ∨ h ∈ hops t x)

/-- An insertion among the tentative paths forgets nothing. -/
theorem Known.insert {p t t' : LsPaths} {x y c d : ℤ} {nhl hs : LsNodeIdList} {new : LsEqualPaths}
    (h : Known p t y d hs) (hp : p.find x = none) (hm : Merged (t.find x) c nhl new)
    (ht : ∀ v, t'.find v = if v = x then some new else t.find v) : Known p t' y d hs := by
  obtain ⟨c', hle, hlab, hhops⟩ := h
  by_cases hy : y = x
  · subst hy
    simp only [label, hp, Option.none_or, Option.map_eq_some_iff] at hlab
    obtain ⟨old, hold, rfl⟩ := hlab
    have hnew := hm.le_old old hold
    refine ⟨new.cost, hnew.trans hle, by simp [label, hp, ht], fun he h hh => ?_⟩
    have hc : old.cost = d := le_antisymm hle (he ▸ hnew)
    refine .inr ?_
    rw [hops_some (by rw [ht, if_pos rfl]), hm.mem]
    rcases hhops hc h hh with hh | hh
    · simp [hops_none hp] at hh
    · rw [hops_some hold] at hh
      exact .inr ⟨old, hold, hc.trans he.symm, hh⟩
  · have htf : t'.find y = t.find y := by rw [ht, if_neg hy]
    refine ⟨c', hle, by simpa [label, htf] using hlab, fun he h hh => ?_⟩
    simpa [hops, htf] using hhops he h hh

end LsPaths

namespace LsRouting

open LsPaths

/-- A link that is up. -/
def Up (r : LsRouting) (u v c : ℤ) : Prop :=
  ∃ lsl, r.linkStateDatabase_.find u = some lsl ∧
    ∃ l ∈ lsl, l.status_ = .up ∧ l.neighborId_ = v ∧ l.cost_ = c

/-- The links that are up cost at least 1, and a shortest path is below `LS_MAX_COST`. -/
structure Bounded (r : LsRouting) : Prop where
  cost : ∀ u v c, Up r u v c → 1 ≤ c ∧ c < lsMaxCost
  path : ∀ v c, IsDist (Up r) r.myNodeId_ v c → c < lsMaxCost

theorem Bounded.pos {r : LsRouting} (hb : Bounded r) (u v c : ℤ) (h : Up r u v c) :
    0 < c := (hb.cost u v c h).1

/-- The paths are shortest, up to the cost `m`; the tentative paths are walks that are not
shorter; and every link behind a path is known, except for those to do at the node `o`. -/
structure Inv (r : LsRouting) (m o : ℤ) (todo : List LsLinkState) (p t : LsPaths) : Prop where
  self_path : p.find r.myNodeId_ = some ⟨0, [r.myNodeId_]⟩
  paths : ∀ v ep, p.find v = some ep → IsDist (Up r) r.myNodeId_ v ep.cost ∧ ep.cost ≤ m ∧
    (v ≠ r.myNodeId_ → ep.nextHopList.Nodup ∧
      ∀ h ∈ ep.nextHopList, Via (Up r) r.myNodeId_ h v ep.cost)
  tentative : ∀ v ep, t.find v = some ep → m ≤ ep.cost ∧ ep.cost ≤ lsMaxCost + 1 ∧
    ep.nextHopList ≠ [] ∧ ep.nextHopList.Nodup ∧
      ∀ h ∈ ep.nextHopList, Via (Up r) r.myNodeId_ h v ep.cost
  both : ∀ v ep ep', p.find v = some ep → t.find v = some ep' →
    v ≠ r.myNodeId_ ∧ ep'.cost = ep.cost ∧ ∀ h ∈ ep'.nextHopList, h ∉ ep.nextHopList
  relaxed : ∀ u ep x b, p.find u = some ep → Up r u x b →
    (u = o → ∀ l ∈ todo, l.status_ = .up → l.neighborId_ = x → l.cost_ ≠ b) →
    lsMaxCost + 1 < ep.cost + b ∨
      Known p t x (ep.cost + b) (if u = r.myNodeId_ then [x] else ep.nextHopList)

section runs

variable {r : LsRouting} (hb : Bounded r)

include hb in
theorem addInt_eq {p : LsPaths} {t : LsPaths} {m o : ℤ} {todo : List LsLinkState} {ep : LsEqualPaths}
    (h : Inv r m o todo p t) (ho : p.find o = some ep) {x b : ℤ} (hl : Up r o x b) :
    addInt b (lookupCost p o) = ep.cost + b := by
  obtain ⟨hd, -⟩ := h.paths o ep ho
  have h1 := hb.path _ _ hd
  have h2 := hd.1.nonneg hb.pos
  have h3 := hb.cost _ _ _ hl
  have hc : lookupCost p o = ep.cost := by simp [lookupCost, ho]
  rw [addInt, hc, Int.bmod_eq_of_le] <;> unfold lsMaxCost at * <;> omega

include hb in
theorem Inv.link {p t : LsPaths} {m o : ℤ} {l : LsLinkState} {todo : List LsLinkState}
    {ep : LsEqualPaths} (h : Inv r m o (l :: todo) p t) (ho : p.find o = some ep)
    (hm : ep.cost = m) {nhl : LsNodeIdList} (hnhl : o ≠ r.myNodeId_ → nhl = ep.nextHopList)
    (hne : ep.nextHopList ≠ []) (hl : l.status_ = .up → Up r o l.neighborId_ l.cost_) :
    Inv r m o todo p (LsRouting.link r p o nhl t l) := by
  unfold LsRouting.link
  by_cases hup : l.status_ = .up
  · have hlink := hl hup
    have hpos := hb.pos _ _ _ hlink
    have hdist := (h.paths o ep ho).1
    rw [if_neg (by simp [hup]), addInt_eq hb h ho hlink]
    dsimp only
    by_cases hskip : lookupCost p l.neighborId_ < ep.cost + l.cost_
    · -- a better path is installed, or the cost is beyond all costs
      rw [if_pos hskip]
      refine ⟨h.self_path, h.paths, h.tentative, h.both, fun u ep' x b hu hux hdone => ?_⟩
      by_cases hthis : u = o ∧ l.neighborId_ = x ∧ l.cost_ = b
      · obtain ⟨rfl, rfl, rfl⟩ := hthis
        obtain rfl := Option.some.inj (hu.symm.trans ho)
        unfold lookupCost at hskip
        cases hx : p.find l.neighborId_ with
        | none =>
          rw [hx] at hskip
          exact .inl hskip
        | some ex =>
          rw [hx] at hskip
          exact .inr ⟨ex.cost, hskip.le, by simp [label, hx], fun he => absurd he hskip.ne⟩
      · refine h.relaxed u ep' x b hu hux fun huo l' hl' hup' hx hc => ?_
        rcases List.mem_cons.mp hl' with rfl | hl'
        · exact hthis ⟨huo, hx, hc⟩
        · exact hdone huo l' hl' hup' hx hc
    · -- the node is not installed, and the path is put among the tentative ones
      rw [if_neg hskip]
      have hx : p.find l.neighborId_ = none := by
        cases hx : p.find l.neighborId_ with
        | none => rfl
        | some ex =>
          have := (h.paths _ _ hx).2.1
          simp only [lookupCost, hx] at hskip
          omega
      have hle : ep.cost + l.cost_ ≤ lsMaxCost + 1 := by
        simpa [lookupCost, hx] using hskip
      obtain ⟨hs, hhs⟩ : ∃ hs : LsNodeIdList, hs =
        (if o = r.myNodeId_ then [l.neighborId_] else nhl) := ⟨_, rfl⟩
      have hvia : ∀ h' ∈ hs, Via (Up r) r.myNodeId_ h' l.neighborId_ (ep.cost + l.cost_) := by
        intro h' hh'
        by_cases hos : o = r.myNodeId_
        · subst hos
          have hz : ep.cost = 0 := by rw [Option.some.inj (ho.symm.trans h.self_path)]
          rw [hhs, if_pos rfl, List.mem_singleton] at hh'
          rw [hh', hz, zero_add]
          exact .edge hlink
        · rw [hhs, if_neg hos, hnhl hos] at hh'
          exact (((h.paths o ep ho).2.2 hos).2 h' hh').snoc hlink
      have hnd : hs.Nodup := by
        by_cases hos : o = r.myNodeId_
        · simp [hhs, hos]
        · rw [hhs, if_neg hos, hnhl hos]
          exact ((h.paths o ep ho).2.2 hos).1
      have hsne : hs ≠ [] := by
        by_cases hos : o = r.myNodeId_
        · simp [hhs, hos]
        · rwa [hhs, if_neg hos, hnhl hos]
      rw [← hhs]
      obtain ⟨new, hmerge, hfind⟩ := insertNextHopList_spec t l.neighborId_ (ep.cost + l.cost_) hs
      generalize insertNextHopList t l.neighborId_ (ep.cost + l.cost_) hs = t' at hfind
      refine ⟨h.self_path, h.paths, fun v ev hv => ?_, fun v ev ev' hv hv' => ?_,
        fun u ep' x b hu hux hdone => ?_⟩
      · rw [hfind] at hv
        split_ifs at hv with hvx
        · subst hvx
          obtain rfl := Option.some.inj hv
          refine ⟨?_, hmerge.le.trans hle, ?_, ?_, fun h' hh' => ?_⟩
          · rcases hmerge.cases with hc | hold
            · omega
            · exact (h.tentative _ _ hold).1
          · rcases hmerge.cases with hc | hold
            · obtain ⟨h', hh'⟩ := List.exists_mem_of_ne_nil _ hsne
              exact List.ne_nil_of_mem ((hmerge.mem h').mpr (.inl ⟨hc, hh'⟩))
            · exact (h.tentative _ _ hold).2.2.1
          · exact hmerge.nodup hnd fun old hold => (h.tentative _ _ hold).2.2.2.1
          · rcases (hmerge.mem h').mp hh' with ⟨hc, hh'⟩ | ⟨old, hold, hc, hh'⟩
            · rw [hc]
              exact hvia h' hh'
            · rw [← hc]
              exact (h.tentative _ _ hold).2.2.2.2 h' hh'
        · exact h.tentative v ev hv
      · rw [hfind] at hv'
        split_ifs at hv' with hvx
        · subst hvx
          simp [hx] at hv
        · exact h.both v ev ev' hv hv'
      · by_cases hthis : u = o ∧ l.neighborId_ = x ∧ l.cost_ = b
        · obtain ⟨rfl, rfl, rfl⟩ := hthis
          obtain rfl := Option.some.inj (hu.symm.trans ho)
          refine .inr ⟨new.cost, hmerge.le, by simp [label, hx, hfind], fun hc h' hh' => .inr ?_⟩
          rw [hops_some (by rw [hfind, if_pos rfl]), hmerge.mem]
          refine .inl ⟨hc, ?_⟩
          rw [hhs]
          by_cases hos : u = r.myNodeId_
          · simpa [hos] using hh'
          · simpa [hos, hnhl hos] using hh'
        · refine (h.relaxed u ep' x b hu hux fun huo l' hl' hup' hxx hc => ?_).imp_right
            fun hk => hk.insert hx hmerge hfind
          rcases List.mem_cons.mp hl' with rfl | hl'
          · exact hthis ⟨huo, hxx, hc⟩
          · exact hdone huo l' hl' hup' hxx hc
  · rw [if_pos hup]
    refine ⟨h.self_path, h.paths, h.tentative, h.both, fun u ep' x b hu hux hdone => ?_⟩
    refine h.relaxed u ep' x b hu hux fun huo l' hl' hup' => ?_
    rcases List.mem_cons.mp hl' with rfl | hl'
    · exact absurd hup' hup
    · exact hdone huo l' hl' hup'

include hb in
theorem Inv.foldl_link {p t : LsPaths} {m o : ℤ} {todo : List LsLinkState} {ep : LsEqualPaths}
    (h : Inv r m o todo p t) (ho : p.find o = some ep) (hm : ep.cost = m) {nhl : LsNodeIdList}
    (hnhl : o ≠ r.myNodeId_ → nhl = ep.nextHopList) (hne : ep.nextHopList ≠ [])
    (hl : ∀ l ∈ todo, l.status_ = .up → Up r o l.neighborId_ l.cost_) :
    Inv r m o [] p (todo.foldl (LsRouting.link r p o nhl) t) := by
  induction todo generalizing t with
  | nil => exact h
  | cons l todo ih =>
    exact ih (h.link hb ho hm hnhl hne (hl l (by simp)))
      fun l' hl' => hl l' (List.mem_cons_of_mem _ hl')

include hb in
theorem Inv.expand {p t : LsPaths} {m o : ℤ} {lsl : List LsLinkState} {ep : LsEqualPaths}
    (h : Inv r m o lsl p t) (hdb : r.linkStateDatabase_.find o = some lsl)
    (ho : p.find o = some ep) (hm : ep.cost = m) (hne : ep.nextHopList ≠ []) :
    ∃ t', expand r p t o lsl = some t' ∧ Inv r m o [] p t' := by
  have hl : ∀ l ∈ lsl, l.status_ = .up → Up r o l.neighborId_ l.cost_ := fun l hl hup =>
    ⟨lsl, hdb, l, hl, hup, rfl, rfl⟩
  unfold LsRouting.expand
  by_cases hos : o = r.myNodeId_
  · rw [if_neg (not_not.mpr hos)]
    exact ⟨_, rfl, h.foldl_link hb ho hm (fun hh => absurd hos hh) hne hl⟩
  · rw [if_pos hos, lookupNextHopListPtr, ho]
    exact ⟨_, rfl, h.foldl_link hb ho hm (fun _ => rfl) hne hl⟩

include hb in
/-- A node without a path is as far as the least tentative cost. -/
theorem Inv.frontier {p t : LsPaths} {m o k v c : ℤ} (h : Inv r m o [] p t)
    (hk : k ≤ lsMaxCost + 1) (hmin : ∀ v ep, t.find v = some ep → k ≤ ep.cost)
    (hv : p.find v = none) (hw : Walk (Up r) r.myNodeId_ v c) : k ≤ c := by
  refine frontier_le (S := {u | p.find u ≠ none}) hb.pos (by simp [h.self_path]) (fun u hu => ?_)
    (by simpa using hv) hw
  obtain ⟨ep, hep⟩ := Option.ne_none_iff_exists'.mp hu
  refine ⟨ep.cost, (h.paths u ep hep).1, fun x hx b hb' => ?_⟩
  have hx' : p.find x = none := by simpa using hx
  rcases h.relaxed u ep x b hep hb' (by simp) with hbig | ⟨c', hle, hlab, -⟩
  · omega
  · simp only [label, hx', Option.none_or, Option.map_eq_some_iff] at hlab
    obtain ⟨ex, hex, rfl⟩ := hlab
    exact (hmin x ex hex).trans hle

include hb in
/-- Among the tentative paths there is one that can be popped, and it is shortest. -/
theorem Inv.findMin {p t : LsPaths} {m o : ℤ} (h : Inv r m o [] p t) (hne : t.entries ≠ []) :
    ∃ v ep, findMinEqualPaths t = some (v, ep) ∧ t.find v = some ep ∧
      (∀ v' ep', t.find v' = some ep' → ep.cost ≤ ep'.cost) ∧
      IsDist (Up r) r.myNodeId_ v ep.cost := by
  have hspec := findMinEqualPaths_spec (t := t) fun v ep hv => (h.tentative v ep hv).2.2.1
  have hwalk : ∀ v ep, t.find v = some ep → Walk (Up r) r.myNodeId_ v ep.cost := fun v ep hv => by
    obtain ⟨-, -, hl, -, hvia⟩ := h.tentative v ep hv
    obtain ⟨h', hh'⟩ := List.exists_mem_of_ne_nil _ hl
    exact (hvia h' hh').walk
  cases hf : findMinEqualPaths t with
  | none =>
    rw [hf] at hspec
    obtain ⟨⟨v, ep⟩, hmem⟩ := List.exists_mem_of_ne_nil _ hne
    have hv := SortedMap.mem_entries.mp hmem
    have hbig := hspec v ep hv
    obtain ⟨d, hd⟩ := (hwalk v ep hv).exists_isDist hb.pos
    have hlt := hb.path v d hd
    cases hp : p.find v with
    | none =>
      have := h.frontier hb le_rfl hspec hp hd.1
      omega
    | some ep' =>
      obtain ⟨-, hc, -⟩ := h.both v ep' ep hp hv
      have := hd.unique (h.paths v ep' hp).1
      omega
  | some q =>
    obtain ⟨v, ep⟩ := q
    rw [hf] at hspec
    obtain ⟨hv, hlt, hmin⟩ := hspec
    refine ⟨v, ep, rfl, hv, hmin, ?_⟩
    cases hp : p.find v with
    | none => exact ⟨hwalk v ep hv, fun c hc => h.frontier hb hlt.le hmin hp hc⟩
    | some ep' =>
      obtain ⟨-, hc, -⟩ := h.both v ep' ep hp hv
      rw [hc]
      exact (h.paths v ep' hp).1

/-- A popped path is installed beside the other paths of its cost. -/
theorem Inv.insertPath_find {p t : LsPaths} {m o v n : ℤ} {ep : LsEqualPaths}
    (h : Inv r m o [] p t) (hv : t.find v = some ep) (hn : n ∈ ep.nextHopList) (u : ℤ) :
    (insertPath p ⟨v, ep.cost, n⟩).find u =
      if u = v then some ⟨ep.cost, hops p v ++ [n]⟩ else p.find u := by
  unfold insertPath
  cases hp : p.find v with
  | none => simp [insertPathNoChecking, hp, SortedMap.find_set, hops_none hp]
  | some ep' =>
    obtain ⟨-, hc, hdisj⟩ := h.both v ep' ep hp hv
    simp [hc, hdisj n hn, SortedMap.find_set, hops_some hp]

include hb in
/-- The pop moves one next hop of a nearest node from the tentative paths to the paths, and
leaves only the links behind that node to do. -/
theorem Inv.popShortestPath (hid : ∀ v c, Walk (Up r) r.myNodeId_ v c → v ≠ lsInvalidNodeId)
    {p t : LsPaths} {m o : ℤ} (h : Inv r m o [] p t) (hne : t.entries ≠ []) :
    ∃ t' sp, popShortestPath t = (t', some sp) ∧ sp.isValid = true ∧
      Via (Up r) r.myNodeId_ sp.nextHop sp.destination sp.cost ∧
      sp.nextHop ∉ hops p sp.destination ∧
      (∀ u, (insertPath p sp).find u = if u = sp.destination then
        some ⟨sp.cost, hops p sp.destination ++ [sp.nextHop]⟩ else p.find u) ∧
      ∀ todo : List LsLinkState,
        (∀ x b, Up r sp.destination x b →
          ∃ l ∈ todo, l.status_ = .up ∧ l.neighborId_ = x ∧ l.cost_ = b) →
        Inv r sp.cost sp.destination todo (insertPath p sp) t' := by
  obtain ⟨v, ep, hf, hv, hmin, hdist⟩ := h.findMin hb hne
  obtain ⟨hmc, -, hl, hnd, hvia⟩ := h.tentative v ep hv
  obtain ⟨n, rest, hrest⟩ := List.exists_cons_of_ne_nil hl
  have hn : n ∈ ep.nextHopList := by simp [hrest]
  have hvn := hvia n hn
  have hlt := hb.path v _ hdist
  have hinst := h.insertPath_find hv hn
  have hvs : v ≠ r.myNodeId_ := fun hvs => (h.both _ _ _ h.self_path (hvs ▸ hv)).1 rfl
  have hnot : n ∉ hops p v := by
    cases hp : p.find v with
    | none => simp [hops_none hp]
    | some ep' =>
      rw [hops_some hp]
      exact (h.both v ep' ep hp hv).2.2 n hn
  rw [hrest] at hnd
  obtain ⟨hnr, hndr⟩ := List.nodup_cons.mp hnd
  refine ⟨if rest = [] then t.erase v else t.set v ⟨ep.cost, rest⟩, ⟨v, ep.cost, n⟩,
    by simp only [LsPaths.popShortestPath, hf, hrest], ?_, hvn, hnot,
    hinst, fun todo htodo => ?_⟩
  · obtain ⟨b, d, hb', -, -⟩ := hvn
    have h1 := hid v _ hdist.1
    have h2 := hid n b (.edge hb')
    have h3 : ep.cost ≠ lsInvalidCost := by
      unfold lsInvalidCost
      unfold lsMaxCost at hlt
      omega
    simpa [LsPath.isValid] using ⟨h1, h3, h2⟩
  · obtain ⟨t', ht'⟩ : ∃ t' : LsPaths, t' =
      if rest = [] then t.erase v else t.set v ⟨ep.cost, rest⟩ := ⟨_, rfl⟩
    rw [← ht']
    generalize insertPath p ⟨v, ep.cost, n⟩ = p' at hinst
    have hfind : ∀ u, t'.find u = if u = v then
        (if rest = [] then none else some ⟨ep.cost, rest⟩) else t.find u := fun u => by
      rw [ht']
      split_ifs with hr huv huv <;> simp [SortedMap.find_erase, SortedMap.find_set, huv]
    refine ⟨?_, fun u eu hu => ?_, fun u eu hu => ?_, fun u eu eu' hu hu' => ?_,
      fun u eu x b hu hux hdone => ?_⟩
    · rw [hinst, if_neg (Ne.symm hvs)]
      exact h.self_path
    · rw [hinst] at hu
      split_ifs at hu with huv
      · subst huv
        obtain rfl := Option.some.inj hu
        refine ⟨hdist, le_rfl, fun hus => ⟨?_, fun h' hh' => ?_⟩⟩
        · refine List.nodup_append.mpr ⟨?_, List.nodup_singleton n, ?_⟩
          · cases hp : p.find u with
            | none => simp [hops_none hp]
            | some ep' =>
              rw [hops_some hp]
              exact ((h.paths u ep' hp).2.2 hus).1
          · rintro a ha b hb' rfl
            exact hnot (List.mem_singleton.mp hb' ▸ ha)
        · rcases List.mem_append.mp hh' with hh' | hh'
          · cases hp : p.find u with
            | none => simp [hops_none hp] at hh'
            | some ep' =>
              rw [hops_some hp] at hh'
              rw [(h.both u ep' ep hp hv).2.1]
              exact ((h.paths u ep' hp).2.2 hus).2 h' hh'
          · rw [List.mem_singleton.mp hh']
            exact hvn
      · obtain ⟨h1, h2, h3⟩ := h.paths u eu hu
        exact ⟨h1, h2.trans hmc, h3⟩
    · rw [hfind] at hu
      split_ifs at hu with huv hr
      · subst huv
        obtain rfl := Option.some.inj hu
        refine ⟨le_rfl, ?_, hr, hndr, fun h' hh' => hvia h' (by simp [hrest, hh'])⟩
        dsimp only
        omega
      · obtain ⟨-, h2, h3⟩ := h.tentative u eu hu
        exact ⟨hmin u eu hu, h2, h3⟩
    · rw [hinst] at hu
      rw [hfind] at hu'
      split_ifs at hu hu' with huv hr
      · subst huv
        obtain rfl := Option.some.inj hu
        obtain rfl := Option.some.inj hu'
        refine ⟨hvs, rfl, fun h' hh' hmem => ?_⟩
        rcases List.mem_append.mp hmem with hmem | hmem
        · cases hp : p.find u with
          | none => simp [hops_none hp] at hmem
          | some ep' =>
            rw [hops_some hp] at hmem
            exact (h.both u ep' ep hp hv).2.2 h' (by simp [hrest, hh']) hmem
        · exact hnr (List.mem_singleton.mp hmem ▸ hh')
      · exact h.both u eu eu' hu hu'
    · have huv : u ≠ v := by
        rintro rfl
        obtain ⟨l, hl', hup, hx, hc⟩ := htodo x b hux
        exact hdone rfl l hl' hup hx hc
      rw [hinst, if_neg huv] at hu
      refine (h.relaxed u eu x b hu hux (by simp)).imp_right fun ⟨c', hle, hlab, hhops⟩ => ?_
      by_cases hxv : x = v
      · subst hxv
        have hc' : c' = ep.cost := by
          cases hp : p.find x with
          | none => simpa [label, hp, hv, eq_comm] using hlab
          | some ep' =>
            rw [(h.both x ep' ep hp hv).2.1]
            simpa [label, hp, eq_comm] using hlab
        subst hc'
        refine ⟨ep.cost, hle, by simp [label, hinst], fun he h' hh' => ?_⟩
        have hin : hops p' x = hops p x ++ [n] := hops_some (by rw [hinst, if_pos rfl])
        rw [hin]
        rcases hhops he h' hh' with hh | hh
        · exact .inl (List.mem_append_left _ hh)
        · rw [hops_some hv, hrest] at hh
          rcases List.mem_cons.mp hh with rfl | hh
          · exact .inl (by simp)
          · have hr : rest ≠ [] := List.ne_nil_of_mem hh
            have ht : t'.find x = some ⟨ep.cost, rest⟩ := by rw [hfind, if_pos rfl, if_neg hr]
            exact .inr (by rw [hops_some ht]; exact hh)
      · have hp' : p'.find x = p.find x := by rw [hinst, if_neg hxv]
        have ht : t'.find x = t.find x := by rw [hfind, if_neg hxv]
        refine ⟨c', hle, by simpa [label, hp', ht] using hlab, fun he h' hh' => ?_⟩
        simpa [hops, hp', ht] using hhops he h' hh'

/-! ### Termination -/

/-- The nodes at the ends of links. -/
def ends (r : LsRouting) : Finset ℤ :=
  (r.linkStateDatabase_.entries.flatMap fun e => e.2.map LsLinkState.neighborId_).toFinset

/-- The next hops that are not in the paths yet: every pop installs one of them. -/
def missing (r : LsRouting) (p : LsPaths) : ℕ :=
  ((ends r ×ˢ ends r).filter fun q => q.2 ∉ hops p q.1).card

theorem mem_ends {u v c : ℤ} (h : Up r u v c) : v ∈ ends r := by
  obtain ⟨lsl, hdb, l, hl, -, rfl, -⟩ := h
  rw [ends, List.mem_toFinset, List.mem_flatMap]
  exact ⟨(u, lsl), SortedMap.mem_entries.mpr hdb, List.mem_map_of_mem hl⟩

theorem mem_ends_of_via {s h v c : ℤ} (hv : Via (Up r) s h v c) : h ∈ ends r ∧ v ∈ ends r := by
  obtain ⟨b, d, hb', hd, -⟩ := hv
  refine ⟨mem_ends hb', ?_⟩
  rcases hd.eq_or_snoc with ⟨rfl, -⟩ | ⟨w, a, b, -, hw, -⟩
  · exact mem_ends hb'
  · exact mem_ends hw

theorem missing_lt {p p' : LsPaths} {v n c : ℤ} (hv : Via (Up r) r.myNodeId_ n v c)
    (hn : n ∉ hops p v)
    (hp : ∀ u, p'.find u = if u = v then some ⟨c, hops p v ++ [n]⟩ else p.find u) :
    missing r p' < missing r p := by
  have hops' : ∀ u, hops p' u = if u = v then hops p v ++ [n] else hops p u := fun u => by
    unfold hops
    rw [hp]
    split_ifs <;> rfl
  obtain ⟨h1, h2⟩ := mem_ends_of_via hv
  refine Finset.card_lt_card ((Finset.ssubset_iff_of_subset fun q hq => ?_).mpr ⟨(v, n), ?_, ?_⟩)
  · obtain ⟨hq, hnq⟩ := Finset.mem_filter.mp hq
    refine Finset.mem_filter.mpr ⟨hq, fun hh => hnq ?_⟩
    rw [hops']
    split_ifs with huv
    · exact List.mem_append_left _ (huv ▸ hh)
    · exact hh
  · exact Finset.mem_filter.mpr ⟨Finset.mem_product.mpr ⟨h2, h1⟩, hn⟩
  · simp [hops']

include hb in
theorem Inv.pop (hid : ∀ v c, Walk (Up r) r.myNodeId_ v c → v ≠ lsInvalidNodeId)
    {p t : LsPaths} {m o : ℤ} (h : Inv r m o [] p t) {fuel : ℕ} (hfuel : missing r p < fuel) :
    ∃ p' t', (pop r fuel p t = .returned (p', t', none) ∧ t'.entries = [] ∧
        ∃ m' o', Inv r m' o' [] p' t') ∨
      ∃ v lsl ep, pop r fuel p t = .returned (p', t', some (v, lsl)) ∧
        r.linkStateDatabase_.find v = some lsl ∧ Inv r ep.cost v lsl p' t' ∧ p'.find v = some ep ∧
        ep.nextHopList ≠ [] ∧ missing r p' < missing r p := by
  induction fuel generalizing p t m o with
  | zero => omega
  | succ fuel ih =>
    unfold LsRouting.pop
    by_cases hne : t.entries = []
    · exact ⟨p, t, .inl ⟨by rw [if_pos hne], hne, m, o, h⟩⟩
    · obtain ⟨t', sp, hpop, hvalid, hvia, hnot, hfind, hinv⟩ := h.popShortestPath hb hid hne
      have hless := missing_lt hvia hnot hfind
      rw [if_neg hne, hpop]
      simp only [hvalid, if_true]
      cases hdb : r.linkStateDatabase_.find sp.destination with
      | some lsl =>
        refine ⟨_, t', .inr ⟨sp.destination, lsl, ⟨sp.cost, _⟩, rfl, hdb, hinv lsl ?_,
          by rw [hfind, if_pos rfl], by simp, hless⟩⟩
        rintro x b ⟨lsl', hdb', l, hl, hup, hx, hc⟩
        rw [hdb] at hdb'
        exact ⟨l, Option.some.inj hdb' ▸ hl, hup, hx, hc⟩
      | none =>
        have hstop : Inv r sp.cost sp.destination [] (insertPath p sp) t' := by
          refine hinv [] ?_
          rintro x b ⟨lsl', hdb', -⟩
          simp [hdb] at hdb'
        obtain ⟨p', t'', hres⟩ := ih hstop (by omega)
        refine ⟨p', t'', hres.imp_right ?_⟩
        rintro ⟨v, lsl, ep, h1, h2, h3, h4, h5, h6⟩
        exact ⟨v, lsl, ep, h1, h2, h3, h4, h5, h6.trans hless⟩

include hb in
theorem Inv.loop (hid : ∀ v c, Walk (Up r) r.myNodeId_ v c → v ≠ lsInvalidNodeId)
    {p t : LsPaths} {m o : ℤ} {lsl : List LsLinkState} {ep : LsEqualPaths}
    (h : Inv r m o lsl p t) (hdb : r.linkStateDatabase_.find o = some lsl)
    (ho : p.find o = some ep) (hm : ep.cost = m) (hne : ep.nextHopList ≠ []) {fuel : ℕ}
    (hfuel : missing r p + 1 < fuel) :
    ∃ p', loop r fuel p t o lsl = .returned p' ∧
      ∃ t' m' o', t'.entries = [] ∧ Inv r m' o' [] p' t' := by
  induction fuel generalizing p t m o lsl ep with
  | zero => omega
  | succ fuel ih =>
    obtain ⟨t₁, hexp, h₁⟩ := h.expand hb hdb ho hm hne
    unfold LsRouting.loop
    rw [hexp]
    dsimp only
    obtain ⟨p', t', ⟨hpop, hend, m', o', h'⟩ | ⟨v, lsl', ep', hpop, hdb', h', hv, hne', hless⟩⟩ :=
      h₁.pop hb hid (show missing r p < fuel by omega)
    · rw [hpop]
      exact ⟨p', rfl, t', m', o', hend, h'⟩
    · rw [hpop]
      exact ih h' hdb' hv rfl hne' (by omega)

/-! ### The routes -/

/-- The paths are those of the claim: one for each node that is reachable, of the least cost, and
with each first hop of a shortest path once. -/
structure Routes (r : LsRouting) (p : LsPaths) : Prop where
  self_path : p.find r.myNodeId_ = some ⟨0, [r.myNodeId_]⟩
  reachable : ∀ v c, Walk (Up r) r.myNodeId_ v c → ∃ ep, p.find v = some ep
  shortest : ∀ v ep, p.find v = some ep → IsDist (Up r) r.myNodeId_ v ep.cost
  first_hops : ∀ v ep, p.find v = some ep → v ≠ r.myNodeId_ → ep.nextHopList.Nodup ∧
    ∀ h, h ∈ ep.nextHopList ↔ FirstHop (Up r) r.myNodeId_ v h

theorem find_of_entries_nil {t : LsPaths} (h : t.entries = []) (v : ℤ) : t.find v = none := by
  cases hv : t.find v with
  | none => rfl
  | some ep =>
    have := SortedMap.mem_entries.mpr hv
    simp [h] at this

include hb in
theorem Inv.routes {p t : LsPaths} {m o : ℤ} (h : Inv r m o [] p t) (ht : t.entries = []) :
    Routes r p := by
  have hnone := find_of_entries_nil ht
  have hreach : ∀ v c, Walk (Up r) r.myNodeId_ v c → ∃ ep, p.find v = some ep := fun v c hw => by
    cases hp : p.find v with
    | some ep => exact ⟨ep, rfl⟩
    | none =>
      obtain ⟨d, hd⟩ := hw.exists_isDist hb.pos
      have h1 := hb.path v d hd
      have h2 := h.frontier hb le_rfl (by simp [hnone]) hp hd.1
      omega
  -- a first hop arrives at a node from the nearer nodes before it
  have hfirst : ∀ (n : ℕ) v ep, p.find v = some ep → ep.cost = n → ∀ h',
      FirstHop (Up r) r.myNodeId_ v h' → h' ∈ ep.nextHopList := by
    intro n
    induction n using Nat.strong_induction_on with
    | _ n ih =>
      intro v ep hv hn h' hh'
      obtain ⟨u, a, b, ha, hb', hab, hcase⟩ := hh'.pred hb.pos
      obtain ⟨eu, hu⟩ := hreach u a ha.1
      have hau : eu.cost = a := (h.paths u eu hu).1.unique ha
      have hav : ep.cost = a + b := (h.paths v ep hv).1.unique hab
      have ha0 := ha.1.nonneg hb.pos
      have hbpos := hb.pos _ _ _ hb'
      have hmem : h' ∈ (if u = r.myNodeId_ then [v] else eu.nextHopList) := by
        rcases hcase with ⟨rfl, rfl⟩ | ⟨hus, hfu⟩
        · simp
        · rw [if_neg hus]
          exact ih a.toNat (by omega) u eu hu (by omega) h' hfu
      have hlt := hb.path v _ (h.paths v ep hv).1
      rcases h.relaxed u eu v b hu hb' (by simp) with hbig | ⟨c', hle, hlab, hhops⟩
      · omega
      · have hc' : c' = eu.cost + b := by
          have : ep.cost = c' := by simpa [label, hv] using hlab
          omega
        have := hhops hc' h' hmem
        rwa [hops_some hv, hops_none (hnone v), or_iff_left (by simp)] at this
  refine ⟨h.self_path, hreach, fun v ep hv => (h.paths v ep hv).1, fun v ep hv hvs => ?_⟩
  obtain ⟨hdist, -, hrest⟩ := h.paths v ep hv
  obtain ⟨hnd, hvia⟩ := hrest hvs
  refine ⟨hnd, fun h' => ⟨fun hh => ⟨_, hdist, hvia h' hh⟩, fun hh => ?_⟩⟩
  have := hdist.1.nonneg hb.pos
  exact hfirst ep.cost.toNat v ep hv (by omega) h' hh

end runs

theorem inv_start {r : LsRouting} (hb : Bounded r) (todo : List LsLinkState)
    (htodo : ∀ x b, Up r r.myNodeId_ x b →
      ∃ l ∈ todo, l.status_ = .up ∧ l.neighborId_ = x ∧ l.cost_ = b) :
    Inv r 0 r.myNodeId_ todo
      (insertPathNoChecking .empty ⟨r.myNodeId_, 0, r.myNodeId_⟩) .empty := by
  have hfind : ∀ v, (insertPathNoChecking .empty ⟨r.myNodeId_, 0, r.myNodeId_⟩).find v =
      if v = r.myNodeId_ then some ⟨0, [r.myNodeId_]⟩ else none := fun v => by
    simp [insertPathNoChecking, SortedMap.find_set]
  generalize insertPathNoChecking .empty ⟨r.myNodeId_, 0, r.myNodeId_⟩ = p at hfind
  refine ⟨by rw [hfind, if_pos rfl], fun v ep hv => ?_, by simp, by simp,
    fun u ep x b hu hux hdone => ?_⟩
  · rw [hfind] at hv
    split_ifs at hv with hvs
    · obtain rfl := Option.some.inj hv
      subst hvs
      exact ⟨isDist_self hb.pos _, le_rfl, fun hh => absurd rfl hh⟩
  · rw [hfind] at hu
    split_ifs at hu with hus
    · subst hus
      obtain ⟨l, hl, hup, hx, hc⟩ := htodo x b hux
      exact absurd hc (hdone rfl l hl hup hx)

/-- The computation terminates with the shortest paths and all their first hops, where no node
that is reachable has the invalid node id. -/
theorem computeRoutes_routes {r : LsRouting} (hb : Bounded r)
    (hid : ∀ v c, Walk (Up r) r.myNodeId_ v c → v ≠ lsInvalidNodeId) :
    ∃ n, ∀ fuel ≥ n, ∃ p, computeRoutes r fuel = .returned p ∧ Routes r p := by
  unfold computeRoutes
  dsimp only
  cases hdb : r.linkStateDatabase_.find r.myNodeId_ with
  | none =>
    refine ⟨0, fun _ _ => ⟨_, rfl, Inv.routes hb (inv_start hb [] ?_) rfl⟩⟩
    rintro x b ⟨lsl, hdb', -⟩
    simp [hdb] at hdb'
  | some lsl =>
    have hstart := inv_start hb lsl (by
      rintro x b ⟨lsl', hdb', l, hl, hup, hx, hc⟩
      rw [hdb] at hdb'
      exact ⟨l, Option.some.inj hdb' ▸ hl, hup, hx, hc⟩)
    generalize insertPathNoChecking .empty ⟨r.myNodeId_, 0, r.myNodeId_⟩ = p at hstart
    refine ⟨missing r p + 2, fun fuel hfuel => ?_⟩
    obtain ⟨p', hloop, t', m', o', hend, h'⟩ :=
      hstart.loop hb hid hdb hstart.self_path rfl (by simp) (show missing r p + 1 < fuel by omega)
    exact ⟨p', hloop, h'.routes hb hend⟩

/-- Node 1 with one link. -/
def oneLink (neighborId : ℤ) : LsRouting where
  myNodeId_ := 1
  linkStateDatabase_ := SortedMap.empty.set 1 [⟨neighborId, .up, 1, 0⟩]

theorem up_oneLink {n u v c : ℤ} : Up (oneLink n) u v c ↔ u = 1 ∧ v = n ∧ c = 1 := by
  simp only [Up, oneLink, SortedMap.find_set, SortedMap.find_empty]
  constructor
  · rintro ⟨lsl, hdb, l, hl, -, rfl, rfl⟩
    split_ifs at hdb with hu
    · rw [← Option.some.inj hdb, List.mem_singleton] at hl
      exact ⟨hu, by rw [hl], by rw [hl]⟩
  · rintro ⟨rfl, rfl, rfl⟩
    exact ⟨_, by simp; rfl, _, List.mem_singleton.mpr rfl, rfl, rfl, rfl⟩

theorem walk_oneLink {n v c : ℤ} (hn : n ≠ 1) (h : Walk (Up (oneLink n)) 1 v c) :
    (v = 1 ∧ c = 0) ∨ (v = n ∧ c = 1) := by
  cases h with
  | nil => exact .inl ⟨rfl, rfl⟩
  | cons h t =>
    obtain ⟨-, rfl, rfl⟩ := up_oneLink.mp h
    cases t with
    | nil => exact .inr ⟨rfl, rfl⟩
    | cons h t => exact absurd (up_oneLink.mp h).1 hn

theorem bounded_oneLink {n : ℤ} (hn : n ≠ 1) : Bounded (oneLink n) where
  cost u v c h := by
    obtain ⟨-, -, rfl⟩ := up_oneLink.mp h
    decide
  path v c h := by
    rcases walk_oneLink hn h.1 with ⟨-, rfl⟩ | ⟨-, rfl⟩ <;> decide

theorem oneLink_routes : ∃ n, ∀ fuel ≥ n, ∃ p, computeRoutes (oneLink 2) fuel = .returned p ∧
    Routes (oneLink 2) p :=
  computeRoutes_routes (bounded_oneLink (by decide)) fun v c h => by
    rcases walk_oneLink (by decide) h with ⟨rfl, -⟩ | ⟨rfl, -⟩ <;> decide

/-- A link to the invalid node id: the path that is popped counts as invalid, and the computation
aborts. -/
theorem computeRoutes_aborts : ¬ ∀ r, Bounded r →
    ∃ n, ∀ fuel ≥ n, ∃ p, computeRoutes r fuel = .returned p ∧ Routes r p := fun hall => by
  obtain ⟨n, hn⟩ := hall (oneLink lsInvalidNodeId) (bounded_oneLink (by decide))
  obtain ⟨p, hp, -⟩ := hn (n + 2) (by omega)
  have habort : computeRoutes (oneLink lsInvalidNodeId) (n + 2) = .aborted := rfl
  rw [habort] at hp
  cases hp

end LsRouting

end Ns2
