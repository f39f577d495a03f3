import Ns2.Linkstate.ComputeRoutes

/-! Whether the computation of the routes ends: link costs may be zero, and a path may cost as much
as the invalid cost. -/

namespace Ns2.LsRouting

open LsPaths ShortestPath Relation

/-- `LS_MIN_COST` -/
def lsMinCost : ℤ := 0

/-- The costs of the links that are up lie in the range of the code. -/
def InRange (r : LsRouting) : Prop := ∀ u v c, Up r u v c → lsMinCost ≤ c ∧ c ≤ lsMaxCost

/-- A link that costs nothing. -/
def Free (r : LsRouting) (u v : ℤ) : Prop := Up r u v 0

/-- Of the nodes that are not too far, none but one's own has the invalid id and none lies on a free
cycle; and no node is as far as the invalid cost. -/
structure Clear (r : LsRouting) : Prop where
  node : ∀ v c, Walk (Up r) r.myNodeId_ v c → c ≤ lsMaxCost → v ≠ r.myNodeId_ → v ≠ lsInvalidNodeId
  cost : ∀ v, ¬ IsDist (Up r) r.myNodeId_ v (lsMaxCost + 1)
  cycle : ∀ v c, Walk (Up r) r.myNodeId_ v c → c ≤ lsMaxCost → ¬ TransGen (Free r) v v

/-- A next hop: a neighbour, one's own node only for nothing. -/
def Hop (r : LsRouting) (h : ℤ) : Prop := ∃ b, Up r r.myNodeId_ h b ∧ (h = r.myNodeId_ → b = 0)

/-- The paths are of least cost, up to the cost `m`, and the tentative paths cost at least `m`;
every link behind a path is known, except for those to do at the node `o`. -/
structure Front (r : LsRouting) (m o : ℤ) (todo : List LsLinkState) (p t : LsPaths) : Prop where
  self_path : ∃ ep, p.find r.myNodeId_ = some ep ∧ ep.cost = 0
  paths : ∀ v ep, p.find v = some ep → IsDist (Up r) r.myNodeId_ v ep.cost ∧ ep.cost ≤ m ∧
    ep.cost ≤ lsMaxCost ∧ ep.nextHopList ≠ [] ∧ (v ≠ r.myNodeId_ → v ≠ lsInvalidNodeId ∧
      ∀ h ∈ ep.nextHopList, Hop r h)
  tentative : ∀ v ep, t.find v = some ep → m ≤ ep.cost ∧ ep.cost ≤ lsMaxCost + 1 ∧
    ep.nextHopList ≠ [] ∧ (∀ h ∈ ep.nextHopList, Hop r h) ∧
      ∃ u a b, Walk (Up r) r.myNodeId_ u a ∧ Up r u v b ∧ ep.cost = a + b
  both : ∀ v ep ep', p.find v = some ep → t.find v = some ep' → ep'.cost = ep.cost
  relaxed : ∀ u ep x b, p.find u = some ep → Up r u x b →
    (u = o → ∀ l ∈ todo, l.status_ = .up → l.neighborId_ = x → l.cost_ ≠ b) →
    lsMaxCost + 1 < ep.cost + b ∨ ∃ c ≤ ep.cost + b, label p t x = some c

section runs

variable {r : LsRouting} {p t : LsPaths} {m o : ℤ} {todo : List LsLinkState}

theorem InRange.nonneg (hc : InRange r) (u v c : ℤ) (h : Up r u v c) : 0 ≤ c := (hc u v c h).1

/-! ### One node's links -/

theorem Front.path_cost (h : Front r m o todo p t) (hc : InRange r) {ep : LsEqualPaths}
    (ho : p.find o = some ep) {x b : ℤ} (hl : Up r o x b) :
    addInt b (lookupCost p o) = ep.cost + b := by
  obtain ⟨hd, -, hmax, -⟩ := h.paths o ep ho
  have h2 := hd.1.zero_le hc.nonneg
  have h3 := hc _ _ _ hl
  have hlookup : lookupCost p o = ep.cost := by simp [lookupCost, ho]
  rw [addInt, hlookup, Int.bmod_eq_of_le] <;> unfold lsMaxCost lsMinCost at * <;> omega

/-- A link that is done. -/
theorem Front.done {l : LsLinkState} (h : Front r m o (l :: todo) p t)
    (hknown : ∀ ep, p.find o = some ep → Up r o l.neighborId_ l.cost_ → l.status_ = .up →
      lsMaxCost + 1 < ep.cost + l.cost_ ∨
        ∃ c ≤ ep.cost + l.cost_, label p t l.neighborId_ = some c) : Front r m o todo p t := by
  refine ⟨h.self_path, h.paths, h.tentative, h.both, fun u ep x b hu hux hdone => ?_⟩
  by_cases hthis : u = o ∧ l.status_ = .up ∧ l.neighborId_ = x ∧ l.cost_ = b
  · obtain ⟨rfl, hup, rfl, rfl⟩ := hthis
    exact hknown ep hu hux hup
  · refine h.relaxed u ep x b hu hux fun huo l' hl' hup' hx hb => ?_
    rcases List.mem_cons.mp hl' with rfl | hl'
    · exact hthis ⟨huo, hup', hx, hb⟩
    · exact hdone huo l' hl' hup' hx hb

/-- A path is put among the tentative ones. -/
theorem Front.inserted (h : Front r m o todo p t) {x a b : ℤ} {hs : LsNodeIdList} (hm : m ≤ a + b)
    (hle : a + b ≤ lookupCost p x) (hw : Walk (Up r) r.myNodeId_ o a) (hl : Up r o x b)
    (hne : hs ≠ []) (hhops : ∀ h' ∈ hs, Hop r h') :
    Front r m o todo p (insertNextHopList t x (a + b) hs) ∧
      ∃ c ≤ a + b, label p (insertNextHopList t x (a + b) hs) x = some c := by
  obtain ⟨new, hmerge, hfind⟩ := insertNextHopList_spec t x (a + b) hs
  generalize insertNextHopList t x (a + b) hs = t' at hfind
  have hmax : a + b ≤ lsMaxCost + 1 := by
    unfold lookupCost at hle
    cases hx : p.find x with
    | none => rwa [hx] at hle
    | some ep =>
      rw [hx] at hle
      have := (h.paths x ep hx).2.2.1
      dsimp only at hle
      omega
  have hlabel : ∃ c ≤ a + b, label p t' x = some c := by
    cases hx : p.find x with
    | none => exact ⟨new.cost, hmerge.le, by simp [label, hx, hfind]⟩
    | some ep =>
      refine ⟨ep.cost, ?_, by simp [label, hx]⟩
      exact (h.paths x ep hx).2.1.trans hm
  refine ⟨⟨h.self_path, h.paths, fun v ep hv => ?_, fun v ep ep' hv hv' => ?_,
    fun u ep y d hu huy hdone => ?_⟩, hlabel⟩
  · rw [hfind] at hv
    split_ifs at hv with hvx
    · obtain rfl := Option.some.inj hv
      subst hvx
      refine ⟨?_, hmerge.le.trans hmax, ?_, fun h' hh' => ?_, ?_⟩
      · rcases hmerge.cases with hcost | hold
        · omega
        · exact (h.tentative _ _ hold).1
      · rcases hmerge.cases with hcost | hold
        · obtain ⟨h', hh'⟩ := List.exists_mem_of_ne_nil _ hne
          exact List.ne_nil_of_mem ((hmerge.mem h').mpr (.inl ⟨hcost, hh'⟩))
        · exact (h.tentative _ _ hold).2.2.1
      · rcases (hmerge.mem h').mp hh' with ⟨-, hh'⟩ | ⟨old, hold, -, hh'⟩
        · exact hhops h' hh'
        · exact (h.tentative _ _ hold).2.2.2.1 h' hh'
      · rcases hmerge.cases with hcost | hold
        · exact ⟨o, a, b, hw, hl, hcost⟩
        · exact (h.tentative _ _ hold).2.2.2.2
    · exact h.tentative v ep hv
  · rw [hfind] at hv'
    split_ifs at hv' with hvx
    · obtain rfl := Option.some.inj hv'
      subst hvx
      rcases hmerge.cases with hcost | hold
      · have := (h.paths v ep hv).2.1
        simp only [lookupCost, hv] at hle
        omega
      · exact h.both v ep new hv hold
    · exact h.both v ep ep' hv hv'
  · rcases h.relaxed u ep y d hu huy hdone with hbig | ⟨c, hc, hlab⟩
    · exact .inl hbig
    · right
      by_cases hy : y = x
      · subst hy
        cases hp : p.find y with
        | some ey => exact ⟨c, hc, by simpa [label, hp] using hlab⟩
        | none =>
          simp only [label, hp, Option.none_or, Option.map_eq_some_iff] at hlab
          obtain ⟨old, hold, rfl⟩ := hlab
          exact ⟨new.cost, (hmerge.le_old old hold).trans hc, by simp [label, hp, hfind]⟩
      · exact ⟨c, hc, by simpa [label, hfind, hy] using hlab⟩

/-- What a link does: nothing, or a path over it is put among the tentative ones. -/
theorem Front.link_cases {l : LsLinkState} {ep : LsEqualPaths} {nhl : LsNodeIdList}
    (h : Front r m o (l :: todo) p t) (hc : InRange r) (ho : p.find o = some ep)
    (hnhl : o ≠ r.myNodeId_ → nhl = ep.nextHopList)
    (hl : l.status_ = .up → Up r o l.neighborId_ l.cost_) :
    ¬ (l.status_ = .up ∧ ep.cost + l.cost_ ≤ lookupCost p l.neighborId_) ∧
        link r p o nhl t l = t ∨
      (l.status_ = .up ∧ ep.cost + l.cost_ ≤ lookupCost p l.neighborId_) ∧
        ∃ hs, hs ≠ [] ∧ (∀ h' ∈ hs, Hop r h') ∧
          link r p o nhl t l = insertNextHopList t l.neighborId_ (ep.cost + l.cost_) hs := by
  by_cases hup : l.status_ = .up
  · have hlink := hl hup
    have hstep : link r p o nhl t l =
        if lookupCost p l.neighborId_ < ep.cost + l.cost_ then t
        else insertNextHopList t l.neighborId_ (ep.cost + l.cost_)
          (if o = r.myNodeId_ then [l.neighborId_] else nhl) := by
      rw [LsRouting.link, if_neg (by simp [hup]), h.path_cost hc ho hlink]
    by_cases hskip : lookupCost p l.neighborId_ < ep.cost + l.cost_
    · rw [hstep, if_pos hskip]
      exact .inl ⟨fun hh => absurd hh.2 (not_le.mpr hskip), rfl⟩
    · rw [hstep, if_neg hskip]
      refine .inr ⟨⟨hup, not_lt.mp hskip⟩, _, ?_, ?_, rfl⟩
      · split_ifs with hself
        · simp
        · rw [hnhl hself]
          exact (h.paths o ep ho).2.2.2.1
      · split_ifs with hself
        · intro h' hh'
          obtain rfl := List.mem_singleton.mp hh'
          refine ⟨l.cost_, hself ▸ hlink, fun hown => ?_⟩
          obtain ⟨es, hes, hzero⟩ := h.self_path
          obtain rfl := Option.some.inj (ho.symm.trans (hself ▸ hes))
          have hpos := hc.nonneg _ _ _ hlink
          simp only [hown, lookupCost, hes, hzero] at hskip
          omega
        · rw [hnhl hself]
          exact ((h.paths o ep ho).2.2.2.2 hself).2
  · exact .inl ⟨fun hh => hup hh.1, by rw [LsRouting.link, if_pos hup]⟩

theorem Front.link {l : LsLinkState} {ep : LsEqualPaths} {nhl : LsNodeIdList}
    (h : Front r m o (l :: todo) p t) (hc : InRange r) (ho : p.find o = some ep) (hm : ep.cost = m)
    (hnhl : o ≠ r.myNodeId_ → nhl = ep.nextHopList)
    (hl : l.status_ = .up → Up r o l.neighborId_ l.cost_) :
    Front r m o todo p (link r p o nhl t l) := by
  rcases h.link_cases hc ho hnhl hl with ⟨hnot, he⟩ | ⟨⟨hup, hle⟩, hs, hne, hhops, he⟩
  · rw [he]
    refine h.done fun ep' ho' hlink hup => ?_
    obtain rfl := Option.some.inj (ho.symm.trans ho')
    have hskip := not_le.mp fun hle => hnot ⟨hup, hle⟩
    unfold lookupCost at hskip
    cases hx : p.find l.neighborId_ with
    | none =>
      rw [hx] at hskip
      exact .inl hskip
    | some ex =>
      rw [hx] at hskip
      exact .inr ⟨ex.cost, hskip.le, by simp [label, hx]⟩
  · rw [he]
    have hlink := hl hup
    have hpos := hc.nonneg _ _ _ hlink
    obtain ⟨hins, hlab⟩ := h.inserted (by omega) hle (h.paths o ep ho).1.1 hlink hne hhops
    refine hins.done fun ep' ho' _ _ => ?_
    obtain rfl := Option.some.inj (ho.symm.trans ho')
    exact .inr hlab

theorem Front.foldl_link {ep : LsEqualPaths} {nhl : LsNodeIdList} (h : Front r m o todo p t)
    (hc : InRange r) (ho : p.find o = some ep) (hm : ep.cost = m)
    (hnhl : o ≠ r.myNodeId_ → nhl = ep.nextHopList)
    (hl : ∀ l ∈ todo, l.status_ = .up → Up r o l.neighborId_ l.cost_) :
    Front r m o [] p (todo.foldl (LsRouting.link r p o nhl) t) := by
  induction todo generalizing t with
  | nil => exact h
  | cons l todo ih =>
    exact ih (h.link hc ho hm hnhl (hl l List.mem_cons_self))
      fun l' hl' => hl l' (List.mem_cons_of_mem _ hl')

/-- The tentative paths after step 2. -/
theorem expand_eq {ep : LsEqualPaths} (ho : p.find o = some ep) (lsl : List LsLinkState) :
    ∃ nhl, (o ≠ r.myNodeId_ → nhl = ep.nextHopList) ∧
      expand r p t o lsl = some (lsl.foldl (LsRouting.link r p o nhl) t) := by
  unfold LsRouting.expand
  by_cases hos : o = r.myNodeId_
  · exact ⟨[], fun hh => absurd hos hh, by rw [if_neg (not_not.mpr hos)]⟩
  · exact ⟨ep.nextHopList, fun _ => rfl, by rw [if_pos hos, lookupNextHopListPtr, ho]; rfl⟩

/-! ### A pop -/

theorem Front.frontier (h : Front r m o [] p t) (hc : InRange r) {k v c : ℤ}
    (hk : k ≤ lsMaxCost + 1) (hmin : ∀ v ep, t.find v = some ep → k ≤ ep.cost)
    (hv : p.find v = none) (hw : Walk (Up r) r.myNodeId_ v c) : k ≤ c := by
  obtain ⟨es, hes, -⟩ := h.self_path
  refine frontier_min (S := {u | p.find u ≠ none}) hc.nonneg (by simp [hes]) (fun u hu => ?_)
    (by simpa using hv) hw
  obtain ⟨ep, hep⟩ := Option.ne_none_iff_exists'.mp hu
  refine ⟨ep.cost, (h.paths u ep hep).1, fun x hx b hb => ?_⟩
  have hx' : p.find x = none := by simpa using hx
  rcases h.relaxed u ep x b hep hb (by simp) with hbig | ⟨c', hle, hlab⟩
  · omega
  · simp only [label, hx', Option.none_or, Option.map_eq_some_iff] at hlab
    obtain ⟨ex, hex, rfl⟩ := hlab
    exact (hmin x ex hex).trans hle

/-- The least tentative path is shortest. -/
theorem Front.least (h : Front r m o [] p t) (hc : InRange r) {v : ℤ} {ep : LsEqualPaths}
    (hv : t.find v = some ep) (hmin : ∀ v' ep', t.find v' = some ep' → ep.cost ≤ ep'.cost) :
    IsDist (Up r) r.myNodeId_ v ep.cost := by
  obtain ⟨-, hmax, -, -, u, a, b, hw, hl, hcost⟩ := h.tentative v ep hv
  cases hp : p.find v with
  | none => exact ⟨hcost ▸ hw.snoc hl, fun c hwc => h.frontier hc hmax hmin hp hwc⟩
  | some ep' =>
    rw [h.both v ep' ep hp hv]
    exact (h.paths v ep' hp).1

/-- The tentative paths without the first next hop to `v`. -/
def popped (t : LsPaths) (v : ℤ) (ep : LsEqualPaths) (rest : LsNodeIdList) : LsPaths :=
  if rest = [] then t.erase v else t.set v ⟨ep.cost, rest⟩

theorem popped_find (t : LsPaths) (v : ℤ) (ep : LsEqualPaths) (rest : LsNodeIdList) (u : ℤ) :
    (popped t v ep rest).find u =
      if u = v then (if rest = [] then none else some ⟨ep.cost, rest⟩) else t.find u := by
  rw [popped]
  by_cases hrest : rest = []
  · rw [if_pos hrest, if_pos hrest, SortedMap.find_erase]
  · rw [if_neg hrest, if_neg hrest, SortedMap.find_set]

/-- A pop fails exactly where the least cost is the invalid one. -/
theorem Front.pops (h : Front r m o [] p t) (hc : InRange r) (hne : t.entries ≠ []) :
    (popShortestPath t = (t, none) ∧ ∃ v, IsDist (Up r) r.myNodeId_ v (lsMaxCost + 1)) ∨
      ∃ v ep n rest, t.find v = some ep ∧ ep.nextHopList = n :: rest ∧ ep.cost ≤ lsMaxCost ∧
        (∀ v' ep', t.find v' = some ep' → ep.cost ≤ ep'.cost) ∧
        popShortestPath t = (popped t v ep rest, some ⟨v, ep.cost, n⟩) := by
  have hspec := findMinEqualPaths_spec (t := t) fun v ep hv => (h.tentative v ep hv).2.2.1
  cases hf : findMinEqualPaths t with
  | none =>
    rw [hf] at hspec
    obtain ⟨⟨v, ep⟩, hmem⟩ := List.exists_mem_of_ne_nil _ hne
    have hv := SortedMap.mem_entries.mp hmem
    have hcost : ep.cost = lsMaxCost + 1 := le_antisymm (h.tentative v ep hv).2.1 (hspec v ep hv)
    have hdist := h.least hc hv fun v' ep' hv' => hcost ▸ hspec v' ep' hv'
    exact .inl ⟨by simp only [popShortestPath, hf], v, hcost ▸ hdist⟩
  | some q =>
    obtain ⟨v, ep⟩ := q
    rw [hf] at hspec
    obtain ⟨hv, hlt, hmin⟩ := hspec
    obtain ⟨n, rest, hrest⟩ := List.exists_cons_of_ne_nil (h.tentative v ep hv).2.2.1
    refine .inr ⟨v, ep, n, rest, hv, hrest, by omega, hmin, ?_⟩
    simp only [popShortestPath, hf, hrest, popped]

theorem Front.insertPath_find (h : Front r m o [] p t) {v : ℤ} {ep : LsEqualPaths}
    (hv : t.find v = some ep) (n : ℤ) :
    ∃ hs, hs ≠ [] ∧ (∀ h' ∈ hs, h' = n ∨ h' ∈ hops p v) ∧
      ∀ u, (insertPath p ⟨v, ep.cost, n⟩).find u =
        if u = v then some ⟨ep.cost, hs⟩ else p.find u := by
  unfold insertPath
  cases hp : p.find v with
  | none =>
    refine ⟨[n], by simp, by simp, fun u => ?_⟩
    simp only [insertPathNoChecking, hp]
    exact SortedMap.find_set p v u _
  | some ep' =>
    have hcost := h.both v ep' ep hp hv
    simp only [hcost, lt_irrefl, if_false]
    split_ifs with hn
    · refine ⟨ep'.nextHopList, List.ne_nil_of_mem hn, fun h' hh' => .inr ?_, fun u => ?_⟩
      · rwa [hops_some hp]
      · split_ifs with hu
        · rw [hu, hp]
        · rfl
    · refine ⟨ep'.nextHopList ++ [n], by simp, fun h' hh' => ?_,
        fun u => SortedMap.find_set _ _ _ _⟩
      rw [hops_some hp]
      rcases List.mem_append.mp hh' with hh' | hh'
      · exact .inr hh'
      · exact .inl (List.mem_singleton.mp hh')

/-- The popped path is installed, and only the links behind its node are to do. -/
theorem Front.install (h : Front r m o [] p t) (hc : InRange r) {v n : ℤ} {ep : LsEqualPaths}
    {rest : LsNodeIdList} (hv : t.find v = some ep) (hrest : ep.nextHopList = n :: rest)
    (hmax : ep.cost ≤ lsMaxCost) (hmin : ∀ v' ep', t.find v' = some ep' → ep.cost ≤ ep'.cost)
    (hid : v ≠ r.myNodeId_ → v ≠ lsInvalidNodeId) (todo : List LsLinkState)
    (htodo : ∀ x b, Up r v x b →
      ∃ l ∈ todo, l.status_ = .up ∧ l.neighborId_ = x ∧ l.cost_ = b) :
    Front r ep.cost v todo (insertPath p ⟨v, ep.cost, n⟩) (popped t v ep rest) ∧
      ∃ ep', (insertPath p ⟨v, ep.cost, n⟩).find v = some ep' ∧ ep'.cost = ep.cost := by
  obtain ⟨hmc, -, -, hhops, hwalk⟩ := h.tentative v ep hv
  obtain ⟨hs, hne, hmem, hfind⟩ := h.insertPath_find hv n
  have hboth : ∀ ep', p.find v = some ep' → ep'.cost = ep.cost :=
    fun ep' hp => (h.both v ep' ep hp hv).symm
  have hdist := h.least hc hv hmin
  generalize insertPath p ⟨v, ep.cost, n⟩ = p' at hfind
  refine ⟨⟨?_, fun u eu hu => ?_, fun u eu hu => ?_, fun u eu eu' hu hu' => ?_,
    fun u eu x b hu hux hdone => ?_⟩, ⟨ep.cost, hs⟩, by rw [hfind, if_pos rfl], rfl⟩
  · obtain ⟨es, hes, hzero⟩ := h.self_path
    rw [hfind]
    split_ifs with hself
    · exact ⟨_, rfl, (hboth es (hself ▸ hes)).symm.trans hzero⟩
    · exact ⟨es, hes, hzero⟩
  · rw [hfind] at hu
    split_ifs at hu with huv
    · obtain rfl := Option.some.inj hu
      subst huv
      refine ⟨hdist, le_rfl, hmax, hne, fun hself => ⟨hid hself, fun h' hh' => ?_⟩⟩
      rcases hmem h' hh' with rfl | hold
      · exact hhops h' (by rw [hrest]; exact List.mem_cons_self)
      · cases hp : p.find u with
        | none =>
          rw [hops_none hp] at hold
          cases hold
        | some ep' =>
          rw [hops_some hp] at hold
          exact ((h.paths u ep' hp).2.2.2.2 hself).2 h' hold
    · obtain ⟨h1, h2, h3⟩ := h.paths u eu hu
      exact ⟨h1, h2.trans hmc, h3⟩
  · rw [popped_find] at hu
    split_ifs at hu with huv hnil
    · obtain rfl := Option.some.inj hu
      subst huv
      have hle : ep.cost ≤ lsMaxCost + 1 := by omega
      refine ⟨le_rfl, hle, hnil, fun h' hh' => hhops h' ?_, hwalk⟩
      rw [hrest]
      exact List.mem_cons_of_mem n hh'
    · obtain ⟨-, h2, h3⟩ := h.tentative u eu hu
      exact ⟨hmin u eu hu, h2, h3⟩
  · rw [hfind] at hu
    rw [popped_find] at hu'
    split_ifs at hu hu' with huv hnil
    · obtain rfl := Option.some.inj hu
      obtain rfl := Option.some.inj hu'
      rfl
    · exact h.both u eu eu' hu hu'
  · rw [hfind] at hu
    split_ifs at hu with huv
    · subst huv
      obtain ⟨l, hl, hup, hx, hb⟩ := htodo x b hux
      exact absurd hb (hdone rfl l hl hup hx)
    · rcases h.relaxed u eu x b hu hux (by simp) with hbig | ⟨c, hle, hlab⟩
      · exact .inl hbig
      · refine .inr ⟨c, hle, ?_⟩
        by_cases hx : x = v
        · subst hx
          rw [label, hfind, if_pos rfl, Option.some_or, Option.map_some]
          cases hp : p.find x with
          | none =>
            rw [label, hp, Option.none_or, hv, Option.map_some] at hlab
            exact hlab
          | some ep' =>
            rw [label, hp, Option.some_or, Option.map_some, hboth ep' hp] at hlab
            exact hlab
        · rw [label, hfind, if_neg hx, popped_find, if_neg hx]
          exact hlab

/-! ### Termination -/

open Classical in
/-- The nodes that can be reached for nothing. -/
noncomputable def reach (r : LsRouting) (v : ℤ) : Finset ℤ :=
  (insert r.myNodeId_ (ends r)).filter fun w => ReflTransGen (Free r) v w

theorem mem_reach {v w : ℤ} :
    w ∈ reach r v ↔ w ∈ insert r.myNodeId_ (ends r) ∧ ReflTransGen (Free r) v w := by
  simp only [reach, Finset.mem_filter]

/-- A path is the lower, the more it costs, and for one cost the fewer nodes can be reached from its
end for nothing. -/
noncomputable def rank (r : LsRouting) (v c : ℤ) : ℕ ×ₗ ℕ :=
  toLex ((lsMaxCost + 1 - c).toNat, (reach r v).card)

theorem reach_card_lt {u v : ℤ} (hu : u ∈ insert r.myNodeId_ (ends r)) (hfree : Free r u v)
    (hcycle : ¬ TransGen (Free r) u u) : (reach r v).card < (reach r u).card := by
  refine Finset.card_lt_card ((Finset.ssubset_iff_of_subset fun w hw => ?_).mpr ⟨u, ?_, ?_⟩)
  · obtain ⟨hw, hvw⟩ := mem_reach.mp hw
    exact mem_reach.mpr ⟨hw, hvw.head hfree⟩
  · exact mem_reach.mpr ⟨hu, .refl⟩
  · intro hvu
    exact hcycle (TransGen.head' hfree (mem_reach.mp hvu).2)

theorem rank_lt {u v a b : ℤ} (hu : u ∈ insert r.myNodeId_ (ends r)) (ha : a ≤ lsMaxCost)
    (hl : Up r u v b) (hb : 0 ≤ b) (hcycle : ¬ TransGen (Free r) u u) :
    rank r v (a + b) < rank r u a := by
  rw [rank, rank, Prod.Lex.toLex_lt_toLex]
  rcases hb.eq_or_lt with rfl | hpos
  · rw [add_zero]
    exact .inr ⟨rfl, reach_card_lt hu hl hcycle⟩
  · left
    dsimp only
    omega

/-- The ranks of the tentative paths, one for each next hop. -/
noncomputable def tokens (r : LsRouting) (t : LsPaths) : Multiset (ℕ ×ₗ ℕ) :=
  (t.entries.map fun e => Multiset.replicate e.2.nextHopList.length (rank r e.1 e.2.cost)).sum

theorem tokens_set (t : LsPaths) (x : ℤ) (ep : LsEqualPaths) : tokens r (t.set x ep) =
    Multiset.replicate ep.nextHopList.length (rank r x ep.cost) + tokens r (t.erase x) := by
  rw [tokens, ((SortedMap.entries_set t x ep).map _).sum_eq, List.map_cons, List.sum_cons]
  rfl

theorem tokens_find {x : ℤ} {ep : LsEqualPaths} (h : t.find x = some ep) : tokens r t =
    Multiset.replicate ep.nextHopList.length (rank r x ep.cost) + tokens r (t.erase x) := by
  rw [tokens, ((SortedMap.entries_perm h).map _).sum_eq, List.map_cons, List.sum_cons]
  rfl

theorem tokens_popped {v n : ℤ} {ep : LsEqualPaths} {rest : LsNodeIdList} (hv : t.find v = some ep)
    (hrest : ep.nextHopList = n :: rest) :
    tokens r t = rank r v ep.cost ::ₘ tokens r (popped t v ep rest) := by
  rw [tokens_find hv, hrest, List.length_cons, Multiset.replicate_succ, Multiset.cons_add, popped]
  split_ifs with hnil
  · rw [hnil, List.length_nil, Multiset.replicate_zero, zero_add]
  · rw [tokens_set]

/-- There are no more tokens than before, except for those below `z`. -/
def Lower (z : ℕ ×ₗ ℕ) (M N : Multiset (ℕ ×ₗ ℕ)) : Prop := ∀ a, ¬ a < z → M.count a ≤ N.count a

theorem Lower.lt {z : ℕ ×ₗ ℕ} {M N : Multiset (ℕ ×ₗ ℕ)} (h : Lower z M N) :
    Multiset.IsDershowitzMannaLT M (z ::ₘ N) := by
  have hz : M.count z < (z ::ₘ N).count z := by
    have := h z (lt_irrefl z)
    rw [Multiset.count_cons_self]
    omega
  have hmem : z ∈ (z ::ₘ N) - M := Multiset.mem_sub.mpr hz
  refine ⟨M ∩ (z ::ₘ N), M - (z ::ₘ N), (z ::ₘ N) - M, ?_, ?_, ?_, ?_⟩
  · intro hnil
    rw [hnil] at hmem
    exact Multiset.notMem_zero z hmem
  · ext a
    rw [Multiset.count_add, Multiset.count_inter, Multiset.count_sub]
    omega
  · ext a
    rw [Multiset.count_add, Multiset.count_inter, Multiset.count_sub]
    omega
  · intro y hy
    refine ⟨z, hmem, by_contra fun hyz => ?_⟩
    have h1 := Multiset.mem_sub.mp hy
    have h2 := h y hyz
    have h3 := Multiset.count_le_count_cons y z N
    omega

theorem insert_lower {x c : ℤ} {hs : LsNodeIdList} {z : ℕ ×ₗ ℕ} (hz : rank r x c < z) :
    Lower z (tokens r (insertNextHopList t x c hs)) (tokens r t) := by
  have hset : ∀ hs' : LsNodeIdList, Lower z (tokens r (t.set x ⟨c, hs'⟩)) (tokens r t) := by
    intro hs' a ha
    have hne : rank r x c ≠ a := fun he => ha (he ▸ hz)
    rw [tokens_set, Multiset.count_add, Multiset.count_replicate, if_neg hne, zero_add]
    cases hx : t.find x with
    | none => rw [tokens, SortedMap.erase_of_find_none hx, tokens]
    | some ep =>
      rw [tokens_find hx, Multiset.count_add]
      omega
  unfold insertNextHopList
  split
  · exact hset hs
  · split_ifs with hlt hgt
    · exact fun a _ => le_rfl
    · exact hset hs
    · next ep _ =>
      have hcost : ep.cost = c := le_antisymm (not_lt.mp hgt) (not_lt.mp hlt)
      rw [hcost]
      exact hset _

theorem Front.foldl_lower {ep : LsEqualPaths} {nhl : LsNodeIdList} (h : Front r m o todo p t)
    (hc : InRange r) (ho : p.find o = some ep) (hm : ep.cost = m)
    (hnhl : o ≠ r.myNodeId_ → nhl = ep.nextHopList)
    (hl : ∀ l ∈ todo, l.status_ = .up → Up r o l.neighborId_ l.cost_)
    (hcycle : ¬ TransGen (Free r) o o) :
    Lower (rank r o m) (tokens r (todo.foldl (LsRouting.link r p o nhl) t)) (tokens r t) := by
  induction todo generalizing t with
  | nil => exact fun a _ => le_rfl
  | cons l todo ih =>
    have hup := hl l List.mem_cons_self
    have hrest := ih (h.link hc ho hm hnhl hup) fun l' hl' => hl l' (List.mem_cons_of_mem _ hl')
    refine fun a ha => (hrest a ha).trans ?_
    rcases h.link_cases hc ho hnhl hup with ⟨-, he⟩ | ⟨⟨hu, -⟩, hs, -, -, he⟩
    · rw [he]
    · obtain ⟨hdist, -, hmax, -⟩ := h.paths o ep ho
      have hmem : o ∈ insert r.myNodeId_ (ends r) := by
        rcases hdist.1.eq_or_snoc with ⟨hself, -⟩ | ⟨w, a, b, -, hw, -⟩
        · exact Finset.mem_insert.mpr (.inl hself.symm)
        · exact Finset.mem_insert_of_mem (mem_ends hw)
      rw [he]
      have hlt := rank_lt hmem hmax (hup hu) (hc.nonneg _ _ _ (hup hu)) hcycle
      exact insert_lower (hm ▸ hlt) a ha

theorem loop_ends {fuel : ℕ} {lsl : List LsLinkState} {t₁ p' t' : LsPaths}
    (hexp : expand r p t o lsl = some t₁) (hpop : pop r fuel p t₁ = .returned (p', t', none)) :
    loop r (fuel + 1) p t o lsl = .returned p' := by
  rw [loop, hexp]
  simp only [hpop]

theorem loop_onward {fuel : ℕ} {lsl lsl' : List LsLinkState} {t₁ p' t' : LsPaths} {v : ℤ}
    (hexp : expand r p t o lsl = some t₁)
    (hpop : pop r fuel p t₁ = .returned (p', t', some (v, lsl'))) :
    loop r (fuel + 1) p t o lsl = loop r fuel p' t' v lsl' := by
  rw [loop, hexp]
  simp only [hpop]

/-- The pops return, and so does the loop behind them. -/
def Ends (r : LsRouting) (fuel fuel' : ℕ) (p t : LsPaths) : Prop :=
  ∃ p' t', pop r fuel p t = .returned (p', t', none) ∨
    ∃ v lsl p'', pop r fuel p t = .returned (p', t', some (v, lsl)) ∧
      loop r fuel' p' t' v lsl = .returned p''

theorem Ends.loop {fuel : ℕ} {lsl : List LsLinkState} {t₁ : LsPaths} (h : Ends r fuel fuel p t₁)
    (hexp : expand r p t o lsl = some t₁) : ∃ p', loop r (fuel + 1) p t o lsl = .returned p' := by
  obtain ⟨p', t', hpop | ⟨v, lsl', p'', hpop, hloop⟩⟩ := h
  · exact ⟨p', loop_ends hexp hpop⟩
  · exact ⟨p'', (loop_onward hexp hpop).trans hloop⟩

theorem pop_nil {fuel : ℕ} (hne : t.entries = []) :
    pop r (fuel + 1) p t = .returned (p, t, none) := by
  rw [pop, if_pos hne]

theorem pop_onward {fuel : ℕ} {sp : LsPath} {t' : LsPaths} (hne : t.entries ≠ [])
    (hpop : popShortestPath t = (t', some sp)) (hvalid : sp.isValid = true)
    (hdb : r.linkStateDatabase_.find sp.destination = none) :
    pop r (fuel + 1) p t = pop r fuel (insertPath p sp) t' := by
  rw [pop, if_neg hne, hpop]
  simp only [hvalid, if_true, hdb]

theorem pop_found {fuel : ℕ} {sp : LsPath} {t' : LsPaths} {lsl : List LsLinkState}
    (hne : t.entries ≠ []) (hpop : popShortestPath t = (t', some sp)) (hvalid : sp.isValid = true)
    (hdb : r.linkStateDatabase_.find sp.destination = some lsl) :
    pop r (fuel + 1) p t = .returned (insertPath p sp, t', some (sp.destination, lsl)) := by
  rw [pop, if_neg hne, hpop]
  simp only [hvalid, if_true, hdb]

theorem up_of_find {v : ℤ} {lsl : List LsLinkState} (hdb : r.linkStateDatabase_.find v = some lsl)
    {x b : ℤ} (h : Up r v x b) : ∃ l ∈ lsl, l.status_ = .up ∧ l.neighborId_ = x ∧ l.cost_ = b := by
  obtain ⟨lsl', hdb', h⟩ := h
  rw [hdb] at hdb'
  obtain rfl := Option.some.inj hdb'
  exact h

theorem not_up_of_find {v x b : ℤ} (hdb : r.linkStateDatabase_.find v = none) : ¬ Up r v x b := by
  rintro ⟨lsl, hdb', -⟩
  rw [hdb] at hdb'
  cases hdb'

theorem free_of_walk (hc : InRange r) {u v c : ℤ} (h : Walk (Up r) u v c) (hzero : c = 0) :
    ReflTransGen (Free r) u v := by
  induction h with
  | nil => exact .refl
  | @cons u w v b c hl hw ih =>
    have h1 := hc.nonneg _ _ _ hl
    have h2 := hw.zero_le hc.nonneg
    obtain rfl : b = 0 := by omega
    exact (ih (by omega)).head hl

/-- What is popped is valid. -/
theorem Front.valid (h : Front r m o todo p t) (hc : InRange r) (hclear : Clear r) {v n : ℤ}
    {ep : LsEqualPaths} (hv : t.find v = some ep) (hn : n ∈ ep.nextHopList)
    (hmax : ep.cost ≤ lsMaxCost) :
    v ≠ r.myNodeId_ ∧ LsPath.isValid ⟨v, ep.cost, n⟩ = true := by
  obtain ⟨-, -, -, hhops, u, a, b, hw, hl, hcost⟩ := h.tentative v ep hv
  have hself : v ≠ r.myNodeId_ := by
    rintro rfl
    obtain ⟨es, hes, hzero⟩ := h.self_path
    have h1 := h.both _ es ep hes hv
    have h2 := hw.zero_le hc.nonneg
    have h3 := hc.nonneg _ _ _ hl
    obtain rfl : b = 0 := by omega
    refine hclear.cycle _ 0 (.nil _) (by decide) ?_
    exact TransGen.tail' (free_of_walk hc hw (by omega)) hl
  refine ⟨hself, ?_⟩
  have hid := hclear.node v _ (hcost ▸ hw.snoc hl) hmax hself
  obtain ⟨d, hd, hown⟩ := hhops n hn
  have hnself : n ≠ r.myNodeId_ := by
    rintro rfl
    obtain rfl := hown rfl
    exact hclear.cycle _ 0 (.nil _) (by decide) (.single hd)
  have hnid := hclear.node n d (.edge hd) (hc _ _ _ hd).2 hnself
  have hinvalid : lsInvalidCost = lsInvalidNodeId := rfl
  simp only [LsPath.isValid, decide_eq_true_eq]
  refine ⟨hid, ?_, hinvalid ▸ hnid⟩
  unfold lsMaxCost at hmax
  unfold lsInvalidCost
  omega

/-- Where nothing stands in the way, the pops come to an end. -/
theorem Front.returns (h : Front r m o [] p t) (hc : InRange r) (hclear : Clear r) :
    ∃ n, ∀ fuel ≥ n, ∀ fuel' ≥ n, Ends r fuel fuel' p t := by
  induction hM : tokens r t using
    (Multiset.wellFounded_isDershowitzMannaLT (α := ℕ ×ₗ ℕ)).induction generalizing p t m o with
  | _ M ih =>
    subst hM
    by_cases hne : t.entries = []
    · refine ⟨1, fun fuel hfuel fuel' _ => ⟨p, t, .inl ?_⟩⟩
      obtain ⟨k, rfl⟩ := Nat.exists_eq_add_of_le' hfuel
      exact pop_nil hne
    · rcases h.pops hc hne with ⟨-, v, hv⟩ | ⟨v, ep, n, rest, hv, hrest, hmax, hmin, hpop⟩
      · exact absurd hv (hclear.cost v)
      · have hwalk := (h.least hc hv hmin).1
        have hid := hclear.node v _ hwalk hmax
        have hn : n ∈ ep.nextHopList := hrest ▸ List.mem_cons_self
        obtain ⟨-, hvalid⟩ := h.valid hc hclear hv hn hmax
        have htokens := tokens_popped (r := r) hv hrest
        cases hdb : r.linkStateDatabase_.find v with
        | none =>
          obtain ⟨hfront, -⟩ := h.install hc hv hrest hmax hmin hid []
            fun x b hu => absurd hu (not_up_of_find hdb)
          have hless : Multiset.IsDershowitzMannaLT (tokens r (popped t v ep rest))
              (tokens r t) := by
            rw [htokens]
            exact Lower.lt fun a _ => le_rfl
          obtain ⟨k, hk⟩ := ih _ hless hfront rfl
          refine ⟨k + 1, fun fuel hfuel fuel' hfuel' => ?_⟩
          obtain ⟨f, rfl⟩ := Nat.exists_eq_add_of_le' (Nat.le_of_add_left_le hfuel)
          rw [Ends, pop_onward hne hpop hvalid hdb]
          exact hk f (by omega) fuel' (by omega)
        | some lsl =>
          obtain ⟨hfront, ep', hep', hcost⟩ := h.install hc hv hrest hmax hmin hid lsl
            fun x b hu => up_of_find hdb hu
          have hl : ∀ l ∈ lsl, l.status_ = .up → Up r v l.neighborId_ l.cost_ :=
            fun l hl hup => ⟨lsl, hdb, l, hl, hup, rfl, rfl⟩
          obtain ⟨nhl, hnhl, hexp⟩ := expand_eq (r := r) (t := popped t v ep rest) hep' lsl
          have hfront' := hfront.foldl_link hc hep' hcost hnhl hl
          have hlower := hfront.foldl_lower hc hep' hcost hnhl hl (hclear.cycle v _ hwalk hmax)
          have hless := hlower.lt
          rw [← htokens] at hless
          obtain ⟨k, hk⟩ := ih _ hless hfront' rfl
          refine ⟨k + 1, fun fuel hfuel fuel' hfuel' => ?_⟩
          obtain ⟨f, rfl⟩ := Nat.exists_eq_add_of_le' (Nat.le_of_add_left_le hfuel)
          obtain ⟨f', rfl⟩ := Nat.exists_eq_add_of_le' (Nat.le_of_add_left_le hfuel')
          obtain ⟨p'', hloop⟩ := (hk f' (by omega) f' (by omega)).loop hexp
          exact ⟨_, _, .inr ⟨v, lsl, p'', pop_found hne hpop hvalid hdb, hloop⟩⟩

/-! ### What a computation that ends has seen -/

/-- No node of `S` has a path, or one is looked at, or one has a tentative path. -/
def Alive (S : Set ℤ) (p t : LsPaths) (now : Option ℤ) : Prop :=
  (∀ x ∈ S, p.find x = none) ∨ (∃ x ∈ S, now = some x) ∨ ∃ x ∈ S, t.find x ≠ none

theorem link_find {nhl : LsNodeIdList} {l : LsLinkState} {x : ℤ} (h : t.find x ≠ none) :
    (LsRouting.link r p o nhl t l).find x ≠ none := by
  have hins : ∀ (c : ℤ) (hs : LsNodeIdList),
      (insertNextHopList t l.neighborId_ c hs).find x ≠ none := by
    intro c hs
    obtain ⟨new, -, hfind⟩ := insertNextHopList_spec t l.neighborId_ c hs
    rw [hfind]
    split_ifs
    · simp
    · exact h
  rw [LsRouting.link]
  dsimp only
  by_cases hup : l.status_ = .up
  · rw [if_neg (by simp [hup])]
    by_cases hskip : lookupCost p l.neighborId_ < addInt l.cost_ (lookupCost p o)
    · rw [if_pos hskip]
      exact h
    · rw [if_neg hskip]
      exact hins _ _
  · rw [if_pos hup]
    exact h

theorem foldl_link_find {nhl : LsNodeIdList} {x : ℤ} (h : t.find x ≠ none)
    (lsl : List LsLinkState) : (lsl.foldl (LsRouting.link r p o nhl) t).find x ≠ none := by
  induction lsl generalizing t with
  | nil => exact h
  | cons l lsl ih => exact ih (link_find h)

/-- A link over which no better path is known leaves a tentative path. -/
theorem Front.foldl_reaches {ep : LsEqualPaths} {nhl : LsNodeIdList} {l : LsLinkState}
    (h : Front r m o todo p t) (hc : InRange r) (ho : p.find o = some ep) (hm : ep.cost = m)
    (hnhl : o ≠ r.myNodeId_ → nhl = ep.nextHopList)
    (hl : ∀ l ∈ todo, l.status_ = .up → Up r o l.neighborId_ l.cost_) (hmem : l ∈ todo)
    (hup : l.status_ = .up) (hle : ep.cost + l.cost_ ≤ lookupCost p l.neighborId_) :
    (todo.foldl (LsRouting.link r p o nhl) t).find l.neighborId_ ≠ none := by
  induction todo generalizing t with
  | nil => cases hmem
  | cons k todo ih =>
    have hk := hl k List.mem_cons_self
    rcases List.mem_cons.mp hmem with rfl | hmem
    · refine foldl_link_find ?_ todo
      rcases h.link_cases hc ho hnhl hk with ⟨hnot, -⟩ | ⟨-, hs, -, -, he⟩
      · exact absurd ⟨hup, hle⟩ hnot
      · obtain ⟨new, -, hfind⟩ :=
          insertNextHopList_spec t l.neighborId_ (ep.cost + l.cost_) hs
        rw [he, hfind, if_pos rfl]
        simp
    · exact ih (h.link hc ho hm hnhl hk) (fun l' hl' => hl l' (List.mem_cons_of_mem _ hl')) hmem

/-- The nodes of a free cycle that are equally far. -/
structure Circle (r : LsRouting) (S : Set ℤ) : Prop where
  next : ∀ x ∈ S, ∃ y ∈ S, Free r x y
  dist : ∀ x ∈ S, ∀ y ∈ S, ∀ d, IsDist (Up r) r.myNodeId_ x d → IsDist (Up r) r.myNodeId_ y d

theorem Circle.alive {S : Set ℤ} (hS : Circle r S) {ep : LsEqualPaths} {lsl : List LsLinkState}
    {nhl : LsNodeIdList} (h : Front r m o lsl p t) (hc : InRange r)
    (hdb : r.linkStateDatabase_.find o = some lsl) (ho : p.find o = some ep) (hm : ep.cost = m)
    (hnhl : o ≠ r.myNodeId_ → nhl = ep.nextHopList) (ha : Alive S p t (some o)) :
    Alive S p (lsl.foldl (LsRouting.link r p o nhl) t) none := by
  rcases ha with hnone | ⟨x, hx, he⟩ | ⟨x, hx, ht⟩
  · exact .inl hnone
  · obtain rfl := Option.some.inj he
    obtain ⟨y, hy, hfree⟩ := hS.next o hx
    obtain ⟨l, hl, hup, rfl, hzero⟩ := up_of_find hdb hfree
    refine .inr (.inr ⟨l.neighborId_, hy, ?_⟩)
    have hlinks : ∀ l ∈ lsl, l.status_ = .up → Up r o l.neighborId_ l.cost_ :=
      fun l hl hup => ⟨lsl, hdb, l, hl, hup, rfl, rfl⟩
    refine h.foldl_reaches hc ho hm hnhl hlinks hl hup ?_
    obtain ⟨hdist, -, hmax, -⟩ := h.paths o ep ho
    rw [hzero, add_zero, lookupCost]
    cases hp : p.find l.neighborId_ with
    | none =>
      dsimp only
      omega
    | some ey => exact ((h.paths _ ey hp).1.unique (hS.dist _ hx _ hy _ hdist)).ge
  · exact .inr (.inr ⟨x, hx, foldl_link_find ht lsl⟩)

/-- A pop that finds no node of `S` leaves `S` as it was. -/
theorem Alive.pops {S : Set ℤ} {v n : ℤ} {ep : LsEqualPaths} {rest : LsNodeIdList}
    (ha : Alive S p t none) (h : Front r m o [] p t) (hv : t.find v = some ep) :
    v ∈ S ∨ Alive S (insertPath p ⟨v, ep.cost, n⟩) (popped t v ep rest) none := by
  by_cases hvS : v ∈ S
  · exact .inl hvS
  · right
    obtain ⟨hs, -, -, hfind⟩ := h.insertPath_find hv n
    rcases ha with hnone | ⟨x, -, he⟩ | ⟨x, hx, ht⟩
    · refine .inl fun x hx => ?_
      have hxv : x ≠ v := fun he => hvS (he ▸ hx)
      rw [hfind, if_neg hxv]
      exact hnone x hx
    · cases he
    · have hxv : x ≠ v := fun he => hvS (he ▸ hx)
      refine .inr (.inr ⟨x, hx, ?_⟩)
      rwa [popped_find, if_neg hxv]

theorem Alive.at {S : Set ℤ} (ha : Alive S p t none) (v : ℤ) : Alive S p t (some v) := by
  rcases ha with hnone | ⟨x, -, he⟩ | ht
  · exact .inl hnone
  · cases he
  · exact .inr (.inr ht)

theorem Front.pop_returned {S : Set ℤ} (hS : Circle r S) (h : Front r m o [] p t) (hc : InRange r)
    (ha : Alive S p t none) {fuel : ℕ} {p' t' : LsPaths} {q : Option (ℤ × List LsLinkState)}
    (hret : pop r fuel p t = .returned (p', t', q)) :
    (q = none ∧ t'.entries = [] ∧ Alive S p' t' none ∧ ∃ m' o', Front r m' o' [] p' t') ∨
      ∃ v lsl ep, q = some (v, lsl) ∧ r.linkStateDatabase_.find v = some lsl ∧
        p'.find v = some ep ∧ Front r ep.cost v lsl p' t' ∧ Alive S p' t' (some v) := by
  induction fuel generalizing p t m o with
  | zero => cases hret
  | succ fuel ih =>
    by_cases hne : t.entries = []
    · rw [pop_nil hne] at hret
      cases hret
      exact .inl ⟨rfl, hne, ha, m, o, h⟩
    · rcases h.pops hc hne with ⟨hpop, -⟩ | ⟨v, ep, n, rest, hv, hrest, hmax, hmin, hpop⟩
      · rw [pop, if_neg hne, hpop] at hret
        cases hret
      · by_cases hvalid : LsPath.isValid ⟨v, ep.cost, n⟩ = true
        · have hid : v ≠ lsInvalidNodeId := by
            simp only [LsPath.isValid, decide_eq_true_eq] at hvalid
            exact hvalid.1
          cases hdb : r.linkStateDatabase_.find v with
          | none =>
            obtain ⟨hfront, -⟩ := h.install hc hv hrest hmax hmin (fun _ => hid) []
              fun x b hu => absurd hu (not_up_of_find hdb)
            rw [pop_onward hne hpop hvalid hdb] at hret
            refine ih hfront ((ha.pops h hv).resolve_left fun hvS => ?_) hret
            obtain ⟨y, -, hfree⟩ := hS.next v hvS
            exact not_up_of_find hdb hfree
          | some lsl =>
            obtain ⟨hfront, ep', hep', hcost⟩ := h.install hc hv hrest hmax hmin (fun _ => hid) lsl
              fun x b hu => up_of_find hdb hu
            rw [pop_found hne hpop hvalid hdb] at hret
            cases hret
            refine .inr ⟨v, lsl, ep', rfl, hdb, hep', hcost ▸ hfront, ?_⟩
            rcases ha.pops h hv with hvS | ha'
            · exact .inr (.inl ⟨v, hvS, rfl⟩)
            · exact ha'.at v
        · rw [pop, if_neg hne, hpop] at hret
          simp only [hvalid] at hret
          cases hret

theorem Front.loop_returned {S : Set ℤ} (hS : Circle r S) {ep : LsEqualPaths}
    {lsl : List LsLinkState} (h : Front r m o lsl p t) (hc : InRange r)
    (hdb : r.linkStateDatabase_.find o = some lsl) (ho : p.find o = some ep) (hm : ep.cost = m)
    (ha : Alive S p t (some o)) {fuel : ℕ} {p' : LsPaths}
    (hret : loop r fuel p t o lsl = .returned p') :
    ∃ t' m' o', t'.entries = [] ∧ Front r m' o' [] p' t' ∧ Alive S p' t' none := by
  induction fuel generalizing p t m o lsl ep with
  | zero => cases hret
  | succ fuel ih =>
    have hl : ∀ l ∈ lsl, l.status_ = .up → Up r o l.neighborId_ l.cost_ :=
      fun l hl hup => ⟨lsl, hdb, l, hl, hup, rfl, rfl⟩
    obtain ⟨nhl, hnhl, hexp⟩ := expand_eq (r := r) (t := t) ho lsl
    have h₁ := h.foldl_link hc ho hm hnhl hl
    have ha₁ := hS.alive h hc hdb ho hm hnhl ha
    cases hpop : pop r fuel p (lsl.foldl (LsRouting.link r p o nhl) t) with
    | running =>
      rw [loop, hexp] at hret
      simp only [hpop, reduceCtorEq] at hret
    | aborted =>
      rw [loop, hexp] at hret
      simp only [hpop, reduceCtorEq] at hret
    | returned q =>
      obtain ⟨p₁, t₁, q⟩ := q
      rcases h₁.pop_returned hS hc ha₁ hpop with
        ⟨rfl, hend, ha', m', o', h'⟩ | ⟨v, lsl', ep', rfl, hdb', hv, h', ha'⟩
      · rw [loop_ends hexp hpop] at hret
        cases hret
        exact ⟨t₁, m', o', hend, h', ha'⟩
      · rw [loop_onward hexp hpop] at hret
        exact ih h' hdb' hv rfl ha' hret

/-- The paths of a computation that ended reach every node that is not too far. -/
theorem Front.reached (h : Front r m o [] p t) (hc : InRange r) (hend : t.entries = []) {v c : ℤ}
    (hw : Walk (Up r) r.myNodeId_ v c) (hle : c ≤ lsMaxCost + 1) : ∃ ep, p.find v = some ep := by
  refine Option.ne_none_iff_exists'.mp fun hnone => ?_
  obtain ⟨es, hes, -⟩ := h.self_path
  obtain ⟨x, hx, y, hy, a, b, d, h1, h2, h3, rfl⟩ :=
    hw.exit (S := {u | p.find u ≠ none}) (by simp [hes]) (by simpa using hnone)
  obtain ⟨ep, hep⟩ := Option.ne_none_iff_exists'.mp hx
  have hy' : p.find y = none := by simpa using hy
  have hdist := (h.paths x ep hep).1.2 h1
  have hrest := h3.zero_le hc.nonneg
  rcases h.relaxed x ep y b hep h2 (by simp) with hbig | ⟨c, -, hlab⟩
  · omega
  · rw [label, hy', Option.none_or, find_of_entries_nil hend] at hlab
    cases hlab

/-! ### The condition -/

theorem walk_of_free {u v : ℤ} (h : TransGen (Free r) u v) : Walk (Up r) u v 0 := by
  induction h with
  | single h => exact .edge h
  | tail _ h ih => simpa using ih.snoc h

/-- The nodes on free cycles through `v`. -/
def circle (r : LsRouting) (v : ℤ) : Set ℤ := {x | TransGen (Free r) v x ∧ TransGen (Free r) x v}

theorem circle_spec (hv : TransGen (Free r) v v) : Circle r (circle r v) where
  next := by
    rintro x ⟨hvx, hxv⟩
    rcases TransGen.head'_iff.mp hxv with ⟨y, hxy, hyv⟩
    refine ⟨y, ⟨hvx.tail hxy, ?_⟩, hxy⟩
    rcases reflTransGen_iff_eq_or_transGen.mp hyv with rfl | hyv
    · exact hv
    · exact hyv
  dist := by
    rintro x ⟨hvx, hxv⟩ y ⟨hvy, hyv⟩ d hd
    have hxy := walk_of_free (hxv.trans hvy)
    have hyx := walk_of_free (hyv.trans hvx)
    refine ⟨by simpa using hd.1.append hxy, fun c hc => ?_⟩
    have hback := Walk.append (show Walk (Up r) r.myNodeId_ y c from hc) hyx
    rw [add_zero] at hback
    exact hd.2 hback

theorem Front.clear (h : Front r m o [] p t) (hc : InRange r) (hend : t.entries = [])
    (ha : ∀ v, TransGen (Free r) v v → Alive (circle r v) p t none) : Clear r where
  node v c hw hle hself := by
    obtain ⟨ep, hep⟩ := h.reached hc hend hw (by omega)
    exact ((h.paths v ep hep).2.2.2.2 hself).1
  cost v hd := by
    obtain ⟨ep, hep⟩ := h.reached hc hend hd.1 le_rfl
    obtain ⟨hdist, -, hmax, -⟩ := h.paths v ep hep
    have := hdist.unique hd
    omega
  cycle v c hw hle hv := by
    rcases ha v hv with hnone | ⟨x, -, he⟩ | ⟨x, -, ht⟩
    · obtain ⟨ep, hep⟩ := h.reached hc hend hw (by omega)
      rw [hnone v ⟨hv, hv⟩] at hep
      cases hep
    · cases he
    · exact ht (find_of_entries_nil hend x)

/-- The paths that the computation starts with. -/
abbrev startPaths (r : LsRouting) : LsPaths :=
  insertPathNoChecking .empty ⟨r.myNodeId_, 0, r.myNodeId_⟩

theorem startPaths_find (v : ℤ) : (startPaths r).find v =
    if v = r.myNodeId_ then some ⟨0, [r.myNodeId_]⟩ else none := by
  simp [insertPathNoChecking, SortedMap.find_set]

theorem front_start (hc : InRange r) (todo : List LsLinkState)
    (htodo : ∀ x b, Up r r.myNodeId_ x b →
      ∃ l ∈ todo, l.status_ = .up ∧ l.neighborId_ = x ∧ l.cost_ = b) :
    Front r 0 r.myNodeId_ todo (startPaths r) .empty := by
  refine ⟨⟨⟨0, [r.myNodeId_]⟩, by rw [startPaths_find, if_pos rfl], rfl⟩, fun v ep hv => ?_,
    by simp, by simp, fun u ep x b hu hux hdone => ?_⟩
  · rw [startPaths_find] at hv
    split_ifs at hv with hself
    · obtain rfl := Option.some.inj hv
      subst hself
      have hmax : (0 : ℤ) ≤ lsMaxCost := by decide
      exact ⟨⟨.nil _, fun c hw => Walk.zero_le hc.nonneg hw⟩, le_rfl, hmax, by simp,
        fun hne => absurd rfl hne⟩
  · rw [startPaths_find] at hu
    split_ifs at hu with hself
    · subst hself
      obtain ⟨l, hl, hup, hx, hb⟩ := htodo x b hux
      exact absurd hb (hdone rfl l hl hup hx)

theorem alive_start {S : Set ℤ} : Alive S (startPaths r) .empty (some r.myNodeId_) := by
  by_cases hself : r.myNodeId_ ∈ S
  · exact .inr (.inl ⟨_, hself, rfl⟩)
  · refine .inl fun x hx => ?_
    rw [startPaths_find, if_neg]
    rintro rfl
    exact hself hx

end runs

theorem computeRoutes_none {r : LsRouting} (hdb : r.linkStateDatabase_.find r.myNodeId_ = none)
    (fuel : ℕ) : computeRoutes r fuel = .returned (startPaths r) := by
  simp only [computeRoutes, hdb]

theorem computeRoutes_some {r : LsRouting} {lsl : List LsLinkState}
    (hdb : r.linkStateDatabase_.find r.myNodeId_ = some lsl) (fuel : ℕ) :
    computeRoutes r fuel = loop r fuel (startPaths r) .empty r.myNodeId_ lsl := by
  simp only [computeRoutes, hdb]

theorem clear_of_none {r : LsRouting} (hc : InRange r)
    (hdb : r.linkStateDatabase_.find r.myNodeId_ = none) : Clear r := by
  have hnone : ∀ x b, ¬ Up r r.myNodeId_ x b := fun x b => not_up_of_find hdb
  refine (front_start hc [] fun x b hu => absurd hu (hnone x b)).clear hc rfl fun v hv => ?_
  rcases @alive_start r (circle r v) with hS | ⟨x, hx, he⟩ | ⟨x, -, ht⟩
  · exact .inl hS
  · obtain rfl := Option.some.inj he
    obtain ⟨y, -, hfree⟩ := (circle_spec hv).next _ hx
    exact absurd hfree (hnone y 0)
  · exact absurd rfl ht

/-- A computation that ends has been held up by nothing. -/
theorem clear_of_returned {r : LsRouting} {fuel : ℕ} {p : LsPaths} (hc : InRange r)
    (hp : computeRoutes r fuel = .returned p) : Clear r := by
  cases hdb : r.linkStateDatabase_.find r.myNodeId_ with
  | none => exact clear_of_none hc hdb
  | some lsl =>
    rw [computeRoutes_some hdb] at hp
    have hfront := front_start hc lsl fun x b hu => up_of_find hdb hu
    have hself : (startPaths r).find r.myNodeId_ = some ⟨0, [r.myNodeId_]⟩ := by
      rw [startPaths_find, if_pos rfl]
    have hend : ∀ S, Circle r S → ∃ t' m' o', t'.entries = [] ∧ Front r m' o' [] p t' ∧
        Alive S p t' none :=
      fun S hS => hfront.loop_returned hS hc hdb hself rfl alive_start hp
    have hempty : Circle r ∅ := ⟨by simp, by simp⟩
    obtain ⟨t', m', o', ht, h', -⟩ := hend ∅ hempty
    refine h'.clear hc ht fun v hv => ?_
    obtain ⟨t'', -, -, ht', -, ha⟩ := hend _ (circle_spec hv)
    rcases ha with hS | ⟨x, -, he⟩ | ⟨x, -, hx⟩
    · exact .inl hS
    · cases he
    · exact absurd (find_of_entries_nil ht' x) hx

/-- The computation of the routes ends without an error exactly when nothing stands in its way. -/
theorem computeRoutes_returns_iff {r : LsRouting} (hc : InRange r) :
    (∃ n, ∀ fuel ≥ n, ∃ p, computeRoutes r fuel = .returned p) ↔ Clear r := by
  constructor
  · rintro ⟨n, hn⟩
    obtain ⟨p, hp⟩ := hn n le_rfl
    exact clear_of_returned hc hp
  · intro hclear
    cases hdb : r.linkStateDatabase_.find r.myNodeId_ with
    | none => exact ⟨0, fun fuel _ => ⟨_, computeRoutes_none hdb fuel⟩⟩
    | some lsl =>
      have hfront := front_start hc lsl fun x b hu => up_of_find hdb hu
      have hself : (startPaths r).find r.myNodeId_ = some ⟨0, [r.myNodeId_]⟩ := by
        rw [startPaths_find, if_pos rfl]
      have hl : ∀ l ∈ lsl, l.status_ = .up → Up r r.myNodeId_ l.neighborId_ l.cost_ :=
        fun l hl hup => ⟨lsl, hdb, l, hl, hup, rfl, rfl⟩
      obtain ⟨nhl, hnhl, hexp⟩ := expand_eq (r := r) (t := .empty) hself lsl
      obtain ⟨n, hn⟩ := (hfront.foldl_link hc hself rfl hnhl hl).returns hc hclear
      refine ⟨n + 1, fun fuel hfuel => ?_⟩
      obtain ⟨f, rfl⟩ := Nat.exists_eq_add_of_le' (Nat.le_of_add_left_le hfuel)
      rw [computeRoutes_some hdb]
      exact (hn f (by omega) f (by omega)).loop hexp

theorem inRange_oneLink {n : ℤ} : InRange (oneLink n) := by
  intro u v c h
  obtain ⟨-, -, rfl⟩ := up_oneLink.mp h
  decide

theorem oneLink_returns :
    (∃ n, ∀ fuel ≥ n, ∃ p, computeRoutes (oneLink 2) fuel = .returned p) ↔ Clear (oneLink 2) :=
  computeRoutes_returns_iff inRange_oneLink

/-- Two neighbours over a link that costs nothing. -/
def freePair : LsRouting where
  myNodeId_ := 1
  linkStateDatabase_ := (SortedMap.empty.set 1 [⟨2, .up, 0, 0⟩]).set 2 [⟨1, .up, 0, 0⟩]

theorem freePair_runs_on : ¬ ∀ r, InRange r →
    ∃ n, ∀ fuel ≥ n, ∃ p, computeRoutes r fuel = .returned p := by
  intro hall
  have hup : ∀ u v c, Up freePair u v c → c = 0 := by
    rintro u v c ⟨lsl, hdb, l, hl, -, -, rfl⟩
    simp only [freePair, SortedMap.find_set, SortedMap.find_empty] at hdb
    split_ifs at hdb
    · obtain rfl := Option.some.inj hdb
      obtain rfl := List.mem_singleton.mp hl
      rfl
    · obtain rfl := Option.some.inj hdb
      obtain rfl := List.mem_singleton.mp hl
      rfl
  have hc : InRange freePair := by
    intro u v c h
    rw [hup u v c h]
    decide
  obtain ⟨n, hn⟩ := hall freePair hc
  obtain ⟨p, hp⟩ := hn n le_rfl
  have hclear := clear_of_returned hc hp
  have h12 : Free freePair 1 2 := ⟨_, rfl, _, List.mem_singleton_self _, rfl, rfl, rfl⟩
  have h21 : Free freePair 2 1 := ⟨_, rfl, _, List.mem_singleton_self _, rfl, rfl, rfl⟩
  exact hclear.cycle 1 0 (.nil _) (by decide) (.tail (.single h12) h21)

end Ns2.LsRouting
