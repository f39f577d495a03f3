import Ns2.Dsr.MobiCache

/-! What the path cache keeps in every run: its paths are routes from the node itself, each of their
links was heard of after it was last reported dead, and the shortest route is found. -/

namespace Ns2

namespace MobiCache

variable {m m' : MobiCache} {c : Cache} {p q path : List Hop} {cs : List (List Hop)} {n index : ℕ}
  {src dst dest : ID}

def ids (p : List Hop) : List ID := p.map Hop.id

@[simp] theorem ids_nil : ids [] = [] := rfl

@[simp] theorem ids_cons (a : Hop) (p : List Hop) : ids (a :: p) = a.id :: ids p := rfl

@[simp] theorem length_ids (p : List Hop) : (ids p).length = p.length := List.length_map ..

/-- The links of a path: a node with what is known of the link, and the next node. -/
def links : List Hop → List (Hop × ID)
  | a :: b :: p => (a, b.id) :: links (b :: p)
  | _ => []

theorem ids_take_agree (p path : List Hop) :
    ids (p.take (agree p path)) = ids (path.take (agree p path)) := by
  induction p generalizing path with
  | nil => simp [agree]
  | cons a p ih =>
    cases path with
    | nil => simp [agree]
    | cons b path =>
      rw [agree]
      split_ifs with hab
      · simp [hab, ih path]
      · simp

/-- A path that agrees to its end is a beginning of the route. -/
theorem ids_extend (h : agree p path = p.length) :
    ids (p ++ path.drop (agree p path)) = ids path := by
  have hp := ids_take_agree p path
  conv at hp => lhs; rw [h, List.take_length]
  rw [ids, List.map_append]
  rw [show p.map Hop.id = ids p from rfl, hp, ids, ← List.map_append, List.take_append_drop]
  rfl

theorem ids_prefix (h : agree p path = path.length) : ids path <+: ids p := by
  have hp := ids_take_agree p path
  conv at hp => rhs; rw [h, List.take_length]
  rw [← hp]
  exact (List.take_prefix _ p).map Hop.id

theorem ids_freshen (p path : List Hop) : ids (freshen p path) = ids p := by
  induction p, path using freshen.induct with
  | case1 a b p c d path h => rw [freshen, if_pos h]
  | case2 a b p c d path h ih =>
    rw [freshen, if_neg h, ids_cons, ih, ids_cons a]
    split_ifs <;> rfl
  | case3 p path h => rw [freshen.eq_2 _ _ h]

/-- A link is fresh, or as it was. -/
theorem links_freshen (p path : List Hop) : links (freshen p path) ⊆ links p ++ links path := by
  induction p, path using freshen.induct with
  | case1 a b p c d path h =>
    rw [freshen, if_pos h]
    exact List.subset_append_left _ _
  | case2 a b p c d path h ih =>
    rw [freshen, if_neg h]
    have hids := ids_freshen (b :: p) (d :: path)
    obtain ⟨e, rest, he⟩ : ∃ e rest, freshen (b :: p) (d :: path) = e :: rest := by
      cases hf : freshen (b :: p) (d :: path) with
      | nil => rw [hf] at hids; cases hids
      | cons e rest => exact ⟨e, rest, rfl⟩
    rw [he] at ih hids ⊢
    have hid : e.id = b.id := (List.cons.inj hids).1
    intro x hx
    rcases List.mem_cons.mp hx with rfl | hx
    · split_ifs with hbd
      · have hac : a.id = c.id := not_not.mp h
        simp [links, hid, hbd, hac]
      · simp [links, hid]
    · have := ih hx
      simp only [List.mem_append, links, List.mem_cons] at this ⊢
      tauto
  | case3 p path h =>
    rw [freshen.eq_2 _ _ h]
    exact List.subset_append_left _ _

/-- A path with the nodes of the route takes over what is known of its links. -/
theorem links_freshen_same (h : ids p = ids path) : links (freshen p path) = links path := by
  induction p, path using freshen.induct with
  | case1 a b p c d path hne => exact absurd (List.cons.inj h).1 hne
  | case2 a b p c d path hac ih =>
    obtain ⟨ha, hrest⟩ := List.cons.inj h
    have hbd : b.id = d.id := (List.cons.inj hrest).1
    rw [freshen, if_neg hac, if_pos hbd]
    have hids := ids_freshen (b :: p) (d :: path)
    have hlinks := ih hrest
    cases hf : freshen (b :: p) (d :: path) with
    | nil => rw [hf] at hids; cases hids
    | cons e rest =>
      rw [hf] at hids hlinks
      have hid : e.id = b.id := (List.cons.inj hids).1
      rw [links, hlinks, links, hid, hbd]
      simp [ha]
  | case3 p path hshort =>
    rw [freshen.eq_2 _ _ hshort]
    cases p with
    | nil =>
      cases path with
      | nil => rfl
      | cons c path => cases h
    | cons a p =>
      cases path with
      | nil => cases h
      | cons c path =>
        cases p with
        | nil =>
          cases path with
          | nil => rfl
          | cons d path => cases (List.cons.inj h).2
        | cons b p =>
          cases path with
          | nil => cases (List.cons.inj h).2
          | cons d path => exact (hshort a b p c d path rfl rfl).elim

/-- Where the route goes: behind the end of a path, into a path that holds it, or nowhere yet. -/
theorem place_spec {cs : List (List Hop)} {r : ℕ × List Hop × ℕ} (h : place path n cs = some r) :
    ∃ pre old post, cs = pre ++ old :: post ∧ r.1 = n + pre.length ∧
      (ids r.2.1 = ids path ∨ r.2.1 = old ∧ ids path <+: ids old) := by
  induction cs generalizing n with
  | nil => cases h
  | cons p rest ih =>
    rw [place] at h
    by_cases hend : agree p path = p.length
    · rw [if_pos hend] at h
      cases h
      exact ⟨[], p, rest, rfl, rfl, .inl (ids_extend hend)⟩
    · rw [if_neg hend] at h
      by_cases hin : agree p path = path.length
      · rw [if_pos hin] at h
        cases h
        exact ⟨[], p, rest, rfl, rfl, .inr ⟨rfl, ids_prefix hin⟩⟩
      · rw [if_neg hin] at h
        obtain ⟨pre, old, post, rfl, hindex, hfit⟩ := ih h
        exact ⟨p :: pre, old, post, rfl, by rw [hindex, List.length_cons]; omega, hfit⟩

/-- The next victim is a path of the cache. -/
def Cache.Ok (c : Cache) : Prop := c.victim_ptr < c.cache.length

theorem pickVictim_spec (h : c.Ok) :
    c.pickVictim.1 < c.cache.length ∧ c.pickVictim.2.Ok ∧ c.pickVictim.2.cache = c.cache := by
  unfold Cache.pickVictim
  cases hfree : c.cache.findIdx? List.isEmpty with
  | some i =>
    obtain ⟨hi, -⟩ := List.findIdx?_eq_some_iff_getElem.mp hfree
    exact ⟨hi, h, rfl⟩
  | none =>
    refine ⟨h, ?_, rfl⟩
    unfold Cache.Ok at h ⊢
    dsimp only
    split_ifs <;> omega

/-- What adding a route does to the paths: one of them becomes the route, or holds it already, and
their links are fresh or as they were. -/
theorem addRoute_spec (h : c.Ok) (path : List Hop) :
    (c.addRoute path).1.Ok ∧ (c.addRoute path).1.cache.length = c.cache.length ∧
      (∃ q ∈ (c.addRoute path).1.cache, ids path <+: ids q) ∧
      ∀ q ∈ (c.addRoute path).1.cache, (ids q = ids path ∧ links q ⊆ links path) ∨
        ∃ p ∈ c.cache, ids q = ids p ∧ links q ⊆ links p ++ links path := by
  have hold : ∀ p ∈ c.cache, ∃ p' ∈ c.cache, ids (freshen p path) = ids p' ∧
      links (freshen p path) ⊆ links p' ++ links path := fun p hp =>
    ⟨p, hp, ids_freshen p path, links_freshen p path⟩
  unfold Cache.addRoute
  cases hplace : place path 0 c.cache with
  | some r =>
    obtain ⟨index, p, n⟩ := r
    obtain ⟨pre, old, post, hcs, hindex, hfit⟩ := place_spec hplace
    rw [Nat.zero_add] at hindex
    simp only at hindex hfit
    have hset : c.cache.set index p = pre ++ p :: post := by
      rw [hcs, hindex, List.set_append_right _ _ le_rfl, Nat.sub_self]
      rfl
    simp only [hset, List.mem_map, List.length_map]
    refine ⟨?_, by rw [hcs]; simp, ⟨_, ⟨p, by simp, rfl⟩, ?_⟩, ?_⟩
    · unfold Cache.Ok at h ⊢
      rw [hcs] at h
      simpa using h
    · rw [ids_freshen]
      rcases hfit with he | ⟨rfl, hpre⟩
      · rw [he]
      · exact hpre
    · rintro q ⟨p', hp', rfl⟩
      have hother : p' = p ∨ p' ∈ c.cache := by
        rw [hcs]
        simp only [List.mem_append, List.mem_cons] at hp' ⊢
        tauto
      rcases hother with rfl | hp'
      · rcases hfit with he | ⟨rfl, -⟩
        · exact .inl ⟨(ids_freshen p' path).trans he, by rw [links_freshen_same he]; exact .refl _⟩
        · exact .inr (hold p' (by rw [hcs]; simp))
      · exact .inr (hold p' hp')
  | none =>
    obtain ⟨hlt, hok, hsame⟩ := pickVictim_spec h
    simp only [hsame, List.mem_map, List.length_map, List.length_set]
    refine ⟨?_, trivial, ⟨_, ⟨path, List.mem_set hlt path, rfl⟩, ?_⟩, ?_⟩
    · unfold Cache.Ok at hok ⊢
      rw [hsame] at hok
      simpa using hok
    · rw [ids_freshen]
    · rintro q ⟨p', hp', rfl⟩
      rcases List.mem_or_eq_of_mem_set hp' with hp' | rfl
      · exact .inr (hold p' hp')
      · exact .inl ⟨ids_freshen p' p', by rw [links_freshen_same rfl]; exact .refl _⟩

theorem links_take (p : List Hop) (n : ℕ) : links (p.take n) ⊆ links p := by
  induction p generalizing n with
  | nil => simp [links]
  | cons a p ih =>
    cases n with
    | zero => simp [links]
    | succ n =>
      cases p with
      | nil => simp [links]
      | cons b p =>
        cases n with
        | zero => simp [links]
        | succ n =>
          have := ih (n + 1)
          simp only [List.take_succ_cons, links] at this ⊢
          exact List.cons_subset_cons _ this

/-- Whether a link is the one that was reported. -/
def Dead (src dst : ID) (x : Hop × ID) : Prop := x.1.id = src ∧ x.2 = dst

theorem deadAt_spec (src dst : ID) (n : ℕ) (p : List Hop) :
    (deadAt src dst n p = none ∧ ∀ x ∈ links p, ¬ Dead src dst x) ∨
      ∃ k, deadAt src dst n p = some (n + k) ∧ k + 1 < p.length ∧
        ∀ x ∈ links (p.take (k + 1)), ¬ Dead src dst x := by
  induction p generalizing n with
  | nil => exact .inl ⟨rfl, by simp [links]⟩
  | cons a p ih =>
    cases p with
    | nil => exact .inl ⟨rfl, by simp [links]⟩
    | cons b p =>
      rw [deadAt]
      by_cases hdead : a.id = src ∧ b.id = dst
      · exact .inr ⟨0, if_pos hdead, by simp, by simp [links]⟩
      · rw [if_neg hdead]
        obtain ⟨hnone, hlive⟩ | ⟨k, hsome, hlt, hlive⟩ := ih (n + 1)
        · refine .inl ⟨hnone, fun x hx => ?_⟩
          rcases List.mem_cons.mp hx with rfl | hx
          · exact hdead
          · exact hlive x hx
        · refine .inr ⟨k + 1, by rw [hsome]; congr 1; omega, by simpa using hlt, fun x hx => ?_⟩
          simp only [List.take_succ_cons, links] at hx hlive
          rcases List.mem_cons.mp hx with rfl | hx
          · exact hdead
          · exact hlive x hx

/-- A path is cut before its dead link, or dropped. -/
theorem truncate_spec (src dst : ID) (p : List Hop) :
    (truncate src dst p = [] ∨ ∃ n, 2 ≤ n ∧ truncate src dst p = p.take n) ∧
      (∀ x ∈ links (truncate src dst p), x ∈ links p ∧ ¬ Dead src dst x) ∨
    truncate src dst p = p ∧ ∀ x ∈ links p, ¬ Dead src dst x := by
  unfold truncate
  obtain ⟨hnone, hlive⟩ | ⟨k, hsome, -, hlive⟩ := deadAt_spec src dst 0 p
  · rw [hnone]
    exact .inr ⟨rfl, hlive⟩
  · rw [hsome]
    by_cases hk : k = 0
    · refine .inl ⟨.inl (by simp [hk]), by simp [hk, links]⟩
    · refine .inl ⟨.inr ⟨k + 1, by omega, by simp [hk]⟩, ?_⟩
      simp only [Nat.zero_add, hk, if_false]
      exact fun x hx => ⟨links_take p (k + 1) hx, hlive x hx⟩

theorem position_none (h : (p.findIdx? fun a => a.id = dest) = none) (k : ℕ) :
    (ids p)[k]? ≠ some dest := by
  intro hk
  obtain ⟨a, ha, hid⟩ := List.mem_map.mp (List.mem_of_getElem? hk)
  have := List.findIdx?_eq_none_iff.mp h a ha
  simp [hid] at this

theorem position_some (h : (p.findIdx? fun a => a.id = dest) = some n) :
    (ids p)[n]? = some dest ∧ ∀ k, (ids p)[k]? = some dest → n ≤ k := by
  obtain ⟨hlt, hn, hbefore⟩ := List.findIdx?_eq_some_iff_getElem.mp h
  constructor
  · rw [ids, List.getElem?_map, List.getElem?_eq_getElem hlt]
    simpa using hn
  · intro k hk
    by_contra hkn
    have hb := hbefore k (by omega)
    rw [ids, List.getElem?_map, List.getElem?_eq_getElem (by omega)] at hk
    simp at hb hk
    exact hb hk

/-- A result of the search: a path below the bound that reaches the node in so many steps. -/
def Hit (dest : ID) (cs : List (List Hop)) (index bound : ℕ) (r : ℕ × Option (ℕ × List Hop)) :
    Prop :=
  ∃ k i p, r = (k, some (index + i, p)) ∧ k < bound ∧ cs[i]? = some p ∧ (ids p)[k]? = some dest

theorem Hit.later {cs : List (List Hop)} {b bound : ℕ} {r : ℕ × Option (ℕ × List Hop)}
    (h : Hit dest cs (index + 1) b r) (hb : b ≤ bound) (p : List Hop) :
    Hit dest (p :: cs) index bound r := by
  obtain ⟨k, i, q, he, hk, hi, hq⟩ := h
  exact ⟨k, i + 1, q, by rw [he, Nat.add_assoc, Nat.add_comm 1 i], by omega, hi, hq⟩

/-- The search ends with the best path that reaches a node, if one does better than the bound. -/
theorem searchLoop_spec (dest : ID) (cs : List (List Hop)) (index bound : ℕ)
    (best : Option (ℕ × List Hop)) :
    (searchLoop dest index cs bound best).1 ≤ bound ∧
      (∀ p ∈ cs, ∀ k, (ids p)[k]? = some dest → (searchLoop dest index cs bound best).1 ≤ k) ∧
      (searchLoop dest index cs bound best = (bound, best) ∨
        Hit dest cs index bound (searchLoop dest index cs bound best)) := by
  induction cs generalizing index bound best with
  | nil => exact ⟨le_rfl, by simp, .inl rfl⟩
  | cons p rest ih =>
    rw [searchLoop]
    cases hpos : p.findIdx? fun a => a.id = dest with
    | none =>
      obtain ⟨hle, hbest, hfound⟩ := ih (index + 1) bound best
      refine ⟨hle, fun q hq k hk => ?_, hfound.imp_right fun h => h.later le_rfl p⟩
      rcases List.mem_cons.mp hq with rfl | hq
      · exact absurd hk (position_none hpos k)
      · exact hbest q hq k hk
    | some len =>
      obtain ⟨hlen, hfirst⟩ := position_some hpos
      by_cases hlt : len < bound
      · simp only [if_pos hlt]
        obtain ⟨hle, hbest, hfound⟩ := ih (index + 1) len (some (index, p))
        refine ⟨by omega, fun q hq k hk => ?_, .inr ?_⟩
        · rcases List.mem_cons.mp hq with rfl | hq
          · exact hle.trans (hfirst k hk)
          · exact hbest q hq k hk
        · obtain he | hhit := hfound
          · exact ⟨len, 0, p, he, hlt, rfl, hlen⟩
          · exact hhit.later hlt.le p
      · simp only [if_neg hlt]
        obtain ⟨hle, hbest, hfound⟩ := ih (index + 1) bound best
        refine ⟨hle, fun q hq k hk => ?_, hfound.imp_right fun h => h.later le_rfl p⟩
        rcases List.mem_cons.mp hq with rfl | hq
        · have := hfirst k hk
          omega
        · exact hbest q hq k hk

/-- A route that the node may use: from itself, without a node twice. -/
structure Proper (m : MobiCache) (l : List ID) : Prop where
  nodup : l.Nodup
  long : 2 ≤ l.length
  short : l.length ≤ MAX_SR_LEN
  starts : l.head? = some m.net_id ∨ l.head? = some m.MAC_id

/-- The paths of both caches. -/
def paths (m : MobiCache) : List (List Hop) := m.primary_cache.cache ++ m.secondary_cache.cache

/-- What the comments at the head of the file ask of the cache. -/
structure Ok (m : MobiCache) : Prop where
  primary : m.primary_cache.Ok
  secondary : m.secondary_cache.Ok
  proper : ∀ p ∈ m.paths, p = [] ∨ m.Proper (ids p)

/-- The routes that are heard of. -/
def taught (m : MobiCache) : Input → List Hop
  | .addRoute route t who_from => (m.pre_addRoute route t who_from).getD []
  | .noticeRouteUsed p cur_index t who_from =>
    (m.pre_noticeRouteUsed p cur_index t who_from).getD []
  | _ => []

/-- Routes come without a node twice, with an iterator that is on them or at their end. -/
def Sound : Input → Prop
  | .addRoute route _ _ => route.Nodup ∧ route.length ≤ MAX_SR_LEN
  | .noticeRouteUsed p cur_index _ _ =>
    p.Nodup ∧ p.length ≤ MAX_SR_LEN ∧ cur_index ≤ p.length
  | _ => True

instance : ∀ i, Decidable (Sound i)
  | .addRoute _ _ _ => inferInstanceAs (Decidable (_ ∧ _))
  | .noticeRouteUsed _ _ _ _ => inferInstanceAs (Decidable (_ ∧ _ ∧ _))
  | .noticeDeadLink _ _ => inferInstanceAs (Decidable True)
  | .findRoute _ _ => inferInstanceAs (Decidable True)

theorem ids_mark (t : ℚ) (who_from : ID) (kind : LinkType) (l : List ID) :
    ids (mark t who_from kind l) = l := by
  induction l generalizing kind with
  | nil => rfl
  | cons a l ih => rw [mark, ids_cons, ih]

theorem pre_addRoute_proper {route : List ID} {t : ℚ} {who_from : ID} (hnd : route.Nodup)
    (hshort : route.length ≤ MAX_SR_LEN) (h : m.pre_addRoute route t who_from = some path) :
    m.Proper (ids path) := by
  cases route with
  | nil => cases h
  | cons a route =>
    cases route with
    | nil => cases h
    | cons b rest =>
      rw [pre_addRoute] at h
      by_cases hbad : a ≠ m.net_id ∧ a ≠ m.MAC_id
      · rw [if_pos hbad] at h
        cases h
      · rw [if_neg hbad] at h
        rw [← Option.some.inj h, ids_mark]
        rw [not_and_or, not_not, not_not] at hbad
        exact ⟨hnd, by simp, hshort, by simpa using hbad⟩

theorem pre_noticeRouteUsed_proper {l : List ID} {cur_index : ℕ} {t : ℚ} {who_from : ID}
    (hnd : l.Nodup) (hshort : l.length ≤ MAX_SR_LEN) (hindex : cur_index ≤ l.length)
    (h : m.pre_noticeRouteUsed l cur_index t who_from = some path) : m.Proper (ids path) := by
  unfold pre_noticeRouteUsed at h
  by_cases hlen : l.length < 2
  · rw [if_pos hlen] at h
    cases h
  rw [if_neg hlen] at h
  by_cases hign : m.cache_ignore_hints = true
  · rw [if_pos hign] at h
    cases h
  rw [if_neg hign] at h
  generalize hc : l.findIdx (fun a => a = m.net_id ∨ a = m.MAC_id) = c at h
  have hle : c ≤ l.length := hc ▸ List.findIdx_le_length
  simp only at h
  by_cases honly : c = l.length - 1
  · rw [if_pos honly] at h
    cases h
  rw [if_neg honly] at h
  by_cases hout : c = l.length
  · -- the node that transmitted is taken as the next
    rw [if_pos hout] at h
    by_cases hover : m.cache_use_overheard_routes = true
    · rw [if_pos hover] at h
      by_cases hzero : cur_index = 0
      · rw [if_pos hzero] at h
        cases h
      rw [if_neg hzero, mark] at h
      have hmem : m.net_id ∉ l := by
        intro hmem
        have := List.findIdx_lt_length_of_exists
          (p := fun a => decide (a = m.net_id ∨ a = m.MAC_id)) ⟨m.net_id, hmem, by simp⟩
        omega
      have hids : ids path = m.net_id :: (l.drop (cur_index - 1)).take (MAX_SR_LEN - 1) := by
        rw [← Option.some.inj h, ids_cons, ids_mark]
      rw [hids]
      have hsub : ((l.drop (cur_index - 1)).take (MAX_SR_LEN - 1)).Sublist l :=
        (List.take_sublist _ _).trans (List.drop_sublist _ _)
      refine ⟨List.nodup_cons.mpr ⟨fun hm => hmem (hsub.subset hm), hnd.sublist hsub⟩, ?_, ?_,
        .inl rfl⟩
      · simp only [List.length_cons, List.length_take, List.length_drop, MAX_SR_LEN]
        omega
      · simp only [List.length_cons, List.length_take, MAX_SR_LEN]
        omega
    · rw [if_neg hover] at h
      cases h
  · -- the rest of the path from the node on
    rw [if_neg hout] at h
    rw [← Option.some.inj h, ids_mark]
    have hlt : c < l.length := by omega
    refine ⟨hnd.sublist (List.drop_sublist _ _), by rw [List.length_drop]; omega,
      by rw [List.length_drop]; omega, ?_⟩
    have hus := List.findIdx_getElem (w := hc.trans_lt hlt)
    rw [List.head?_drop, List.getElem?_eq_getElem hlt]
    simp only [hc, decide_eq_true_eq] at hus
    simpa using hus

/-- What is heard of is a route from the node itself. -/
theorem taught_proper {i : Input} (hi : Sound i) :
    m.taught i = [] ∨ m.Proper (ids (m.taught i)) := by
  cases i with
  | addRoute route t who_from =>
    rw [taught]
    cases h : m.pre_addRoute route t who_from with
    | none => exact .inl rfl
    | some rt => exact .inr (pre_addRoute_proper hi.1 hi.2 h)
  | noticeRouteUsed l cur_index t who_from =>
    rw [taught]
    cases h : m.pre_noticeRouteUsed l cur_index t who_from with
    | none => exact .inl rfl
    | some stub => exact .inr (pre_noticeRouteUsed_proper hi.1 hi.2.1 hi.2.2 h)
  | noticeDeadLink src dst => exact .inl rfl
  | findRoute dest for_me => exact .inl rfl

/-- What a step may do to the paths of the caches. -/
structure Follows (m : MobiCache) (i : Input) (m' : MobiCache) : Prop where
  net_id : m'.net_id = m.net_id
  MAC_id : m'.MAC_id = m.MAC_id
  ignore : m'.cache_ignore_hints = m.cache_ignore_hints
  overheard : m'.cache_use_overheard_routes = m.cache_use_overheard_routes
  primary : m'.primary_cache.Ok ∧ m'.primary_cache.cache.length = m.primary_cache.cache.length
  secondary :
    m'.secondary_cache.Ok ∧ m'.secondary_cache.cache.length = m.secondary_cache.cache.length
  ids : ∀ q ∈ m'.paths, q = [] ∨ ids q = ids (m.taught i) ∨
    ∃ p ∈ m.paths, ids q = ids p ∨ ∃ n, 2 ≤ n ∧ ids q = (ids p).take n
  links : ∀ q ∈ m'.paths, ∀ x ∈ links q, x ∈ links (m.taught i) ∨
    (∃ p ∈ m.paths, x ∈ links p) ∧ i ≠ .noticeDeadLink x.1.id x.2

theorem follows_same (hp : m.primary_cache.Ok) (hs : m.secondary_cache.Ok) {i : Input}
    (hi : ∀ src dst, i ≠ .noticeDeadLink src dst) : Follows m i m :=
  ⟨rfl, rfl, rfl, rfl, ⟨hp, rfl⟩, ⟨hs, rfl⟩, fun q hq => .inr (.inr ⟨q, hq, .inl rfl⟩),
    fun q hq _ hx => .inr ⟨⟨q, hq, hx⟩, hi _ _⟩⟩

theorem follows_primary (hp : m.primary_cache.Ok) (hs : m.secondary_cache.Ok) {i : Input}
    (hi : ∀ src dst, i ≠ .noticeDeadLink src dst) (htaught : m.taught i = path) :
    Follows m i { m with primary_cache := (m.primary_cache.addRoute path).1 } := by
  obtain ⟨hok, hlen, -, hpaths⟩ := addRoute_spec hp path
  refine ⟨rfl, rfl, rfl, rfl, ⟨hok, hlen⟩, ⟨hs, rfl⟩, fun q hq => ?_, fun q hq x hx => ?_⟩ <;>
    rw [htaught] <;> rcases List.mem_append.mp hq with hq | hq
  · obtain ⟨he, -⟩ | ⟨p, hp, he, -⟩ := hpaths q hq
    · exact .inr (.inl he)
    · exact .inr (.inr ⟨p, List.mem_append_left _ hp, .inl he⟩)
  · exact .inr (.inr ⟨q, List.mem_append_right _ hq, .inl rfl⟩)
  · obtain ⟨-, hl⟩ | ⟨p, hp, -, hl⟩ := hpaths q hq
    · exact .inl (hl hx)
    · rcases List.mem_append.mp (hl hx) with hx | hx
      · exact .inr ⟨⟨p, List.mem_append_left _ hp, hx⟩, hi _ _⟩
      · exact .inl hx
  · exact .inr ⟨⟨q, List.mem_append_right _ hq, hx⟩, hi _ _⟩

theorem follows_secondary (hp : m.primary_cache.Ok) (hs : m.secondary_cache.Ok) {i : Input}
    (hi : ∀ src dst, i ≠ .noticeDeadLink src dst) (htaught : m.taught i = path) :
    Follows m i { m with secondary_cache := (m.secondary_cache.addRoute path).1 } := by
  obtain ⟨hok, hlen, -, hpaths⟩ := addRoute_spec hs path
  refine ⟨rfl, rfl, rfl, rfl, ⟨hp, rfl⟩, ⟨hok, hlen⟩, fun q hq => ?_, fun q hq x hx => ?_⟩ <;>
    rw [htaught] <;> rcases List.mem_append.mp hq with hq | hq
  · exact .inr (.inr ⟨q, List.mem_append_left _ hq, .inl rfl⟩)
  · obtain ⟨he, -⟩ | ⟨p, hp, he, -⟩ := hpaths q hq
    · exact .inr (.inl he)
    · exact .inr (.inr ⟨p, List.mem_append_right _ hp, .inl he⟩)
  · exact .inr ⟨⟨q, List.mem_append_left _ hq, hx⟩, hi _ _⟩
  · obtain ⟨-, hl⟩ | ⟨p, hp, -, hl⟩ := hpaths q hq
    · exact .inl (hl hx)
    · rcases List.mem_append.mp (hl hx) with hx | hx
      · exact .inr ⟨⟨p, List.mem_append_right _ hp, hx⟩, hi _ _⟩
      · exact .inl hx

theorem follows_dead (hp : m.primary_cache.Ok) (hs : m.secondary_cache.Ok) (src dst : ID) :
    Follows m (.noticeDeadLink src dst) (m.noticeDeadLink src dst) := by
  have hpaths : (m.noticeDeadLink src dst).paths = m.paths.map (truncate src dst) := by
    simp [paths, noticeDeadLink, Cache.noticeDeadLink]
  refine ⟨rfl, rfl, rfl, rfl, ⟨?_, by simp [noticeDeadLink, Cache.noticeDeadLink]⟩,
    ⟨?_, by simp [noticeDeadLink, Cache.noticeDeadLink]⟩, fun q hq => ?_, fun q hq x hx => ?_⟩
  · unfold Cache.Ok at hp ⊢
    simpa [noticeDeadLink, Cache.noticeDeadLink] using hp
  · unfold Cache.Ok at hs ⊢
    simpa [noticeDeadLink, Cache.noticeDeadLink] using hs
  · rw [hpaths] at hq
    obtain ⟨p, hp, rfl⟩ := List.mem_map.mp hq
    obtain ⟨hcut | ⟨n, hn, hcut⟩, -⟩ | ⟨hsame, -⟩ := truncate_spec src dst p
    · exact .inl hcut
    · exact .inr (.inr ⟨p, hp, .inr ⟨n, hn, by rw [hcut, MobiCache.ids, List.map_take]; rfl⟩⟩)
    · exact .inr (.inr ⟨p, hp, .inl (by rw [hsame])⟩)
  · rw [hpaths] at hq
    obtain ⟨p, hp, rfl⟩ := List.mem_map.mp hq
    have hlive : x ∈ MobiCache.links p ∧ ¬ Dead src dst x := by
      obtain ⟨-, hl⟩ | ⟨hsame, hl⟩ := truncate_spec src dst p
      · exact hl x hx
      · rw [hsame] at hx
        exact ⟨hx, hl x hx⟩
    refine .inr ⟨⟨p, hp, hlive.1⟩, fun he => hlive.2 ?_⟩
    obtain ⟨hsrc, hdst⟩ := Input.noticeDeadLink.inj he
    exact ⟨hsrc.symm, hdst.symm⟩

/-- What `findRoute` finds: the best path of the secondary cache if it is shorter than all of the
primary, else the best of the primary. -/
theorem findRoute_cases (m : MobiCache) (dest : ID) (for_me : Bool) :
    (m.findRoute dest for_me = (m, none) ∧
      ∀ p ∈ m.paths, ∀ k, (ids p)[k]? = some dest → MAX_SR_LEN < k) ∨
    ∃ k p, (m.findRoute dest for_me).2 = some (p.take (k + 1)) ∧ p ∈ m.paths ∧
      (ids p)[k]? = some dest ∧ (∀ q ∈ m.paths, ∀ j, (ids q)[j]? = some dest → k ≤ j) ∧
      (((m.findRoute dest for_me).1 = m ∧ (for_me = true → p ∈ m.primary_cache.cache)) ∨
        for_me = true ∧ ∃ i, m.secondary_cache.cache[i]? = some p ∧
          (m.findRoute dest for_me).1 = m.promote i) := by
  obtain ⟨hle, hbest, hfirst⟩ := searchLoop_spec dest m.primary_cache.cache 0 (MAX_SR_LEN + 1) none
  obtain ⟨hle', hbest', hsecond⟩ := searchLoop_spec dest m.secondary_cache.cache 0
    (searchLoop dest 0 m.primary_cache.cache (MAX_SR_LEN + 1) none).1 none
  unfold findRoute
  dsimp only
  generalize hr : searchLoop dest 0 m.primary_cache.cache (MAX_SR_LEN + 1) none = r at *
  generalize hr' : searchLoop dest 0 m.secondary_cache.cache r.1 none = r' at *
  obtain rfl | ⟨k, i, p, rfl, hk, hi, hdest⟩ := hsecond
  · -- no better path in the secondary cache
    have hall : ∀ q ∈ m.paths, ∀ j, (ids q)[j]? = some dest → r.1 ≤ j := by
      intro q hq j hj
      rcases List.mem_append.mp hq with hq | hq
      · exact hbest q hq j hj
      · exact hbest' q hq j hj
    obtain rfl | ⟨k, i, p, rfl, hk, hi, hdest⟩ := hfirst
    · exact .inl ⟨rfl, hall⟩
    · have hp := List.mem_of_getElem? hi
      exact .inr ⟨k, p, rfl, List.mem_append_left _ hp, hdest, hall, .inl ⟨rfl, fun _ => hp⟩⟩
  · have hp := List.mem_of_getElem? hi
    refine .inr ⟨k, p, rfl, List.mem_append_right _ hp, hdest, fun q hq j hj => ?_, ?_⟩
    · rcases List.mem_append.mp hq with hq | hq
      · exact hle'.trans (hbest q hq j hj)
      · exact hbest' q hq j hj
    · cases for_me with
      | false => exact .inl ⟨rfl, by simp⟩
      | true => exact .inr ⟨rfl, i, hi, by simp⟩

theorem follows_promote (hp : m.primary_cache.Ok) (hs : m.secondary_cache.Ok)
    (hi : m.secondary_cache.cache[index]? = some p) (dest : ID) (for_me : Bool) :
    Follows m (.findRoute dest for_me) (m.promote index) := by
  have hget : m.secondary_cache.cache.getD index [] = p := by
    rw [List.getD_eq_getElem?_getD, hi]
    rfl
  have hmem : p ∈ m.paths := List.mem_append_right _ (List.mem_of_getElem? hi)
  obtain ⟨hok, hlen, -, hpaths⟩ := addRoute_spec hp p
  have hempty : ∀ q ∈ m.secondary_cache.cache.set index [], q = [] ∨ q ∈ m.paths := by
    intro q hq
    rcases List.mem_or_eq_of_mem_set hq with hq | hq
    · exact .inr (List.mem_append_right _ hq)
    · exact .inl hq
  unfold promote
  rw [hget]
  refine ⟨rfl, rfl, rfl, rfl, ⟨hok, hlen⟩, ⟨?_, List.length_set ..⟩, fun q hq => ?_,
    fun q hq x hx => ?_⟩
  · unfold Cache.Ok at hs ⊢
    simpa using hs
  · rcases List.mem_append.mp hq with hq | hq
    · obtain ⟨he, -⟩ | ⟨p', hp', he, -⟩ := hpaths q hq
      · exact .inr (.inr ⟨p, hmem, .inl he⟩)
      · exact .inr (.inr ⟨p', List.mem_append_left _ hp', .inl he⟩)
    · exact (hempty q hq).imp_right fun hq => .inr ⟨q, hq, .inl rfl⟩
  · refine .inr ⟨?_, by simp⟩
    rcases List.mem_append.mp hq with hq | hq
    · obtain ⟨-, hl⟩ | ⟨p', hp', -, hl⟩ := hpaths q hq
      · exact ⟨p, hmem, hl hx⟩
      · rcases List.mem_append.mp (hl hx) with hx | hx
        · exact ⟨p', List.mem_append_left _ hp', hx⟩
        · exact ⟨p, hmem, hx⟩
    · rcases hempty q hq with rfl | hq
      · cases hx
      · exact ⟨q, hq, hx⟩

theorem step_follows (hp : m.primary_cache.Ok) (hs : m.secondary_cache.Ok) (i : Input) :
    ∃ m' o, m.step i = some (m', o) ∧ Follows m i m' := by
  cases i with
  | addRoute route t who_from =>
    refine ⟨_, _, rfl, ?_⟩
    unfold addRoute
    cases h : m.pre_addRoute route t who_from with
    | none => exact follows_same hp hs (by simp)
    | some rt => exact follows_primary hp hs (by simp) (by rw [taught, h]; rfl)
  | noticeRouteUsed l cur_index t who_from =>
    refine ⟨_, _, rfl, ?_⟩
    unfold noticeRouteUsed
    cases h : m.pre_noticeRouteUsed l cur_index t who_from with
    | none => exact follows_same hp hs (by simp)
    | some stub => exact follows_secondary hp hs (by simp) (by rw [taught, h]; rfl)
  | noticeDeadLink src dst => exact ⟨_, _, rfl, follows_dead hp hs src dst⟩
  | findRoute dest for_me =>
    refine ⟨(m.findRoute dest for_me).1, (m.findRoute dest for_me).2, rfl, ?_⟩
    obtain ⟨hsame, -⟩ | ⟨k, p, -, -, -, -, ⟨hsame, -⟩ | ⟨-, i, hi, hpromote⟩⟩ :=
      findRoute_cases m dest for_me
    · rw [hsame]
      exact follows_same hp hs (by simp)
    · rw [hsame]
      exact follows_same hp hs (by simp)
    · rw [hpromote]
      exact follows_promote hp hs hi dest for_me

theorem Proper.of_take {l : List ID} (h : m.Proper l) (hn : 2 ≤ n) : m.Proper (l.take n) := by
  obtain ⟨hnd, hlong, hshort, hstarts⟩ := h
  refine ⟨hnd.sublist (List.take_sublist n l), ?_, ?_, ?_⟩
  · rw [List.length_take]
    omega
  · rw [List.length_take]
    omega
  · have hhead : (l.take n).head? = l.head? := by
      rw [List.head?_take, if_neg (by omega)]
    rw [hhead]
    exact hstarts

/-- The paths stay routes from the node itself. -/
theorem Follows.ok {i : Input} (h : Follows m i m') (hm : m.Ok) (hi : Sound i) : m'.Ok := by
  have hsame : ∀ l, m.Proper l → m'.Proper l := fun l hl =>
    ⟨hl.nodup, hl.long, hl.short, by rw [h.net_id, h.MAC_id]; exact hl.starts⟩
  refine ⟨h.primary.1, h.secondary.1, fun q hq => ?_⟩
  obtain rfl | he | ⟨p, hp, he⟩ := h.ids q hq
  · exact .inl rfl
  · rcases taught_proper (m := m) hi with hnone | hproper
    · rw [hnone] at he
      exact .inl (List.map_eq_nil_iff.mp he)
    · exact .inr (hsame _ (he ▸ hproper))
  · rcases hm.proper p hp with rfl | hproper
    · have hnil : MobiCache.ids q = [] := by
        rcases he with he | ⟨n, -, he⟩
        · exact he
        · exact he.trans List.take_nil
      exact .inl (List.map_eq_nil_iff.mp hnil)
    · rcases he with he | ⟨n, hn, he⟩
      · exact .inr (hsame _ (he ▸ hproper))
      · exact .inr (hsame _ (he ▸ hproper.of_take hn))

theorem Follows.taught {i : Input} (h : Follows m i m') (j : Input) : m'.taught j = m.taught j := by
  cases j with
  | addRoute route t who_from =>
    simp only [MobiCache.taught, pre_addRoute, h.net_id, h.MAC_id]
  | noticeRouteUsed l cur_index t who_from =>
    simp only [MobiCache.taught, pre_noticeRouteUsed, h.net_id, h.MAC_id, h.ignore, h.overheard]
  | noticeDeadLink src dst => rfl
  | findRoute dest for_me => rfl

theorem eq_nil_of_initial {net_id MAC_id : ID} {ignore overheard : Bool}
    (hp : p ∈ (initial net_id MAC_id ignore overheard).paths) : p = [] := by
  rcases List.mem_append.mp hp with hp | hp
  · exact List.eq_of_mem_replicate hp
  · exact List.eq_of_mem_replicate hp

theorem initial_ok (net_id MAC_id : ID) (ignore overheard : Bool) :
    (initial net_id MAC_id ignore overheard).Ok :=
  ⟨by simp [Cache.Ok, initial], by simp [Cache.Ok, initial],
    fun _ hp => .inl (eq_nil_of_initial hp)⟩

theorem run_ok (net_id MAC_id : ID) (ignore overheard : Bool) {is : List Input}
    (h : ∀ i ∈ is, Sound i) :
    ∃ m os, Machine.run step (initial net_id MAC_id ignore overheard) is = some (m, os) ∧
      (m.Ok ∧ m.primary_cache.cache.length = 30 ∧ m.secondary_cache.cache.length = 64 ∧
        m.net_id = net_id ∧ m.MAC_id = MAC_id) ∧
      ∀ j, m.taught j = (initial net_id MAC_id ignore overheard).taught j :=
  Machine.run_total (I := fun m : MobiCache => (m.Ok ∧ m.primary_cache.cache.length = 30 ∧
      m.secondary_cache.cache.length = 64 ∧ m.net_id = net_id ∧ m.MAC_id = MAC_id) ∧
      ∀ j, m.taught j = (initial net_id MAC_id ignore overheard).taught j)
    (fun m i ⟨⟨hm, hprimary, hsecondary, hnet, hMAC⟩, htaught⟩ hi => by
      obtain ⟨m', o, hs, hf⟩ := step_follows hm.primary hm.secondary i
      exact ⟨m', o, hs, ⟨hf.ok hm hi, hf.primary.2.trans hprimary, hf.secondary.2.trans hsecondary,
        hf.net_id.trans hnet, hf.MAC_id.trans hMAC⟩, fun j => (hf.taught j).trans (htaught j)⟩)
    ⟨⟨initial_ok .., List.length_replicate, List.length_replicate, rfl, rfl⟩, fun _ => rfl⟩
    (Machine.admits_of_forall h _)

/-- In every run the cached paths are routes from the node itself, of at most the length that a
packet holds, without a node twice, and the caches keep their sizes. -/
theorem stays_proper (net_id MAC_id : ID) (ignore overheard : Bool) {is : List Input}
    (h : ∀ i ∈ is, Sound i) :
    ∃ m os, Machine.run step (initial net_id MAC_id ignore overheard) is = some (m, os) ∧ m.Ok ∧
      m.primary_cache.cache.length = 30 ∧ m.secondary_cache.cache.length = 64 ∧
      m.net_id = net_id ∧ m.MAC_id = MAC_id := by
  obtain ⟨m, os, hrun, hm, -⟩ := run_ok net_id MAC_id ignore overheard h
  exact ⟨m, os, hrun, hm⟩

/-- Routes to two nodes, one of which is used when the link behind the first node is dead. -/
def inputs : List Input :=
  [.addRoute [⟨1, .ip⟩, ⟨2, .ip⟩, ⟨3, .ip⟩] 1 ⟨2, .ip⟩,
    .noticeRouteUsed [⟨1, .ip⟩, ⟨4, .ip⟩, ⟨3, .ip⟩, ⟨5, .ip⟩] 1 2 ⟨4, .ip⟩,
    .noticeDeadLink ⟨2, .ip⟩ ⟨3, .ip⟩, .findRoute ⟨3, .ip⟩ true]

theorem stays_proper_inputs :
    ∃ m os, Machine.run step (initial ⟨1, .ip⟩ ⟨1, .mac⟩ false true) inputs = some (m, os) ∧ m.Ok ∧
      m.primary_cache.cache.length = 30 ∧ m.secondary_cache.cache.length = 64 ∧
      m.net_id = ⟨1, .ip⟩ ∧ m.MAC_id = ⟨1, .mac⟩ :=
  stays_proper ⟨1, .ip⟩ ⟨1, .mac⟩ false true (by decide)

/-- A link was heard of, with what the cache knows of it, and not reported dead since. -/
def Heard (m : MobiCache) (is : List Input) (x : Hop × ID) : Prop :=
  ∃ pre i post, is = pre ++ i :: post ∧ x ∈ links (m.taught i) ∧
    Input.noticeDeadLink x.1.id x.2 ∉ post

theorem Heard.concat {is : List Input} {x : Hop × ID} (h : m.Heard is x) {i : Input}
    (hi : i ≠ .noticeDeadLink x.1.id x.2) : m.Heard (is ++ [i]) x := by
  obtain ⟨pre, j, post, rfl, hx, hdead⟩ := h
  refine ⟨pre, j, post ++ [i], by simp, hx, ?_⟩
  simp only [List.mem_append, List.mem_singleton, not_or]
  exact ⟨hdead, hi.symm⟩

/-- What a step hands out is the beginning of a cached path. -/
theorem step_out {i : Input} {r : List Hop} (h : m.step i = some (m', some r)) :
    ∃ p ∈ m.paths, ∃ n, r = p.take n := by
  cases i with
  | findRoute dest for_me =>
    have ho : (m.findRoute dest for_me).2 = some r := congrArg Prod.snd (Option.some.inj h)
    obtain ⟨hnone, -⟩ | ⟨k, p, hr, hp, -⟩ := findRoute_cases m dest for_me
    · rw [hnone] at ho
      cases ho
    · exact ⟨p, hp, k + 1, Option.some.inj (ho.symm.trans hr)⟩
  | addRoute route t who_from => cases congrArg Prod.snd (Option.some.inj h)
  | noticeRouteUsed l cur_index t who_from => cases congrArg Prod.snd (Option.some.inj h)
  | noticeDeadLink src dst => cases congrArg Prod.snd (Option.some.inj h)

/-- Every link of the caches, and of every route that is handed out, was heard of in a route of the
run, with the time and the type that the cache has for it, and was not reported dead since. -/
theorem heard_since (net_id MAC_id : ID) (ignore overheard : Bool) (is : List Input) :
    ∃ m os, Machine.run step (initial net_id MAC_id ignore overheard) is = some (m, os) ∧
      (∀ p ∈ m.paths, ∀ x ∈ links p, (initial net_id MAC_id ignore overheard).Heard is x) ∧
      ∀ k r, os[k]? = some (some r) → ∀ x ∈ links r,
        (initial net_id MAC_id ignore overheard).Heard (is.take k) x := by
  have hrun := Machine.run_history
    (I := fun is os m => (m.primary_cache.Ok ∧ m.secondary_cache.Ok ∧ os.length = is.length ∧
      ∀ j, m.taught j = (initial net_id MAC_id ignore overheard).taught j) ∧
      (∀ p ∈ m.paths, ∀ x ∈ links p, (initial net_id MAC_id ignore overheard).Heard is x) ∧
      ∀ k r, os[k]? = some (some r) → ∀ x ∈ links r,
        (initial net_id MAC_id ignore overheard).Heard (is.take k) x)
    ?_ ?_ (Machine.admits_true step (initial net_id MAC_id ignore overheard) is)
  · obtain ⟨m, os, hrun, -, hpaths, hout⟩ := hrun
    exact ⟨m, os, hrun, hpaths, hout⟩
  · rintro is os m i ⟨⟨hp, hs, hlen, htaught⟩, hpaths, hout⟩ -
    obtain ⟨m', o, hstep, hf⟩ := step_follows hp hs i
    refine ⟨m', o, hstep, ⟨hf.primary.1, hf.secondary.1, by simp [hlen],
      fun j => (hf.taught j).trans (htaught j)⟩, fun q hq x hx => ?_, fun k r hk x hx => ?_⟩
    · obtain hx | ⟨⟨p, hp, hx⟩, hi⟩ := hf.links q hq x hx
      · exact ⟨is, i, [], rfl, by rw [← htaught]; exact hx, by simp⟩
      · exact (hpaths p hp x hx).concat hi
    · have hk' : k ≤ is.length := by
        have := (List.getElem?_eq_some_iff.mp hk).1
        simp at this
        omega
      rw [List.take_append_of_le_length hk']
      by_cases hold : k < os.length
      · rw [List.getElem?_append_left hold] at hk
        exact hout k r hk x hx
      · -- the route that this step hands out
        obtain rfl : k = os.length := by omega
        rw [List.getElem?_concat_length] at hk
        obtain rfl := Option.some.inj hk
        rw [hlen, List.take_length]
        obtain ⟨p, hp, n, rfl⟩ := step_out hstep
        exact hpaths p hp x (links_take p n hx)
  · refine ⟨⟨(initial_ok ..).primary, (initial_ok ..).secondary, rfl, fun j => rfl⟩,
      fun p hp x hx => ?_, by simp⟩
    rw [eq_nil_of_initial hp] at hx
    cases hx

theorem position_lt (hm : m.Ok) (hp : p ∈ m.paths) (hn : (ids p)[n]? = some dest) :
    n < MAX_SR_LEN := by
  have hlt := (List.getElem?_eq_some_iff.mp hn).1
  rcases hm.proper p hp with rfl | hproper
  · simp at hlt
  · exact hlt.trans_le hproper.short

/-- The cache finds what one of its paths reaches, by a beginning of a path, and no path gets there
in fewer hops. -/
theorem findRoute_spec (hm : m.Ok) (dest : ID) (for_me : Bool) :
    ((m.findRoute dest for_me).2 = none ∧ ∀ p ∈ m.paths, dest ∉ ids p) ∨
    ∃ r, (m.findRoute dest for_me).2 = some r ∧ (∃ p ∈ m.paths, r <+: p) ∧ (ids r).Nodup ∧
      ((ids r).head? = some m.net_id ∨ (ids r).head? = some m.MAC_id) ∧
      (ids r).getLast? = some dest ∧
      ∀ q ∈ m.paths, ∀ j, (ids q)[j]? = some dest → r.length ≤ j + 1 := by
  obtain ⟨hnone, hfar⟩ | ⟨k, p, hr, hp, hk, hbest, -⟩ := findRoute_cases m dest for_me
  · refine .inl ⟨by rw [hnone], fun p hp hdest => ?_⟩
    obtain ⟨j, hj⟩ := List.mem_iff_getElem?.mp hdest
    have := hfar p hp j hj
    have := position_lt hm hp hj
    omega
  · obtain ⟨hlt, hget⟩ := List.getElem?_eq_some_iff.mp hk
    have hids : ids (p.take (k + 1)) = (ids p).take (k + 1) := List.map_take
    have hproper : m.Proper (ids p) := by
      rcases hm.proper p hp with rfl | hproper
      · simp at hlt
      · exact hproper
    refine .inr ⟨_, hr, ⟨p, hp, List.take_prefix _ _⟩, ?_, ?_, ?_, fun q hq j hj => ?_⟩
    · rw [hids]
      exact hproper.nodup.sublist (List.take_sublist _ _)
    · rw [hids, List.head?_take, if_neg (Nat.succ_ne_zero k)]
      exact hproper.starts
    · rw [hids, List.getLast?_take, if_neg (Nat.succ_ne_zero k), Nat.add_sub_cancel, hk]
      rfl
    · have := hbest q hq j hj
      rw [List.length_take]
      omega

/-- In every run, a node is found if and only if a cached path leads to it, and then by a shortest
of the routes that the cached paths hold. -/
theorem finds_shortest (net_id MAC_id : ID) (ignore overheard : Bool) {is : List Input}
    (h : ∀ i ∈ is, Sound i) :
    ∃ m os, Machine.run step (initial net_id MAC_id ignore overheard) is = some (m, os) ∧
      ∀ dest for_me, ((m.findRoute dest for_me).2 = none ∧ ∀ p ∈ m.paths, dest ∉ ids p) ∨
        ∃ r, (m.findRoute dest for_me).2 = some r ∧ (∃ p ∈ m.paths, r <+: p) ∧ (ids r).Nodup ∧
          ((ids r).head? = some net_id ∨ (ids r).head? = some MAC_id) ∧
          (ids r).getLast? = some dest ∧
          ∀ q ∈ m.paths, ∀ j, (ids q)[j]? = some dest → r.length ≤ j + 1 := by
  obtain ⟨m, os, hrun, ⟨hm, -, -, rfl, rfl⟩, -⟩ := run_ok net_id MAC_id ignore overheard h
  exact ⟨m, os, hrun, findRoute_spec hm⟩

theorem finds_shortest_inputs :
    ∃ m os, Machine.run step (initial ⟨1, .ip⟩ ⟨1, .mac⟩ false true) inputs = some (m, os) ∧
      ∀ dest for_me, ((m.findRoute dest for_me).2 = none ∧ ∀ p ∈ m.paths, dest ∉ ids p) ∨
        ∃ r, (m.findRoute dest for_me).2 = some r ∧ (∃ p ∈ m.paths, r <+: p) ∧ (ids r).Nodup ∧
          ((ids r).head? = some ⟨1, .ip⟩ ∨ (ids r).head? = some ⟨1, .mac⟩) ∧
          (ids r).getLast? = some dest ∧
          ∀ q ∈ m.paths, ∀ j, (ids q)[j]? = some dest → r.length ≤ j + 1 :=
  finds_shortest ⟨1, .ip⟩ ⟨1, .mac⟩ false true (by decide)

/-- What is heard of is in a cache afterwards. -/
theorem taught_cached {i : Input} {o : Option (List Hop)} (hp : m.primary_cache.Ok)
    (hs : m.secondary_cache.Ok) (h : m.step i = some (m', o)) :
    m.taught i = [] ∨ ∃ q ∈ m'.paths, ids (m.taught i) <+: ids q := by
  cases i with
  | addRoute route t who_from =>
    have hm' : m.addRoute route t who_from = m' := congrArg Prod.fst (Option.some.inj h)
    rw [taught, ← hm', addRoute]
    cases hpre : m.pre_addRoute route t who_from with
    | none => exact .inl rfl
    | some rt =>
      obtain ⟨-, -, ⟨q, hq, hle⟩, -⟩ := addRoute_spec hp rt
      exact .inr ⟨q, List.mem_append_left _ hq, hle⟩
  | noticeRouteUsed l cur_index t who_from =>
    have hm' : m.noticeRouteUsed l cur_index t who_from = m' :=
      congrArg Prod.fst (Option.some.inj h)
    rw [taught, ← hm', noticeRouteUsed]
    cases hpre : m.pre_noticeRouteUsed l cur_index t who_from with
    | none => exact .inl rfl
    | some stub =>
      obtain ⟨-, -, ⟨q, hq, hle⟩, -⟩ := addRoute_spec hs stub
      exact .inr ⟨q, List.mem_append_right _ hq, hle⟩
  | noticeDeadLink src dst => exact .inl rfl
  | findRoute dest for_me => exact .inl rfl

theorem getElem?_of_begins {l l' : List ID} (h : l <+: l') (hn : l[n]? = some dest) :
    l'[n]? = some dest := by
  obtain ⟨t, rfl⟩ := h
  rw [List.getElem?_append_left (List.getElem?_eq_some_iff.mp hn).1]
  exact hn

/-- A path with the node among its nodes makes the search succeed. -/
theorem found_of_path (hm : m.Ok) (hp : p ∈ m.paths) (hn : (ids p)[n]? = some dest)
    (for_me : Bool) : ∃ r, (m.findRoute dest for_me).2 = some r ∧ r.length ≤ n + 1 := by
  obtain ⟨-, hnone⟩ | ⟨r, hr, -, -, -, -, hbest⟩ := findRoute_spec hm dest for_me
  · exact absurd (List.mem_of_getElem? hn) (hnone p hp)
  · exact ⟨r, hr, hbest p hp n hn⟩

/-- After a route is heard of, each of its nodes is found, in no more hops than by the route. -/
theorem taught_found (net_id MAC_id : ID) (ignore overheard : Bool) {is : List Input} {i : Input}
    (h : ∀ j ∈ is ++ [i], Sound j) :
    ∃ m os, Machine.run step (initial net_id MAC_id ignore overheard) (is ++ [i]) = some (m, os) ∧
      ∀ k dest, (ids ((initial net_id MAC_id ignore overheard).taught i))[k]? = some dest →
        ∀ for_me, ∃ r, (m.findRoute dest for_me).2 = some r ∧ r.length ≤ k + 1 := by
  obtain ⟨m, os, hrun, ⟨hm, -⟩, htaught⟩ := run_ok net_id MAC_id ignore overheard fun j hj =>
    h j (List.mem_append_left _ hj)
  obtain ⟨m', o, hs, hf⟩ := step_follows hm.primary hm.secondary i
  refine ⟨m', os ++ [o], ?_, fun k dest hk for_me => ?_⟩
  · rw [Machine.run_append, hrun]
    simp [Machine.run, hs]
  · have hm' := hf.ok hm (h i (by simp))
    rw [← htaught] at hk
    obtain hnone | ⟨q, hq, hle⟩ := taught_cached hm.primary hm.secondary hs
    · simp [hnone] at hk
    · exact found_of_path hm' hq (getElem?_of_begins hle hk) for_me

theorem taught_found_inputs :
    ∃ m os, Machine.run step (initial ⟨1, .ip⟩ ⟨1, .mac⟩ false true)
        (inputs ++ [.addRoute [⟨1, .ip⟩, ⟨6, .ip⟩] 3 ⟨6, .ip⟩]) = some (m, os) ∧
      ∀ k dest, (ids ((initial ⟨1, .ip⟩ ⟨1, .mac⟩ false true).taught
          (.addRoute [⟨1, .ip⟩, ⟨6, .ip⟩] 3 ⟨6, .ip⟩)))[k]? = some dest →
        ∀ for_me, ∃ r, (m.findRoute dest for_me).2 = some r ∧ r.length ≤ k + 1 :=
  taught_found ⟨1, .ip⟩ ⟨1, .mac⟩ false true (by decide)

/-- A path whose beginning is found for use is in the primary cache from then on, whether it was
there or is promoted. -/
theorem used_held {r : List Hop} (hm : m.primary_cache.Ok)
    (hr : (m.findRoute dest true).2 = some r) :
    ∃ k p, r = p.take (k + 1) ∧ (ids p)[k]? = some dest ∧
      (∀ q ∈ m.paths, ∀ j, (ids q)[j]? = some dest → k ≤ j) ∧
      ∃ q ∈ (m.findRoute dest true).1.primary_cache.cache, ids p <+: ids q := by
  obtain ⟨hnone, -⟩ | ⟨k, p, hr', hp, hk, hbest, hcase⟩ := findRoute_cases m dest true
  · rw [hnone] at hr
    cases hr
  refine ⟨k, p, Option.some.inj (hr.symm.trans hr'), hk, hbest, ?_⟩
  obtain ⟨hsame, hprimary⟩ | ⟨-, i, hi, hpromote⟩ := hcase
  · rw [hsame]
    exact ⟨p, hprimary rfl, List.prefix_rfl⟩
  · obtain ⟨-, -, hheld, -⟩ := addRoute_spec hm p
    have hget : m.secondary_cache.cache.getD i [] = p := by
      rw [List.getD_eq_getElem?_getD, hi]
      rfl
    rw [hpromote, promote, hget]
    exact hheld

/-- Where nothing is heard of, no path leads anywhere sooner than before. -/
theorem Follows.reached {i : Input} (h : Follows m i m') (hi : m.taught i = [])
    (hp : p ∈ m'.paths) (hn : (MobiCache.ids p)[n]? = some dest) :
    ∃ q ∈ m.paths, (MobiCache.ids q)[n]? = some dest := by
  obtain rfl | he | ⟨q, hq, he | ⟨k, -, he⟩⟩ := h.ids p hp
  · simp at hn
  · rw [hi] at he
    rw [show MobiCache.ids p = [] from he] at hn
    cases hn
  · exact ⟨q, hq, by rw [← he]; exact hn⟩
  · rw [show MobiCache.ids p = (MobiCache.ids q).take k from he] at hn
    exact ⟨q, hq, getElem?_of_begins (List.take_prefix k _) hn⟩

/-- A route that is found for use is in the primary cache from then on, and what is found next is
as short. -/
theorem use_keeps (net_id MAC_id : ID) (ignore overheard : Bool) {is : List Input}
    (h : ∀ i ∈ is, Sound i) :
    ∃ m os, Machine.run step (initial net_id MAC_id ignore overheard) is = some (m, os) ∧
      ∀ dest r, (m.findRoute dest true).2 = some r →
        (∃ p ∈ (m.findRoute dest true).1.primary_cache.cache, ids r <+: ids p) ∧
        ∀ for_me, ∃ r', ((m.findRoute dest true).1.findRoute dest for_me).2 = some r' ∧
          r'.length = r.length := by
  obtain ⟨m, os, hrun, ⟨hm, -⟩, -⟩ := run_ok net_id MAC_id ignore overheard h
  refine ⟨m, os, hrun, fun dest r hr => ?_⟩
  obtain ⟨m', o, hs, hf⟩ := step_follows hm.primary hm.secondary (.findRoute dest true)
  obtain rfl : (m.findRoute dest true).1 = m' := congrArg Prod.fst (Option.some.inj hs)
  have hm' := hf.ok hm trivial
  obtain ⟨k, p, rfl, hk, hbest, q, hq, hpq⟩ := used_held hm.primary hr
  have hlen : (p.take (k + 1)).length = k + 1 := by
    have := (List.getElem?_eq_some_iff.mp hk).1
    simp at this
    simp
    omega
  have hprefix : ids (p.take (k + 1)) <+: ids p := (List.take_prefix _ p).map Hop.id
  refine ⟨⟨q, hq, hprefix.trans hpq⟩, fun for_me => ?_⟩
  obtain ⟨r', hr', hle⟩ := found_of_path hm' (List.mem_append_left _ hq)
    (getElem?_of_begins hpq hk) for_me
  refine ⟨r', hr', le_antisymm (hle.trans hlen.ge) ?_⟩
  -- no path became shorter
  obtain ⟨hnone, -⟩ | ⟨r'', hr'', ⟨p', hp', hpre⟩, -, -, hlast, -⟩ := findRoute_spec hm' dest for_me
  · rw [hnone] at hr'
    cases hr'
  obtain rfl : r'' = r' := Option.some.inj (hr''.symm.trans hr')
  rw [List.getLast?_eq_getElem?, length_ids] at hlast
  have hj := getElem?_of_begins (hpre.map Hop.id) hlast
  obtain ⟨p₀, hp₀, hj₀⟩ := hf.reached rfl hp' hj
  have hkj := hbest p₀ hp₀ _ hj₀
  have hne : r'' ≠ [] := by
    rintro rfl
    cases hlast
  have := List.length_pos_iff.mpr hne
  omega

theorem use_keeps_inputs :
    ∃ m os, Machine.run step (initial ⟨1, .ip⟩ ⟨1, .mac⟩ false true) inputs = some (m, os) ∧
      ∀ dest r, (m.findRoute dest true).2 = some r →
        (∃ p ∈ (m.findRoute dest true).1.primary_cache.cache, ids r <+: ids p) ∧
        ∀ for_me, ∃ r', ((m.findRoute dest true).1.findRoute dest for_me).2 = some r' ∧
          r'.length = r.length :=
  use_keeps ⟨1, .ip⟩ ⟨1, .mac⟩ false true (by decide)

end MobiCache

end Ns2
