import Ns2.Nix.NixVec

/-! The breadth-first search over the nodes, and the tree of parents that it leaves. -/

namespace Ns2

structure NixNode where
  m_id : ℕ
  m_Adj : List ℕ

/-- `INF` -/
def bfsInf : ℕ := 0xffffffff

namespace Bfs

/-- The bitmap of the grey nodes, the queue, and the vectors; `none` is `NODE_NONE`. -/
structure Search where
  B : ℕ → Bool
  Q : List NixNode
  D : ℕ → ℕ
  NextHop : ℕ → Option ℕ
  Parent : ℕ → Option ℕ

def init (n : NixNode) (root : ℕ) : Search where
  B := Function.update (fun _ => false) root true
  Q := [n]
  D := Function.update (fun _ => bfsInf) root 0
  NextHop _ := none
  Parent _ := none

/-- The neighbour `v` of `u`. -/
def visit (N : List NixNode) (root : ℕ) (u : NixNode) (s : Search) (v : ℕ) : Option Search :=
  if s.B v then some s
  else
    N[v]?.map fun n =>
      { Q := s.Q ++ [n]
        B := Function.update s.B v true
        D := Function.update s.D v (s.D u.m_id + 1)
        Parent := Function.update s.Parent v (some u.m_id)
        NextHop := Function.update s.NextHop v
          (if u.m_id = root then some v else s.NextHop u.m_id) }

def loop (N : List NixNode) (root : ℕ) : ℕ → Search → Option Search
  | 0, _ => none
  | fuel + 1, s =>
    match s.Q with
    | [] => some s
    | u :: _ =>
      (u.m_Adj.foldlM (visit N root u) s).bind fun s => loop N root fuel { s with Q := s.Q.tail }

/-- `BFS`: every node is queued at most once. -/
def bfs (N : List NixNode) (root : ℕ) : Option Search :=
  N[root]?.bind fun n => loop N root (N.length + 1) (init n root)

end Bfs

/-- The nodes of a simulation. Their ids are their places, their neighbours are nodes, and each
entry of an adjacency list takes a pointer and an edge of the 32-bit address space. -/
structure NixGraph where
  nodes : List NixNode
  id : ∀ (i : ℕ) (n : NixNode), nodes[i]? = some n → n.m_id = i
  adj : ∀ n ∈ nodes, ∀ v ∈ n.m_Adj, v < nodes.length
  fits : 8 * (nodes.map fun n => n.m_Adj.length).sum ≤ 2 ^ 32

namespace NixGraph

variable (G : NixGraph)

def Step (u v : ℕ) : Prop := ∃ n, G.nodes[u]? = some n ∧ v ∈ n.m_Adj

open Bfs

/-- The search from `root`, with some nodes still queued. -/
structure Searching (root : ℕ) (s : Search) : Prop where
  start : s.B root = true ∧ s.D root = 0 ∧ s.Parent root = none
  bound : ∀ v, s.B v = true → v < G.nodes.length
  grey : ∀ v, s.B v = true → v = root ∨ ∃ u, s.Parent v = some u
  parent : ∀ v u, s.Parent v = some u → s.B v = true ∧ s.B u = true ∧ G.Step u v ∧
    s.D v = s.D u + 1
  queue : ∀ n ∈ s.Q, G.nodes[n.m_id]? = some n ∧ s.B n.m_id = true
  order : s.Q.Pairwise fun a b => s.D a.m_id ≤ s.D b.m_id
  level : ∀ n l, s.Q = n :: l → ∀ v, s.B v = true → s.D v ≤ s.D n.m_id + 1
  closed : ∀ v, s.B v = true → (∀ n ∈ s.Q, n.m_id ≠ v) → ∀ x, G.Step v x →
    s.B x = true ∧ s.D x ≤ s.D v + 1

/-- The nodes that are still to be taken from the queue. -/
def pending (s : Search) : ℕ :=
  s.Q.length + ((Finset.range G.nodes.length).filter fun v => s.B v = false).card

variable {G}

theorem searching_init {root : ℕ} {n : NixNode} (hn : G.nodes[root]? = some n) :
    G.Searching root (init n root) where
  start := by simp [init]
  bound v hv := by
    by_cases h : v = root
    · exact h ▸ (List.getElem?_eq_some_iff.mp hn).1
    · simp [init, h] at hv
  grey v hv := by
    by_cases h : v = root
    · exact .inl h
    · simp [init, h] at hv
  parent v u h := by cases h
  queue m hm := by
    obtain rfl := List.mem_singleton.mp hm
    rw [G.id root m hn]
    exact ⟨hn, by simp [init]⟩
  order := List.pairwise_singleton _ _
  level m l _ v hv := by
    by_cases h : v = root
    · simp [init, h]
    · simp [init, h] at hv
  closed v hv hno := by
    by_cases h : v = root
    · exact absurd (G.id root n hn) (h ▸ hno n (by simp [init]))
    · simp [init, h] at hv

/-- What a visit adds. -/
structure Grows (s s' : Search) : Prop where
  head : ∀ n l, s.Q = n :: l → ∃ l', s'.Q = n :: l'
  grey : ∀ v, s.B v = true → s'.B v = true ∧ s'.D v = s.D v

theorem Grows.refl (s : Search) : Grows s s := ⟨fun _ l h => ⟨l, h⟩, fun _ h => ⟨h, rfl⟩⟩

theorem Grows.trans {s s' s'' : Search} (h : Grows s s') (h' : Grows s' s'') : Grows s s'' where
  head n l hq := by
    obtain ⟨l', hl'⟩ := h.head n l hq
    exact h'.head n l' hl'
  grey v hv := by
    obtain ⟨h1, h2⟩ := h.grey v hv
    obtain ⟨h3, h4⟩ := h'.grey v h1
    exact ⟨h3, h4.trans h2⟩

theorem Searching.visit {root : ℕ} {s : Search} {u : NixNode} {l : List NixNode}
    (h : G.Searching root s) (hq : s.Q = u :: l) {v : ℕ} (hv : v ∈ u.m_Adj) :
    ∃ s', Bfs.visit G.nodes root u s v = some s' ∧ G.Searching root s' ∧ Grows s s' ∧
      s'.B v = true ∧ s'.D v ≤ s'.D u.m_id + 1 ∧ G.pending s' = G.pending s := by
  obtain ⟨hu, hgrey⟩ := h.queue u (by simp [hq])
  unfold Bfs.visit
  by_cases hb : s.B v = true
  · exact ⟨s, if_pos hb, h, .refl s, hb, h.level u l hq v hb, rfl⟩
  · have hlt : v < G.nodes.length := G.adj u (List.mem_of_getElem? hu) v hv
    obtain ⟨n, hn⟩ : ∃ n, G.nodes[v]? = some n := ⟨_, List.getElem?_eq_getElem hlt⟩
    have hid := G.id v n hn
    have huv : u.m_id ≠ v := fun he => hb (he ▸ hgrey)
    have hold : ∀ x, s.B x = true → x ≠ v := fun x hx he => hb (he ▸ hx)
    rw [if_neg hb, hn, Option.map_some]
    have hB : ∀ x, Function.update s.B v true x = true ↔ x = v ∨ s.B x = true := fun x => by
      by_cases hx : x = v <;> simp [hx]
    have hD : ∀ x, s.B x = true → Function.update s.D v (s.D u.m_id + 1) x = s.D x := fun x hx =>
      Function.update_of_ne (hold x hx) _ _
    have hvroot : v ≠ root := (hold root h.start.1).symm
    refine ⟨_, rfl, ⟨?_, fun x hx => ?_, fun x hx => ?_, fun x y hxy => ?_, fun m hm => ?_, ?_,
      fun m l' hm x hx => ?_, fun x hx hno y hy => ?_⟩, ⟨fun m l' hm => ?_, fun x hx => ?_⟩, ?_, ?_,
      ?_⟩
    · exact ⟨(hB root).mpr (.inr h.start.1), (hD root h.start.1).trans h.start.2.1,
        (Function.update_of_ne hvroot.symm _ _).trans h.start.2.2⟩
    · rcases (hB x).mp hx with rfl | hx
      · exact hlt
      · exact h.bound x hx
    · rcases (hB x).mp hx with rfl | hx
      · exact .inr ⟨u.m_id, Function.update_self _ _ _⟩
      · refine (h.grey x hx).imp_right fun ⟨p, hp⟩ => ⟨p, ?_⟩
        exact (Function.update_of_ne (hold x hx) _ _).trans hp
    · by_cases hxv : x = v
      · subst hxv
        have hy : y = u.m_id := by simpa using hxy.symm
        subst hy
        refine ⟨(hB x).mpr (.inl rfl), (hB _).mpr (.inr hgrey), ⟨u, hu, hv⟩, ?_⟩
        dsimp only
        rw [hD _ hgrey]
        exact Function.update_self _ _ _
      · obtain ⟨h1, h2, h3, h4⟩ := h.parent x y ((Function.update_of_ne hxv _ _).symm.trans hxy)
        refine ⟨(hB x).mpr (.inr h1), (hB y).mpr (.inr h2), h3, ?_⟩
        dsimp only
        rw [hD x h1, hD y h2, h4]
    · rcases List.mem_append.mp hm with hm | hm
      · exact ⟨(h.queue m hm).1, (hB _).mpr (.inr (h.queue m hm).2)⟩
      · obtain rfl := List.mem_singleton.mp hm
        exact ⟨hid ▸ hn, (hB _).mpr (.inl hid)⟩
    · refine List.pairwise_append.mpr ⟨?_, List.pairwise_singleton _ _, fun a ha b hb' => ?_⟩
      · refine h.order.imp_of_mem fun ha hb' hab => ?_
        dsimp only
        rw [hD _ (h.queue _ ha).2, hD _ (h.queue _ hb').2]
        exact hab
      · obtain rfl := List.mem_singleton.mp hb'
        dsimp only
        rw [hD _ (h.queue a ha).2, hid, Function.update_self]
        exact h.level u l hq _ (h.queue a ha).2
    · have hmu : m = u := by
        rw [hq] at hm
        exact (List.cons.inj hm).1.symm
      subst hmu
      dsimp only
      rw [hD _ hgrey]
      rcases (hB x).mp hx with rfl | hx
      · exact (Function.update_self _ _ _).le
      · rw [hD x hx]
        exact h.level m l hq x hx
    · have hxb : s.B x = true := by
        rcases (hB x).mp hx with rfl | hx
        · exact absurd hid (hno n (by simp))
        · exact hx
      obtain ⟨h1, h2⟩ := h.closed x hxb (fun m hm => hno m (List.mem_append_left _ hm)) y hy
      refine ⟨(hB y).mpr (.inr h1), ?_⟩
      dsimp only
      rw [hD x hxb, hD y h1]
      exact h2
    · exact ⟨l' ++ [n], by rw [hm]; rfl⟩
    · exact ⟨(hB x).mpr (.inr hx), hD x hx⟩
    · exact (hB v).mpr (.inl rfl)
    · dsimp only
      rw [hD _ hgrey]
      exact (Function.update_self _ _ _).le
    · have hwhite : ((Finset.range G.nodes.length).filter fun x =>
          Function.update s.B v true x = false) =
          ((Finset.range G.nodes.length).filter fun x => s.B x = false).erase v := by
        ext x
        by_cases hx : x = v <;> simp [hx]
      have hmem : v ∈ (Finset.range G.nodes.length).filter fun x => s.B x = false := by
        simpa [hlt] using hb
      have hcard := Finset.card_pos.mpr ⟨v, hmem⟩
      simp only [pending, hwhite, Finset.card_erase_of_mem hmem, List.length_append,
        List.length_singleton]
      omega

theorem Searching.visits {root : ℕ} {s : Search} {u : NixNode} {l : List NixNode}
    (h : G.Searching root s) (hq : s.Q = u :: l) {vs : List ℕ} (hvs : ∀ v ∈ vs, v ∈ u.m_Adj) :
    ∃ s' l', vs.foldlM (Bfs.visit G.nodes root u) s = some s' ∧ G.Searching root s' ∧
      s'.Q = u :: l' ∧ Grows s s' ∧ (∀ v ∈ vs, s'.B v = true ∧ s'.D v ≤ s'.D u.m_id + 1) ∧
      G.pending s' = G.pending s := by
  induction vs generalizing s l with
  | nil => exact ⟨s, l, rfl, h, hq, .refl s, by simp, rfl⟩
  | cons v vs ih =>
    obtain ⟨s₁, h1, h2, h3, h4, h5, h6⟩ := h.visit hq (hvs v (by simp))
    obtain ⟨l₁, hl₁⟩ := h3.head u l hq
    obtain ⟨s₂, l₂, h7, h8, h9, h10, h11, h12⟩ :=
      ih h2 hl₁ fun x hx => hvs x (List.mem_cons_of_mem v hx)
    have hu := (h2.queue u (by simp [hl₁])).2
    refine ⟨s₂, l₂, ?_, h8, h9, h3.trans h10, fun x hx => ?_, h12.trans h6⟩
    · rw [List.foldlM_cons, h1]
      exact h7
    · rcases List.mem_cons.mp hx with rfl | hx
      · obtain ⟨h13, h14⟩ := h10.grey x h4
        rw [h14, (h10.grey _ hu).2]
        exact ⟨h13, h5⟩
      · exact h11 x hx

/-- The first node of the queue has all its neighbours grey, and leaves. -/
theorem Searching.pop {root : ℕ} {s : Search} {u : NixNode} {l : List NixNode}
    (h : G.Searching root s) (hq : s.Q = u :: l)
    (hu : ∀ v ∈ u.m_Adj, s.B v = true ∧ s.D v ≤ s.D u.m_id + 1) :
    G.Searching root { s with Q := s.Q.tail } where
  start := h.start
  bound := h.bound
  grey := h.grey
  parent := h.parent
  queue n hn := h.queue n (List.mem_of_mem_tail hn)
  order := h.order.tail
  level n l' hl' v hv := by
    have hl : l = n :: l' := by
      rw [← hl', hq]
      rfl
    have hle := h.order
    rw [hq, hl] at hle
    have := List.rel_of_pairwise_cons hle (List.mem_cons_self)
    have := h.level u l hq v hv
    change s.D v ≤ s.D n.m_id + 1
    omega
  closed v hv hno x hx := by
    by_cases hvu : u.m_id = v
    · subst hvu
      obtain ⟨m, hm, hxm⟩ := hx
      obtain rfl := Option.some.inj ((h.queue u (by simp [hq])).1.symm.trans hm)
      exact hu x hxm
    · refine h.closed v hv (fun n hn => ?_) x hx
      rw [hq] at hn hno
      rcases List.mem_cons.mp hn with rfl | hn
      · exact hvu
      · exact hno n hn

theorem Searching.loop {root : ℕ} {s : Search} {fuel : ℕ} (h : G.Searching root s)
    (hfuel : G.pending s < fuel) :
    ∃ s', Bfs.loop G.nodes root fuel s = some s' ∧ G.Searching root s' ∧ s'.Q = [] := by
  induction fuel generalizing s with
  | zero => omega
  | succ fuel ih =>
    cases hq : s.Q with
    | nil => exact ⟨s, by simp [Bfs.loop, hq], h, hq⟩
    | cons u l =>
      obtain ⟨s₁, l₁, h1, h2, h3, -, h4, h5⟩ := h.visits hq fun v hv => hv
      have hpending : G.pending { s₁ with Q := s₁.Q.tail } + 1 = G.pending s₁ := by
        simp only [pending, h3, List.tail_cons, List.length_cons]
        omega
      obtain ⟨s', h6, h7, h8⟩ := ih (h2.pop h3 h4) (by omega)
      refine ⟨s', ?_, h7, h8⟩
      simp only [Bfs.loop, hq, h1, Option.bind_some]
      exact h6

/-- The tree of a finished search. -/
structure Tree (G : NixGraph) (root : ℕ) (s : Search) : Prop where
  searching : G.Searching root s
  done : s.Q = []

theorem bfs_tree {root : ℕ} (hroot : root < G.nodes.length) :
    ∃ s, bfs G.nodes root = some s ∧ G.Tree root s := by
  obtain ⟨n, hn⟩ : ∃ n, G.nodes[root]? = some n := ⟨_, List.getElem?_eq_getElem hroot⟩
  have hpending : G.pending (init n root) ≤ G.nodes.length := by
    have hmem : root ∈ Finset.range G.nodes.length := by simpa using hroot
    have hsub : ((Finset.range G.nodes.length).filter fun v => (init n root).B v = false) ⊆
        (Finset.range G.nodes.length).erase root := fun v hv => by
      obtain ⟨h1, h2⟩ := Finset.mem_filter.mp hv
      refine Finset.mem_erase.mpr ⟨fun he => ?_, h1⟩
      simp [init, he] at h2
    have hcard := Finset.card_le_card hsub
    rw [Finset.card_erase_of_mem hmem, Finset.card_range] at hcard
    simp only [pending, init, List.length_singleton] at hcard ⊢
    omega
  obtain ⟨s, h1, h2, h3⟩ := (searching_init hn).loop (Nat.lt_succ_of_le hpending)
  exact ⟨s, by rw [bfs, hn]; exact h1, h2, h3⟩

/-- The search finds every node that can be reached, no farther than any walk to it. -/
theorem Tree.reached {root : ℕ} {s : Search} (h : G.Tree root s) {v : ℕ}
    (hv : Relation.ReflTransGen G.Step root v) : s.B v = true := by
  induction hv with
  | refl => exact h.searching.start.1
  | tail _ hstep ih => exact (h.searching.closed _ ih (by simp [h.done]) _ hstep).1

theorem Tree.level {root : ℕ} {s : Search} (h : G.Tree root s) {u : ℕ} {walk : List ℕ}
    (hu : s.B u = true) (hwalk : (u :: walk).IsChain G.Step) :
    s.D ((u :: walk).getLast (by simp)) ≤ s.D u + walk.length := by
  induction walk generalizing u with
  | nil => exact Nat.le_add_right _ _
  | cons v walk ih =>
    obtain ⟨hstep, hrest⟩ := List.isChain_cons_cons.mp hwalk
    obtain ⟨h1, h2⟩ := h.searching.closed u hu (by simp [h.done]) v hstep
    have := ih h1 hrest
    rw [List.getLast_cons (by simp), List.length_cons]
    omega

end NixGraph

end Ns2
