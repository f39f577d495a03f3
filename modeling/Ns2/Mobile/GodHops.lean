import Ns2.Mobile.God

/-! The matrix of hop counts: the least number of hops, as far as it is below `INFINITY`. -/

namespace Ns2

open ShortestPath

namespace God

variable {g : God} {M M' M₀ : HopMatrix} {i j k n x y : ℕ} {c : ℤ}

/-- Whether two nodes hear each other, as the loops ask for it. -/
def link (g : God) (u v : ℕ) : Bool := g.IsNeighbor (min u v) (max u v)

/-- One hop of the network. -/
def Hop (g : God) (u v : ℕ) (b : ℤ) : Prop :=
  u < g.num_nodes ∧ v < g.num_nodes ∧ u ≠ v ∧ g.link u v = true ∧ b = 1

theorem hop_pos (g : God) (u v : ℕ) (b : ℤ) (h : g.Hop u v b) : 0 < b := by
  rw [h.2.2.2.2]
  decide

theorem computeW_columns (f : ℕ → ℤ) (l : List ℕ) (hl : i ∉ l) (W : HopMatrix) (x y : ℕ) :
    l.foldl (fun W j => Function.update (Function.update W (j, i) (f j)) (i, j) (f j)) W (x, y) =
      if x = i ∧ y ∈ l then f y else if y = i ∧ x ∈ l then f x else W (x, y) := by
  induction l generalizing W with
  | nil => simp
  | cons j l ih =>
    obtain ⟨hij, hl⟩ := not_or.mp (mt List.mem_cons.mpr hl)
    rw [List.foldl_cons, ih hl]
    by_cases h1 : x = i ∧ y ∈ l
    · rw [if_pos h1, if_pos ⟨h1.1, List.mem_cons_of_mem j h1.2⟩]
    · rw [if_neg h1]
      by_cases h2 : y = i ∧ x ∈ l
      · have hx : x ≠ i := fun he => hl (he ▸ h2.2)
        rw [if_pos h2, if_neg fun h => hx h.1, if_pos ⟨h2.1, List.mem_cons_of_mem j h2.2⟩]
      · rw [if_neg h2]
        by_cases hxy : (x, y) = (i, j)
        · obtain ⟨rfl, rfl⟩ := Prod.mk.inj hxy
          rw [Function.update_self, if_pos ⟨rfl, List.mem_cons_self⟩]
        · rw [Function.update_of_ne hxy]
          have hnot : ¬ (x = i ∧ y ∈ j :: l) := by
            rintro ⟨rfl, hy⟩
            obtain rfl | hy := List.mem_cons.mp hy
            · exact hxy rfl
            · exact h1 ⟨rfl, hy⟩
          rw [if_neg hnot]
          by_cases hyx : (x, y) = (j, i)
          · obtain ⟨rfl, rfl⟩ := Prod.mk.inj hyx
            rw [Function.update_self, if_pos ⟨rfl, List.mem_cons_self⟩]
          · rw [Function.update_of_ne hyx, if_neg]
            rintro ⟨rfl, hx⟩
            obtain rfl | hx := List.mem_cons.mp hx
            · exact hyx rfl
            · exact h2 ⟨rfl, hx⟩

/-- The matrix of `ComputeW`. -/
theorem computeW_eq (hx : x < g.num_nodes) (hy : y < g.num_nodes) :
    g.ComputeW.min_hops (x, y) = if x = y then 0 else if g.link x y then 1 else hopsInfinity := by
  suffices hrows : ∀ m ≤ g.num_nodes, ∀ x y, x < g.num_nodes → y < g.num_nodes → min x y < m →
      (List.range m).foldl (fun W i => g.computeWRow i W) (fun _ => -1) (x, y) =
        if x = y then 0 else if g.link x y then 1 else hopsInfinity from
    hrows _ le_rfl x y hx hy (min_lt_of_left_lt hx)
  intro m hm
  induction m with
  | zero => intro x y _ _ h; omega
  | succ m ih =>
    intro x y hx hy hmin
    rw [List.range_succ, List.foldl_append, List.foldl_cons, List.foldl_nil, computeWRow,
      computeW_columns _ _ (by simp [List.mem_range'_1])]
    simp only [List.mem_range'_1]
    by_cases h1 : x = m ∧ m < y
    · obtain ⟨rfl, hlt⟩ := h1
      rw [if_pos ⟨rfl, by omega⟩, if_neg hlt.ne, link, min_eq_left hlt.le, max_eq_right hlt.le]
    · rw [if_neg fun h => h1 ⟨h.1, by omega⟩]
      by_cases h2 : y = m ∧ m < x
      · obtain ⟨rfl, hlt⟩ := h2
        rw [if_pos ⟨rfl, by omega⟩, if_neg hlt.ne', link, min_eq_right hlt.le, max_eq_left hlt.le]
      · rw [if_neg fun h => h2 ⟨h.1, by omega⟩]
        by_cases h3 : (x, y) = (m, m)
        · obtain ⟨rfl, rfl⟩ := Prod.mk.inj h3
          rw [Function.update_self, if_pos rfl]
        · rw [Function.update_of_ne h3]
          refine ih (by omega) x y hx hy ?_
          have hne : ¬ (x = m ∧ y = m) := fun h => h3 (by rw [h.1, h.2])
          omega

/-- Every entry is the length of a walk, or infinite. -/
def Sound (g : God) (M : HopMatrix) : Prop :=
  ∀ x y, x < g.num_nodes → y < g.num_nodes →
    0 ≤ M (x, y) ∧ (hopsInfinity ≤ M (x, y) ∨ Walk g.Hop x y (M (x, y)))

/-- No entry is above infinity or above the length of a walk with its inner nodes below `i`. -/
def Bounded (g : God) (i : ℕ) (M : HopMatrix) : Prop :=
  ∀ x y, x < g.num_nodes → y < g.num_nodes →
    M (x, y) ≤ hopsInfinity ∧ ∀ c, Inside g.Hop {v | v < i} x y c → M (x, y) ≤ c

theorem relaxCell_le (i j : ℕ) (M : HopMatrix) (k : ℕ) : relaxCell i j M k ≤ M := by
  intro p
  rw [relaxCell]
  by_cases hp : p = (j, k)
  · rw [hp, Function.update_self]
    exact min_le_left _ _
  · rw [Function.update_of_ne hp]

theorem relaxCell_sum (i j : ℕ) (M : HopMatrix) (k : ℕ) :
    relaxCell i j M k (j, k) ≤ M (j, i) + M (i, k) := by
  rw [relaxCell, Function.update_self]
  exact min_le_right _ _

theorem foldl_relaxCell (l : List ℕ) (hM : M ≤ M₀) : l.foldl (relaxCell i j) M ≤ M ∧
    ∀ k ∈ l, l.foldl (relaxCell i j) M (j, k) ≤ M₀ (j, i) + M₀ (i, k) := by
  induction l generalizing M with
  | nil => exact ⟨le_rfl, by simp⟩
  | cons k l ih =>
    obtain ⟨h1, h2⟩ := ih ((relaxCell_le i j M k).trans hM)
    refine ⟨h1.trans (relaxCell_le i j M k), fun k' hk' => ?_⟩
    obtain rfl | hk' := List.mem_cons.mp hk'
    · exact (h1 _).trans ((relaxCell_sum i j M k').trans (add_le_add (hM _) (hM _)))
    · exact h2 k' hk'

theorem foldl_relaxRow (l : List ℕ) (hM : M ≤ M₀) : l.foldl (relaxRow n i) M ≤ M ∧
    ∀ j ∈ l, ∀ k < n, l.foldl (relaxRow n i) M (j, k) ≤ M₀ (j, i) + M₀ (i, k) := by
  induction l generalizing M with
  | nil => exact ⟨le_rfl, by simp⟩
  | cons j l ih =>
    obtain ⟨hle, hsum⟩ := foldl_relaxCell (i := i) (j := j) (List.range n) hM
    obtain ⟨h1, h2⟩ := ih (hle.trans hM)
    refine ⟨h1.trans hle, fun j' hj' k hk => ?_⟩
    obtain rfl | hj' := List.mem_cons.mp hj'
    · exact (h1 _).trans (hsum k (List.mem_range.mpr hk))
    · exact h2 j' hj' k hk

/-- With one more inner node. -/
theorem Bounded.relaxAll (h : g.Bounded i M) (hi : i < g.num_nodes) :
    g.Bounded (i + 1) (relaxAll g.num_nodes M i) := by
  obtain ⟨hle, hsum⟩ := foldl_relaxRow (n := g.num_nodes) (i := i) (List.range g.num_nodes) (le_refl M)
  have hset : {v : ℕ | v < i + 1} = insert i {v | v < i} := by
    ext v
    simp only [Set.mem_setOf_eq, Set.mem_insert_iff]
    omega
  intro x y hx hy
  refine ⟨(hle _).trans (h x y hx hy).1, fun c hc => ?_⟩
  rw [hset] at hc
  obtain hc | ⟨a, b, ha, hb, hab⟩ := hc.split g.hop_pos
  · exact (hle _).trans ((h x y hx hy).2 c hc)
  · have h1 := hsum x (List.mem_range.mpr hx) y hy
    have h2 := (h x i hx hi).2 a ha
    have h3 := (h i y hi hy).2 b hb
    change God.relaxAll g.num_nodes M i (x, y) ≤ _ at h1
    omega

theorem Sound.relaxCell (h : g.Sound M) (hi : i < g.num_nodes) (hj : j < g.num_nodes)
    (hk : k < g.num_nodes) : g.Sound (relaxCell i j M k) := by
  intro x y hx hy
  rw [God.relaxCell]
  by_cases hp : (x, y) = (j, k)
  · obtain ⟨rfl, rfl⟩ := Prod.mk.inj hp
    rw [Function.update_self]
    obtain ⟨h1, h2⟩ := h x y hx hy
    obtain ⟨h3, h4⟩ := h x i hx hi
    obtain ⟨h5, h6⟩ := h i y hi hy
    refine ⟨by omega, ?_⟩
    obtain hle | hlt := le_total (M (x, y)) (M (x, i) + M (i, y))
    · rwa [min_eq_left hle]
    · rw [min_eq_right hlt]
      obtain h4 | h4 := h4
      · left; omega
      · obtain h6 | h6 := h6
        · left; omega
        · exact .inr (h4.append h6)
  · rw [Function.update_of_ne hp]
    exact h x y hx hy

theorem Sound.foldl {f : HopMatrix → ℕ → HopMatrix}
    (hf : ∀ M k, g.Sound M → k < g.num_nodes → g.Sound (f M k)) {l : List ℕ}
    (hl : ∀ k ∈ l, k < g.num_nodes) (h : g.Sound M) : g.Sound (l.foldl f M) := by
  induction l generalizing M with
  | nil => exact h
  | cons k l ih =>
    exact ih (fun k' hk' => hl k' (List.mem_cons_of_mem k hk')) (hf M k h (hl k List.mem_cons_self))

theorem mem_range_lt : ∀ k ∈ List.range g.num_nodes, k < g.num_nodes := fun _ hk =>
  List.mem_range.mp hk

theorem Sound.relaxAll (h : g.Sound M) (hi : i < g.num_nodes) :
    g.Sound (relaxAll g.num_nodes M i) :=
  Sound.foldl (fun _ _ h hj => Sound.foldl (fun _ _ h hk => h.relaxCell hi hj hk) mem_range_lt h)
    mem_range_lt h

theorem sound_computeW : g.Sound g.ComputeW.min_hops := by
  intro x y hx hy
  rw [computeW_eq hx hy]
  by_cases hxy : x = y
  · rw [if_pos hxy, hxy]
    exact ⟨le_rfl, .inr (.nil y)⟩
  · rw [if_neg hxy]
    by_cases hl : g.link x y = true
    · rw [if_pos hl]
      exact ⟨by decide, .inr (.edge ⟨hx, hy, hxy, hl, rfl⟩)⟩
    · rw [if_neg hl]
      exact ⟨by decide, .inl le_rfl⟩

theorem bounded_computeW : g.Bounded 0 g.ComputeW.min_hops := by
  intro x y hx hy
  rw [computeW_eq hx hy]
  refine ⟨?_, fun c hc => ?_⟩
  · split_ifs <;> decide
  · have hempty : {v : ℕ | v < 0} = ∅ := by simp
    rw [hempty] at hc
    obtain ⟨hxy, rfl⟩ | hedge := hc.of_empty
    · rw [if_pos hxy]
    · obtain ⟨-, -, hne, hl, rfl⟩ := hedge
      rw [if_neg hne, if_pos hl]

/-- The hop counts: of a walk, or infinite, and never above a walk. -/
theorem floyd_warshall_spec (hx : x < g.num_nodes) (hy : y < g.num_nodes) :
    (g.floyd_warshall.min_hops (x, y) = hopsInfinity ∨
      Walk g.Hop x y (g.floyd_warshall.min_hops (x, y))) ∧
    g.floyd_warshall.min_hops (x, y) ≤ hopsInfinity ∧
    ∀ c, Walk g.Hop x y c → g.floyd_warshall.min_hops (x, y) ≤ c := by
  have hround : ∀ m ≤ g.num_nodes,
      g.Sound ((List.range m).foldl (God.relaxAll g.num_nodes) g.ComputeW.min_hops) ∧
      g.Bounded m ((List.range m).foldl (God.relaxAll g.num_nodes) g.ComputeW.min_hops) := by
    intro m hm
    induction m with
    | zero => exact ⟨sound_computeW, bounded_computeW⟩
    | succ m ih =>
      obtain ⟨h1, h2⟩ := ih (by omega)
      rw [List.range_succ, List.foldl_append, List.foldl_cons, List.foldl_nil]
      exact ⟨h1.relaxAll hm, h2.relaxAll hm⟩
  obtain ⟨hsound, hbound⟩ := hround _ le_rfl
  obtain ⟨hle, hwalk⟩ := hbound x y hx hy
  refine ⟨(hsound x y hx hy).2.imp_left fun h => le_antisymm hle h, hle, fun c hc => hwalk c ?_⟩
  exact (hc.inside.of_subset (S := {v | v < g.num_nodes}) hx fun u v b _ h => h.2.1).1

end God

end Ns2
