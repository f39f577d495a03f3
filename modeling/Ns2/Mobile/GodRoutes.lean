import Ns2.Mobile.GodHops

/-! The next hops and the outgoing interfaces follow the shortest paths, where all nodes are
connected by paths that are not longer than `INFINITY`. -/

namespace Ns2

open ShortestPath

namespace God

variable {g g' : God} {M : HopMatrix} {n x y v sk : ℕ} {c d : ℤ}

/-- A loop that does not stop keeps what each of its rounds keeps. -/
theorem foldlM_range_induction {β : Type} {f : β → ℕ → Option β} {P : ℕ → β → Prop} {b : β}
    (h0 : P 0 b) (hstep : ∀ k < n, ∀ s, P k s → ∃ s', f s k = some s' ∧ P (k + 1) s') :
    ∃ s, (List.range n).foldlM f b = some s ∧ P n s := by
  induction n with
  | zero => exact ⟨b, rfl, h0⟩
  | succ n ih =>
    obtain ⟨s, hs, hP⟩ := ih fun k hk => hstep k (by omega)
    obtain ⟨s', hs', hP'⟩ := hstep n (by omega) s hP
    refine ⟨s', ?_, hP'⟩
    rw [List.range_succ, List.foldlM_append, hs]
    simp [hs']

/-! ### The next hops -/

/-- Every node reaches every other one by less than `INFINITY` hops, or as many. -/
def Spans (g : God) : Prop :=
  ∀ i j, i < g.num_nodes → j < g.num_nodes → ∃ c ≤ hopsInfinity, Walk g.Hop i j c

theorem Spans.isDist (h : g.Spans) (hx : x < g.num_nodes) (hy : y < g.num_nodes) :
    IsDist g.Hop x y (g.floyd_warshall.min_hops (x, y)) := by
  obtain ⟨hwalk, hle, hleast⟩ := floyd_warshall_spec hx hy
  refine ⟨?_, fun c hc => hleast c hc⟩
  obtain hinf | hwalk := hwalk
  · -- a walk of this length is as short as any
    obtain ⟨c, hc, hw⟩ := h x y hx hy
    have := hleast c hw
    rwa [show g.floyd_warshall.min_hops (x, y) = c by omega]
  · exact hwalk

theorem walk_zero (h : Walk g.Hop x y 0) : x = y := by
  rcases h.eq_or_snoc with ⟨rfl, -⟩ | ⟨w, a, b, ha, hb, hsum⟩
  · rfl
  · have h1 := ha.nonneg g.hop_pos
    have h2 := g.hop_pos _ _ _ hb
    omega

theorem hop_of_isDist (h : IsDist g.Hop x y 1) : g.Hop x y 1 := by
  obtain ⟨hw, -⟩ := h
  rcases hw.eq_or_snoc with ⟨-, h10⟩ | ⟨w, a, b, ha, hb, hsum⟩
  · omega
  · have hb1 : b = 1 := hb.2.2.2.2
    obtain rfl : a = 0 := by omega
    obtain rfl := walk_zero ha
    rwa [hb1] at hb

theorem walk_first (h : Walk g.Hop x y c) (hxy : x ≠ y) :
    ∃ w d, g.Hop x w 1 ∧ Walk g.Hop w y d ∧ c = 1 + d := by
  cases h with
  | nil => exact absurd rfl hxy
  | @cons _ w _ b d hb hw =>
    obtain rfl : b = 1 := hb.2.2.2.2
    exact ⟨w, d, hb, hw, rfl⟩

/-- The neighbor that is found is a first hop. -/
theorem Spans.nextHopCell (h : g.Spans) (hx : x < g.num_nodes) (hy : y < g.num_nodes)
    (hxy : x ≠ y) : ∃ v < g.num_nodes,
      g.floyd_warshall.nextHopCell x y = v ∧ FirstHop g.Hop x y v := by
  have hdist := h.isDist hx hy
  have hne : g.floyd_warshall.min_hops (x, y) ≠ UNREACHABLE := by
    have := (floyd_warshall_spec hx hy).2.1
    rw [hopsInfinity] at this
    rw [UNREACHABLE]
    omega
  rw [God.nextHopCell, if_neg hne]
  cases hf : (List.range g.floyd_warshall.num_nodes).find? fun neighbor =>
      decide (g.floyd_warshall.min_hops (x, neighbor) = 1) &&
        decide (g.floyd_warshall.min_hops (x, y) = g.floyd_warshall.min_hops (neighbor, y) + 1) with
  | some v =>
    have hv : v < g.num_nodes := List.mem_range.mp (List.mem_of_find?_eq_some hf)
    have hfound : g.floyd_warshall.min_hops (x, v) = 1 ∧
        g.floyd_warshall.min_hops (x, y) = g.floyd_warshall.min_hops (v, y) + 1 := by
      simpa using List.find?_some hf
    have hone := h.isDist hx hv
    rw [hfound.1] at hone
    refine ⟨v, hv, rfl, _, hdist, 1, g.floyd_warshall.min_hops (v, y), hop_of_isDist hone,
      (h.isDist hv hy).1, ?_⟩
    rw [hfound.2, add_comm]
  | none =>
    exfalso
    obtain ⟨w, c, hw, hc, hsum⟩ := walk_first hdist.1 hxy
    rw [hsum] at hdist
    obtain ⟨h1, h2⟩ := hdist.parts (.edge hw) hc
    have hwlt := hw.2.1
    have e1 := h1.unique (h.isDist hx hwlt)
    have e2 := h2.unique (h.isDist hwlt hy)
    have hnot := List.find?_eq_none.mp hf w (List.mem_range.mpr hwlt)
    rw [← e1, ← e2, hsum] at hnot
    exact hnot (by simp [add_comm])

/-- The matrix after the loops of `ComputeNextHop`. -/
theorem foldl_row (f : ℕ → ℤ) (u : ℕ) (l : List ℕ) (N : HopMatrix) (x y : ℕ) :
    l.foldl (fun N dst => Function.update N (u, dst) (f dst)) N (x, y) =
      if x = u ∧ y ∈ l then f y else N (x, y) := by
  induction l generalizing N with
  | nil => simp
  | cons j l ih =>
    rw [List.foldl_cons, ih]
    by_cases hl : x = u ∧ y ∈ l
    · rw [if_pos hl, if_pos ⟨hl.1, List.mem_cons_of_mem j hl.2⟩]
    · rw [if_neg hl]
      by_cases hj : (x, y) = (u, j)
      · obtain ⟨rfl, rfl⟩ := Prod.mk.inj hj
        rw [Function.update_self, if_pos ⟨rfl, List.mem_cons_self⟩]
      · rw [Function.update_of_ne hj, if_neg]
        rintro ⟨rfl, hy⟩
        obtain rfl | hy := List.mem_cons.mp hy
        · exact hj rfl
        · exact hl ⟨rfl, hy⟩

theorem foldl_rows (f : ℕ → ℕ → ℤ) (l m : List ℕ) (N : HopMatrix) (hx : x ∈ l) (hy : y ∈ m) :
    l.foldl (fun N src => m.foldl (fun N dst => Function.update N (src, dst) (f src dst)) N) N
      (x, y) = f x y := by
  induction l using List.reverseRecOn generalizing N with
  | nil => cases hx
  | append_singleton l u ih =>
    rw [List.foldl_append, List.foldl_cons, List.foldl_nil, foldl_row]
    by_cases hxu : x = u
    · rw [if_pos ⟨hxu, hy⟩, hxu]
    · rw [if_neg fun h => hxu h.1]
      refine ih N ?_
      simpa [hxu] using hx

theorem computeNextHop_eq (hactive : g.active = true) (hx : x < g.num_nodes)
    (hy : y < g.num_nodes) : g.ComputeNextHop.next_hop (x, y) = g.nextHopCell x y := by
  rw [ComputeNextHop, if_pos hactive]
  exact foldl_rows g.nextHopCell _ _ _ (List.mem_range.mpr hx) (List.mem_range.mpr hy)

/-- Where packets for `sk` go. -/
def next (g : God) (sk u : ℕ) : ℕ := (g.next_hop (u, sk)).toNat

/-- The state when the next hops are there. -/
def routed (g : God) : God := g.floyd_warshall.ComputeNextHop

theorem Spans.routed_next (h : g.Spans) (hactive : g.active = true) (hx : x < g.num_nodes)
    (hsk : sk < g.num_nodes) (hne : x ≠ sk) :
    g.routed.next_hop (x, sk) = g.routed.next sk x ∧ g.routed.next sk x < g.num_nodes ∧
      FirstHop g.Hop x sk (g.routed.next sk x) := by
  obtain ⟨v, hv, hcell, hfirst⟩ := h.nextHopCell hx hsk hne
  have heq : g.routed.next_hop (x, sk) = v :=
    (computeNextHop_eq (g := g.floyd_warshall) hactive hx hsk).trans hcell
  have hnext : g.routed.next sk x = v := by
    rw [next, heq]
    rfl
  rw [hnext]
  exact ⟨heq, hv, hfirst⟩

theorem forwards_lt {next : ℕ → ℕ} {p : List ℕ} (h : Forwards g.Hop next sk x p c)
    (hsk : sk < g.num_nodes) : ∀ u ∈ p, u < g.num_nodes := by
  induction h with
  | arrive =>
    intro u hu
    rwa [List.mem_singleton.mp hu]
  | hop _ hb _ ih =>
    intro u hu
    obtain rfl | hu := List.mem_cons.mp hu
    · exact hb.1
    · exact ih u hu

/-- The route of a packet: along a shortest path, with every hop counted once. -/
theorem Spans.forwardable (h : g.Spans) (hactive : g.active = true) (hx : x < g.num_nodes)
    (hsk : sk < g.num_nodes) (hc : IsDist g.Hop x sk c) :
    ∃ p, Forwards g.Hop (g.routed.next sk) sk x p c ∧ p.Nodup ∧ ∀ u ∈ p, u < g.num_nodes := by
  have hnext : ∀ u ∈ Finset.range g.num_nodes, u ≠ sk →
      FirstHop g.Hop u sk (g.routed.next sk u) ∧
        g.routed.next sk u ∈ Finset.range g.num_nodes := by
    intro u hu hne
    obtain ⟨-, hlt, hfirst⟩ := h.routed_next hactive (Finset.mem_range.mp hu) hsk hne
    exact ⟨hfirst, Finset.mem_range.mpr hlt⟩
  obtain ⟨p, hp, hnd, -⟩ := exists_forwards g.hop_pos hnext (Finset.mem_range.mpr hx) hc
  exact ⟨p, hp, hnd, forwards_lt hp hsk⟩

theorem forwards_length {next : ℕ → ℕ} {p : List ℕ} (h : Forwards g.Hop next sk x p c) :
    (p.length : ℤ) = c + 1 := by
  induction h with
  | arrive => rfl
  | hop hu hb _ ih =>
    have hb1 := hb.2.2.2.2
    rw [List.length_cons]
    push_cast
    omega

theorem forwards_head {next : ℕ → ℕ} {p : List ℕ} (h : Forwards g.Hop next sk x p c) :
    ∃ t, p = x :: t := by
  cases h with
  | arrive => exact ⟨[], rfl⟩
  | hop => exact ⟨_, rfl⟩

/-! ### The outgoing interfaces -/

/-- The loop of `Fill_for_Sink` marks the hops of the route. -/
theorem fillLoop_spec {p : List ℕ} (h : Forwards g.Hop (g'.next sk) sk x p c)
    (hnext : ∀ u ∈ p, u ≠ sk → g'.next_hop (u, sk) = g'.next sk u ∧ g'.next sk u < g'.num_nodes)
    {fuel count : ℕ} (hcount : count + p.length ≤ g'.num_nodes) (hfuel : p.length ≤ fuel)
    (M : HopMatrix) : ∃ M', g'.fillLoop sk fuel x count M = some M' ∧
      ∀ a b, M' (a, b) = if [a, b] <:+: p then 1 else M (a, b) := by
  induction h generalizing fuel count M with
  | arrive =>
    obtain ⟨fuel, rfl⟩ : ∃ k, fuel = k + 1 := ⟨fuel - 1, by simp at hfuel; omega⟩
    refine ⟨M, by rw [fillLoop, if_pos rfl], fun a b => ?_⟩
    rw [if_neg]
    intro hab
    have := hab.length_le
    simp at this
  | @hop u p b c hu hb ht ih =>
    obtain ⟨fuel, rfl⟩ : ∃ k, fuel = k + 1 := ⟨fuel - 1, by simp at hfuel; omega⟩
    obtain ⟨hn, hlt⟩ := hnext u List.mem_cons_self hu
    rw [List.length_cons] at hcount hfuel
    obtain ⟨t, rfl⟩ := forwards_head ht
    have hsmall : (g'.next sk u : ℤ) ≠ UNREACHABLE := by
      have h1 := g'.small
      rw [UNREACHABLE]
      intro he
      have h2 : 0x00ffffff < g'.num_nodes := by omega
      nlinarith
    have hcount' : count + 1 + (g'.next sk u :: t).length ≤ g'.num_nodes := by omega
    have hfuel' : (g'.next sk u :: t).length ≤ fuel := by omega
    obtain ⟨M', hM', hedges⟩ := ih (fun v hv => hnext v (List.mem_cons_of_mem u hv)) hcount' hfuel'
      (Function.update M (u, g'.next sk u) 1)
    refine ⟨M', ?_, fun a b => ?_⟩
    · rw [fillLoop, if_neg hu, hn, if_neg hsmall, if_pos ⟨by omega, by omega⟩, if_pos (by
        rw [List.length_cons] at hcount
        omega)]
      exact hM'
    · have hfirst : [a, b] <:+: u :: g'.next sk u :: t ↔
          (a, b) = (u, g'.next sk u) ∨ [a, b] <:+: g'.next sk u :: t := by
        rw [List.infix_cons_iff, List.cons_prefix_cons, List.cons_prefix_cons, Prod.mk.injEq]
        simp only [List.nil_prefix, and_true]
      rw [hedges]
      by_cases hin : [a, b] <:+: g'.next sk u :: t
      · rw [if_pos hin, if_pos (hfirst.mpr (.inr hin))]
      · rw [if_neg hin]
        by_cases hab : (a, b) = (u, g'.next sk u)
        · rw [if_pos (hfirst.mpr (.inl hab)), hab, Function.update_self]
        · rw [Function.update_of_ne hab, if_neg]
          intro h
          exact (hfirst.mp h).elim hab hin

theorem forwards_unique {next : ℕ → ℕ} {p q : List ℕ} (hp : Forwards g.Hop next sk x p c)
    (hq : Forwards g.Hop next sk x q d) : p = q := by
  induction hp generalizing q d with
  | arrive =>
    cases hq with
    | arrive => rfl
    | hop hu => exact absurd rfl hu
  | hop hu _ _ ih =>
    cases hq with
    | arrive => exact absurd rfl hu
    | hop _ _ ht => rw [ih ht]

/-- The hop from `a` to `b` is on the shortest path that packets of `src` take to one of the first
`m` nodes that is a sink. -/
def OnTree (g g' : God) (dt src m a b : ℕ) : Prop :=
  ∃ sk < m, g.sink_table dt sk ≠ 0 ∧ ∃ p d, IsDist g.Hop src sk d ∧
    Forwards g.Hop (g'.next sk) sk src p d ∧ [a, b] <:+: p

theorem routed_fields (g : God) : g.routed.num_nodes = g.num_nodes ∧
    g.routed.num_data_types = g.num_data_types ∧ g.routed.sink_table = g.sink_table ∧
    g.routed.source_table = g.source_table ∧ g.routed.min_hops = g.floyd_warshall.min_hops := by
  rw [routed, ComputeNextHop]
  split_ifs <;> exact ⟨rfl, rfl, rfl, rfl, rfl⟩

/-- The map of a source marks the hops to the first `m` nodes. -/
def Marks (g : God) (dt src m : ℕ) (M : HopMatrix) : Prop :=
  ∀ a b, (M (a, b) = 1 ∨ M (a, b) = 0) ∧ (M (a, b) = 1 ↔ g.OnTree g.routed dt src m a b)

theorem Marks.succ {dt src m : ℕ} {M M' : HopMatrix} (h : g.Marks dt src m M)
    (hM' : ∀ a b, M' (a, b) = M (a, b) ∨ M' (a, b) = 1)
    (hone : ∀ a b, M' (a, b) = 1 ↔ M (a, b) = 1 ∨ g.sink_table dt m ≠ 0 ∧ ∃ p d,
      IsDist g.Hop src m d ∧ Forwards g.Hop (g.routed.next m) m src p d ∧ [a, b] <:+: p) :
    g.Marks dt src (m + 1) M' := by
  intro a b
  obtain ⟨h01, htree⟩ := h a b
  refine ⟨?_, ?_⟩
  · rcases hM' a b with he | he
    · rw [he]
      exact h01
    · exact .inl he
  · rw [hone, htree]
    constructor
    · rintro (⟨sk, hsk, h⟩ | h)
      · exact ⟨sk, by omega, h⟩
      · exact ⟨m, by omega, h⟩
    · rintro ⟨sk, hsk, h⟩
      by_cases hm : sk = m
      · exact .inr (hm ▸ h)
      · exact .inl ⟨sk, by omega, h⟩

/-- The assertions hold, and the map is the union of the shortest paths to the sinks. -/
theorem Spans.fill_for_sink (h : g.Spans) (hactive : g.active = true) (dt : ℕ)
    (hx : x < g.num_nodes) : ∃ M, g.routed.Fill_for_Sink dt x (fun _ => 0) = some M ∧
      g.Marks dt x g.num_nodes M := by
  obtain ⟨hn, -, hsinks, -, -⟩ := g.routed_fields
  rw [Fill_for_Sink, hn, hsinks]
  apply foldlM_range_induction (P := g.Marks dt x)
  · intro a b
    refine ⟨.inr rfl, ?_⟩
    constructor
    · intro hzero
      exact absurd hzero zero_ne_one
    · rintro ⟨sk, hsk, -⟩
      omega
  · intro sk hsk M hM
    by_cases hsink : g.sink_table dt sk = 0
    · rw [if_pos hsink]
      refine ⟨M, rfl, hM.succ (fun a b => .inl rfl) fun a b => ?_⟩
      exact (or_iff_left fun h => h.1 hsink).symm
    · rw [if_neg hsink]
      have hdist := h.isDist hx hsk
      obtain ⟨p, hp, hnd, hlt⟩ := h.forwardable hactive hx hsk hdist
      have hlen : p.length ≤ g.num_nodes := by
        have := (hnd.subperm fun u hu => List.mem_range.mpr (hlt u hu)).length_le
        rwa [List.length_range] at this
      have hnext : ∀ u ∈ p, u ≠ sk → g.routed.next_hop (u, sk) = g.routed.next sk u ∧
          g.routed.next sk u < g.routed.num_nodes := by
        intro u hu hne
        obtain ⟨h1, h2, -⟩ := h.routed_next hactive (hlt u hu) hsk hne
        exact ⟨h1, hn.symm ▸ h2⟩
      have hcount : 0 + p.length ≤ g.routed.num_nodes := by omega
      have hfuel : p.length ≤ g.routed.num_nodes + 1 := by omega
      obtain ⟨M', hM', hedges⟩ := fillLoop_spec hp hnext hcount hfuel M
      refine ⟨M', hM', hM.succ (fun a b => ?_) fun a b => ?_⟩
      · rw [hedges]
        split_ifs
        · exact .inr rfl
        · exact .inl rfl
      · rw [hedges]
        constructor
        · intro hone
          by_cases hin : [a, b] <:+: p
          · exact .inr ⟨hsink, p, _, hdist, hp, hin⟩
          · rw [if_neg hin] at hone
            exact .inl hone
        · rintro (hone | ⟨-, q, d, -, hq, hin⟩)
          · split_ifs
            · rfl
            · exact hone
          · rw [forwards_unique hq hp] at hin
            rw [if_pos hin]

/-- A map that has been filled again. -/
def Refilled (g : God) (dt src : ℕ) (old new : Option HopMatrix) : Prop :=
  (new = none ↔ old = none) ∧ ∀ M, new = some M → g.Fill_for_Sink dt src (fun _ => 0) = some M

theorem rewriteMap_spec {dt src : ℕ} (old : Option HopMatrix)
    (hfill : ∃ M, g.Fill_for_Sink dt src (fun _ => 0) = some M) :
    ∃ new, g.rewriteMap dt src old = some new ∧ g.Refilled dt src old new := by
  cases old with
  | none => exact ⟨none, rfl, Iff.rfl, fun M hM => by cases hM⟩
  | some N =>
    obtain ⟨M, hM⟩ := hfill
    refine ⟨some M, by rw [rewriteMap, hM]; rfl, by simp, fun M' hM' => ?_⟩
    obtain rfl := Option.some.inj hM'
    exact hM

theorem rewrite_row {dt : ℕ} (hfill : ∀ src < g.num_nodes,
      ∃ M, g.Fill_for_Sink dt src (fun _ => 0) = some M) (T : ℕ → ℕ → Option HopMatrix) :
    ∃ T', (List.range g.num_nodes).foldlM (fun table src =>
        (g.rewriteMap dt src (table dt src)).map fun m =>
          Function.update table dt (Function.update (table dt) src m)) T = some T' ∧
      (∀ src < g.num_nodes, g.Refilled dt src (T dt src) (T' dt src)) ∧
      ∀ b, b ≠ dt → T' b = T b := by
  obtain ⟨T', hT', hdone, -, hother⟩ := foldlM_range_induction (n := g.num_nodes) (b := T)
    (f := fun (table : ℕ → ℕ → Option HopMatrix) src =>
      (g.rewriteMap dt src (table dt src)).map fun m =>
        Function.update table dt (Function.update (table dt) src m))
    (P := fun k (T' : ℕ → ℕ → Option HopMatrix) =>
      (∀ src < k, g.Refilled dt src (T dt src) (T' dt src)) ∧
      (∀ src ≥ k, T' dt src = T dt src) ∧ ∀ b, b ≠ dt → T' b = T b)
    ⟨fun _ h => by omega, fun _ _ => rfl, fun _ _ => rfl⟩ (by
      rintro k hk T' ⟨hdone, htodo, hother⟩
      obtain ⟨new, hnew, hre⟩ := rewriteMap_spec (T' dt k) (hfill k hk)
      rw [htodo k le_rfl] at hre
      refine ⟨Function.update T' dt (Function.update (T' dt) k new), by rw [hnew]; rfl,
        fun src hsrc => ?_, fun src hsrc => ?_, fun b hb => ?_⟩
      · rw [Function.update_self]
        by_cases hs : src = k
        · rw [hs, Function.update_self]
          exact hre
        · rw [Function.update_of_ne hs]
          exact hdone src (by omega)
      · rw [Function.update_self, Function.update_of_ne (by omega)]
        exact htodo src (by omega)
      · rw [Function.update_of_ne hb]
        exact hother b hb)
  exact ⟨T', hT', hdone, hother⟩

theorem rewrite_spec (hfill : ∀ dt, ∀ src < g.num_nodes,
      ∃ M, g.Fill_for_Sink dt src (fun _ => 0) = some M) :
    ∃ T, g.Rewrite_OIF_Map = some { g with source_table := T } ∧
      ∀ dt < g.num_data_types, ∀ src < g.num_nodes,
        g.Refilled dt src (g.source_table dt src) (T dt src) := by
  obtain ⟨T, hT, hdone, -⟩ := foldlM_range_induction (n := g.num_data_types) (b := g.source_table)
    (f := fun (table : ℕ → ℕ → Option HopMatrix) dt =>
      (List.range g.num_nodes).foldlM (fun (table : ℕ → ℕ → Option HopMatrix) src =>
      (g.rewriteMap dt src (table dt src)).map fun m =>
        Function.update table dt (Function.update (table dt) src m)) table)
    (P := fun k (T : ℕ → ℕ → Option HopMatrix) => (∀ dt < k, ∀ src < g.num_nodes,
      g.Refilled dt src (g.source_table dt src) (T dt src)) ∧
      ∀ dt ≥ k, T dt = g.source_table dt)
    ⟨fun _ h => by omega, fun _ _ => rfl⟩ (by
      rintro k hk T ⟨hdone, htodo⟩
      obtain ⟨T', hT', hrow, hother⟩ := rewrite_row (hfill k) T
      refine ⟨T', hT', fun dt hdt src hsrc => ?_, fun dt hdt => ?_⟩
      · by_cases hd : dt = k
        · rw [hd, ← htodo k le_rfl]
          exact hrow src hsrc
        · rw [hother dt hd]
          exact hdone dt (by omega) src hsrc
      · rw [hother dt (by omega)]
        exact htodo dt (by omega))
  exact ⟨T, by rw [Rewrite_OIF_Map, hT]; rfl, hdone⟩

/-! ### All routes -/

/-- What the state `g'` has computed for the network of `g`. -/
structure RoutesRight (g g' : God) : Prop where
  hops : ∀ i j, i < g.num_nodes → j < g.num_nodes →
    (∀ d, IsDist g.Hop i j d → g'.min_hops (i, j) = d) ∧
    ((∀ c, ¬ Walk g.Hop i j c) → g'.min_hops (i, j) = UNREACHABLE)
  routes : ∀ i j, i < g.num_nodes → j < g.num_nodes → ∀ c, Walk g.Hop i j c →
    ∃ p, Forwards g.Hop (g'.next j) j i p (g'.min_hops (i, j)) ∧
      (p.length : ℤ) = g'.min_hops (i, j) + 1
  maps : ∀ dt < g.num_data_types, ∀ src < g.num_nodes,
    (g'.source_table dt src = none ↔ g.source_table dt src = none) ∧
    ∀ M, g'.source_table dt src = some M → ∀ a b, (M (a, b) = 1 ∨ M (a, b) = 0) ∧
      (M (a, b) = 1 ↔ g.OnTree g' dt src g.num_nodes a b)

/-- The routes are right, and no assertion fails, exactly where every node reaches every other one
over at most `INFINITY` hops. -/
theorem computeRoute_right_iff (g : God) (hactive : g.active = true) :
    (∃ g', g.ComputeRoute = some g' ∧ g.RoutesRight g') ↔
      ∀ i j, i < g.num_nodes → j < g.num_nodes → ∃ c ≤ hopsInfinity, Walk g.Hop i j c := by
  obtain ⟨hn, hdt, hsinks, hsources, hmin⟩ := g.routed_fields
  have hcompute : g.ComputeRoute = g.routed.Rewrite_OIF_Map.map fun g =>
      { g.CountConnect with num_compute := g.num_compute + 1 } := if_pos hactive
  constructor
  · rintro ⟨g', hg', hright⟩ i j hi hj
    rw [hcompute] at hg'
    obtain ⟨g1, hg1, rfl⟩ := Option.map_eq_some_iff.mp hg'
    obtain ⟨T, -, rfl⟩ := Option.map_eq_some_iff.mp hg1
    obtain ⟨hdist, hfar⟩ := hright.hops i j hi hj
    have hle := (floyd_warshall_spec hi hj).2.1
    rw [← hmin] at hle
    by_contra hno
    have hnone : ∀ c, ¬ Walk g.Hop i j c := by
      intro c hc
      obtain ⟨d, hd⟩ := hc.exists_isDist g.hop_pos
      refine hno ⟨d, ?_, hd.1⟩
      rw [← hdist d hd]
      exact hle
    have hbig : g.routed.min_hops (i, j) = UNREACHABLE := hfar hnone
    rw [hbig] at hle
    exact absurd hle (by decide)
  · intro h
    have hspans : g.Spans := h
    obtain ⟨T, hT, hmaps⟩ := rewrite_spec (g := g.routed) fun dt src hsrc => by
      obtain ⟨M, hM, -⟩ := hspans.fill_for_sink hactive dt (hn ▸ hsrc)
      exact ⟨M, hM⟩
    refine ⟨_, by rw [hcompute, hT]; rfl, ⟨fun i j hi hj => ?_, fun i j hi hj c hc => ?_,
      fun dt hdt' src hsrc => ?_⟩⟩
    · have hd := hspans.isDist hi hj
      rw [← hmin] at hd
      refine ⟨fun d hd' => hd.unique hd', fun hno => absurd hd.1 (hno _)⟩
    · have hd := hspans.isDist hi hj
      rw [← hmin] at hd
      obtain ⟨p, hp, -, -⟩ := hspans.forwardable hactive hi hj hd
      exact ⟨p, hp, forwards_length hp⟩
    · obtain ⟨hnone, hfill⟩ := hmaps dt (hdt.symm ▸ hdt') src (hn.symm ▸ hsrc)
      refine ⟨hsources ▸ hnone, fun M hM => ?_⟩
      obtain ⟨M', hM', hmarks⟩ := hspans.fill_for_sink hactive dt hsrc
      obtain rfl := Option.some.inj (hM'.symm.trans (hfill M hM))
      exact hmarks

/-- Some nodes, of which none hears any other. -/
def apart : God where
  active := true
  num_nodes := 2
  num_data_types := 0
  IsNeighbor _ _ := false
  min_hops _ := 0
  next_hop _ := 0
  source_table _ _ := none
  sink_table _ _ := 0
  num_connect := 0
  num_compute := 0
  small := by decide

theorem apart_hops : ¬ ∀ g : God, g.active = true →
    ∃ g', g.ComputeRoute = some g' ∧ g.RoutesRight g' := by
  intro h
  obtain ⟨g', hg', hright⟩ := h apart rfl
  have hmin : (apart.ComputeRoute.map fun g => g.min_hops (0, 1)) = some hopsInfinity := by
    decide +kernel
  rw [hg'] at hmin
  have hfar := (hright.hops 0 1 (by decide) (by decide)).2 fun c hc => by
    rcases hc.eq_or_snoc with ⟨h01, -⟩ | ⟨w, a, b, -, hb, -⟩
    · exact absurd h01 (by decide)
    · have hlink := hb.2.2.2.1
      cases hlink
  have heq : g'.min_hops (0, 1) = hopsInfinity := Option.some.inj hmin
  rw [hfar] at heq
  exact absurd heq (by decide)

/-- Two nodes that hear each other. -/
theorem computeRoute_right_two :
    (∃ g', ({ apart with IsNeighbor := fun _ _ => true } : God).ComputeRoute = some g' ∧
      ({ apart with IsNeighbor := fun _ _ => true } : God).RoutesRight g') ↔
    ∀ i j, i < 2 → j < 2 → ∃ c ≤ hopsInfinity,
      Walk ({ apart with IsNeighbor := fun _ _ => true } : God).Hop i j c :=
  computeRoute_right_iff { apart with IsNeighbor := fun _ _ => true } rfl

end God

end Ns2
