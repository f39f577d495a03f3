import Mathlib

/-! Walks and their costs in a graph with positive edges: least costs, the frontier rule that
settles the nearest node, and the first hops of the shortest walks. -/

namespace ShortestPath

variable {V R : Type*} [AddCommGroup R] [LinearOrder R] [IsOrderedAddMonoid R]

inductive Walk (E : V → V → R → Prop) : V → V → R → Prop
  | nil (v : V) : Walk E v v 0
  | cons {u w v : V} {b c : R} (h : E u w b) (t : Walk E w v c) : Walk E u v (b + c)

/-- A walk whose first hop is `h`. -/
def Via (E : V → V → R → Prop) (s h v : V) (c : R) : Prop :=
  ∃ b d, E s h b ∧ Walk E h v d ∧ c = b + d

def IsDist (E : V → V → R → Prop) (s v : V) (d : R) : Prop := IsLeast {c | Walk E s v c} d

/-- `h` is the first hop of a shortest walk. -/
def FirstHop (E : V → V → R → Prop) (s v h : V) : Prop := ∃ c, IsDist E s v c ∧ Via E s h v c

variable {E : V → V → R → Prop} {s u v w h : V} {b c d m : R}

section walks

omit [LinearOrder R] [IsOrderedAddMonoid R]

theorem Walk.edge (h : E u v b) : Walk E u v b := by
  have := Walk.cons h (.nil v)
  rwa [add_zero] at this

theorem Walk.append (h : Walk E u w b) (t : Walk E w v c) : Walk E u v (b + c) := by
  induction h with
  | nil => rwa [zero_add]
  | cons h _ ih =>
    rw [add_assoc]
    exact .cons h (ih t)

theorem Walk.snoc (h : Walk E u w b) (t : E w v c) : Walk E u v (b + c) := h.append (.edge t)

/-- A walk has a last edge, unless it stays where it is. -/
theorem Walk.eq_or_snoc (h : Walk E u v c) :
    (u = v ∧ c = 0) ∨ ∃ w a b, Walk E u w a ∧ E w v b ∧ c = a + b := by
  induction h with
  | nil => exact .inl ⟨rfl, rfl⟩
  | @cons u w v b c h t ih =>
    right
    rcases ih with ⟨rfl, rfl⟩ | ⟨x, a, b', hx, hv, rfl⟩
    · exact ⟨u, 0, b, .nil u, h, add_comm _ _⟩
    · exact ⟨x, b + a, b', .cons h hx, hv, (add_assoc _ _ _).symm⟩

theorem Via.walk (h : Via E s u v c) : Walk E s v c := by
  obtain ⟨b, d, hb, hd, rfl⟩ := h
  exact .cons hb hd

theorem Via.edge (h : E s v b) : Via E s v v b := ⟨b, 0, h, .nil v, (add_zero b).symm⟩

theorem Via.snoc (h : Via E s u w c) (t : E w v b) : Via E s u v (c + b) := by
  obtain ⟨a, d, ha, hd, rfl⟩ := h
  exact ⟨a, d + b, ha, hd.snoc t, add_assoc _ _ _⟩

/-- A walk that leaves a set does so over an edge. -/
theorem Walk.exit {S : Set V} (h : Walk E u v c) (hu : u ∈ S) (hv : v ∉ S) :
    ∃ x ∈ S, ∃ y ∉ S, ∃ a b d, Walk E u x a ∧ E x y b ∧ Walk E y v d ∧ c = a + b + d := by
  induction h with
  | nil => exact absurd hu hv
  | @cons u w v b c h t ih =>
    by_cases hw : w ∈ S
    · obtain ⟨x, hx, y, hy, a, b', d, h1, h2, h3, rfl⟩ := ih hw hv
      exact ⟨x, hx, y, hy, b + a, b', d, .cons h h1, h2, h3, by simp only [add_assoc]⟩
    · exact ⟨u, hu, w, hw, 0, b, c, .nil u, h, t, by rw [zero_add]⟩

end walks

section nonneg

variable (hE : ∀ u v b, E u v b → 0 ≤ b)
include hE

theorem Walk.zero_le (h : Walk E u v c) : 0 ≤ c := by
  induction h with
  | nil => exact le_rfl
  | cons h _ ih => exact add_nonneg (hE _ _ _ h) ih

/-- Where the settled nodes are left at a cost of `m` or more, every node outside is as far. -/
theorem frontier_min {S : Set V} (hs : s ∈ S)
    (hout : ∀ u ∈ S, ∃ a, IsDist E s u a ∧ ∀ x ∉ S, ∀ b, E u x b → m ≤ a + b)
    (hv : v ∉ S) (h : Walk E s v c) : m ≤ c := by
  obtain ⟨x, hx, y, hy, a, b, d, h1, h2, h3, rfl⟩ := h.exit hs hv
  obtain ⟨a', ha', hle⟩ := hout x hx
  calc m ≤ a' + b := hle y hy b h2
    _ ≤ a + b := add_le_add_left (ha'.2 h1) b
    _ ≤ a + b + d := le_add_of_nonneg_right (h3.zero_le hE)

end nonneg

section positive

variable (hE : ∀ u v b, E u v b → 0 < b)
include hE

theorem Walk.nonneg (h : Walk E u v c) : 0 ≤ c := h.zero_le fun u v b hb => (hE u v b hb).le

theorem Via.pos (h : Via E s u v c) : 0 < c := by
  obtain ⟨b, d, hb, hd, rfl⟩ := h
  exact add_pos_of_pos_of_nonneg (hE _ _ _ hb) (hd.nonneg hE)

theorem isDist_self (v : V) : IsDist E v v 0 := ⟨.nil v, fun _ h => h.nonneg hE⟩

theorem frontier_le {S : Set V} (hs : s ∈ S)
    (hout : ∀ u ∈ S, ∃ a, IsDist E s u a ∧ ∀ x ∉ S, ∀ b, E u x b → m ≤ a + b)
    (hv : v ∉ S) (h : Walk E s v c) : m ≤ c :=
  frontier_min (fun u v b hb => (hE u v b hb).le) hs hout hv h

theorem IsDist.of_frontier {S : Set V} (hs : s ∈ S)
    (hout : ∀ u ∈ S, ∃ a, IsDist E s u a ∧ ∀ x ∉ S, ∀ b, E u x b → m ≤ a + b)
    (hv : v ∉ S) (h : Walk E s v m) : IsDist E s v m :=
  ⟨h, fun _ h' => frontier_le hE hs hout hv h'⟩

end positive

/-- Both parts of a shortest walk are shortest. -/
theorem IsDist.parts (h : IsDist E s v (c + d)) (hc : Walk E s u c) (hd : Walk E u v d) :
    IsDist E s u c ∧ IsDist E u v d :=
  ⟨⟨hc, fun _ h' => le_of_add_le_add_right (h.2 (h'.append hd))⟩,
    ⟨hd, fun _ h' => le_of_add_le_add_left (h.2 (hc.append h'))⟩⟩

theorem FirstHop.dist (h : FirstHop E s v u) :
    ∃ b d, E s u b ∧ IsDist E u v d ∧ IsDist E s v (b + d) := by
  obtain ⟨c, hc, b, d, hb, hd, rfl⟩ := h
  exact ⟨b, d, hb, (hc.parts (.edge hb) hd).2, hc⟩

/-- A first hop is the node itself behind an edge, or a first hop of a nearer node before it. -/
theorem FirstHop.pred (hE : ∀ u v b, E u v b → 0 < b) (hv : FirstHop E s v h) :
    ∃ u a b, IsDist E s u a ∧ E u v b ∧ IsDist E s v (a + b) ∧
      (u = s ∧ h = v ∨ u ≠ s ∧ FirstHop E s u h) := by
  obtain ⟨c, hc, b, d, hb, hd, rfl⟩ := hv
  rcases hd.eq_or_snoc with ⟨rfl, rfl⟩ | ⟨w, x, y, hx, hy, rfl⟩
  · refine ⟨s, 0, b, isDist_self hE s, hb, ?_, .inl ⟨rfl, rfl⟩⟩
    rwa [zero_add, ← add_zero b]
  · rw [← add_assoc] at hc
    have hw := (hc.parts (.cons hb hx) (.edge hy)).1
    refine ⟨w, b + x, y, hw, hy, hc, .inr ⟨?_, b + x, hw, b, x, hb, hx, rfl⟩⟩
    rintro rfl
    have h0 := hw.unique (isDist_self hE w)
    exact (Via.pos hE ⟨b, x, hb, hx, rfl⟩).ne' h0

/-- Integer costs have a least one. -/
theorem Walk.exists_isDist {E : V → V → ℤ → Prop} (hE : ∀ u v b, E u v b → 0 < b) {c : ℤ}
    (h : Walk E s v c) : ∃ d, IsDist E s v d := by
  obtain ⟨d, hd, hle⟩ := Int.exists_least_of_bdd (P := Walk E s v) ⟨0, fun _ h => h.nonneg hE⟩ ⟨c, h⟩
  exact ⟨d, hd, hle⟩

/-! ### Forwarding -/

/-- The nodes that are visited towards `d` where every node `u` forwards to `next u`, and the
total cost. -/
inductive Forwards (E : V → V → R → Prop) (next : V → V) (d : V) : V → List V → R → Prop
  | arrive : Forwards E next d d [d] 0
  | hop {u : V} {p : List V} {b c : R} (hu : u ≠ d) (h : E u (next u) b)
      (t : Forwards E next d (next u) p c) : Forwards E next d u (u :: p) (b + c)

/-- If every node forwards to a first hop of its own shortest walks, then the forwarding reaches
the destination, visits no node twice and costs the least. -/
theorem exists_forwards (hE : ∀ u v b, E u v b → 0 < b) {S : Finset V} {next : V → V} {d : V}
    (hnext : ∀ u ∈ S, u ≠ d → FirstHop E u d (next u) ∧ next u ∈ S) {u : V} (hu : u ∈ S) {c : R}
    (hc : IsDist E u d c) :
    ∃ p, Forwards E next d u p c ∧ p.Nodup ∧ ∀ x ∈ p, ∃ c' ≤ c, IsDist E x d c' := by
  classical
  -- the nodes that are nearer to the destination become fewer
  induction hn : (S.filter fun x => ∃ c' < c, IsDist E x d c').card using Nat.strong_induction_on
    generalizing u c with
  | _ n ih =>
    by_cases hud : u = d
    · subst hud
      obtain rfl := hc.unique (isDist_self hE u)
      exact ⟨[u], .arrive, by simp, by simpa using ⟨0, le_rfl, hc⟩⟩
    · obtain ⟨hfirst, hmem⟩ := hnext u hu hud
      obtain ⟨b, c', hb, hc', hsum⟩ := hfirst.dist
      obtain rfl := hc.unique hsum
      have hlt : c' < b + c' := lt_add_of_pos_left c' (hE _ _ _ hb)
      have hcard : (S.filter fun x => ∃ c'' < c', IsDist E x d c'').card <
          (S.filter fun x => ∃ c'' < b + c', IsDist E x d c'').card := by
        refine Finset.card_lt_card (Finset.ssubset_iff_of_subset ?_ |>.mpr ⟨next u, ?_, ?_⟩)
        · refine Finset.monotone_filter_right S fun x _ hx => ?_
          obtain ⟨c'', hlt', hx⟩ := hx
          exact ⟨c'', hlt'.trans hlt, hx⟩
        · exact Finset.mem_filter.mpr ⟨hmem, c', hlt, hc'⟩
        · rintro hx
          obtain ⟨-, c'', hlt', hx⟩ := Finset.mem_filter.mp hx
          exact hlt'.ne (hx.unique hc')
      obtain ⟨p, hp, hnd, hle⟩ := ih _ (hn ▸ hcard) hmem hc' rfl
      refine ⟨u :: p, .hop hud hb hp, List.nodup_cons.mpr ⟨fun hup => ?_, hnd⟩, ?_⟩
      · obtain ⟨c'', hle', hx⟩ := hle u hup
        exact (hle'.trans_lt hlt).ne (hx.unique hc)
      · intro x hx
        rcases List.mem_cons.mp hx with rfl | hx
        · exact ⟨_, le_rfl, hc⟩
        · obtain ⟨c'', hle', hx⟩ := hle x hx
          exact ⟨c'', hle'.trans hlt.le, hx⟩

end ShortestPath
