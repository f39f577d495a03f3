import Ns2.Lib.ShortestPath

/-! Walks with their inner nodes in a set, which grows by one node at a time. -/

namespace ShortestPath

variable {V R : Type*} [AddCommGroup R] [LinearOrder R] [IsOrderedAddMonoid R]

/-- The cost of a walk from node to node, all inner nodes in `S`. -/
inductive Inside (E : V → V → R → Prop) (S : Set V) : V → V → R → Prop
  | nil (v : V) : Inside E S v v 0
  | edge {u v : V} {b : R} (h : E u v b) : Inside E S u v b
  | join {u w v : V} {a b : R} (hu : Inside E S u w a) (hw : w ∈ S) (hv : Inside E S w v b) :
      Inside E S u v (a + b)

variable {E : V → V → R → Prop} {S : Set V} {i u v w : V} {a b c : R}

theorem Walk.inside (h : Walk E u v c) : Inside E Set.univ u v c := by
  induction h with
  | nil v => exact .nil v
  | cons h _ ih => exact .join (.edge h) (Set.mem_univ _) ih

theorem Inside.walk (h : Inside E S u v c) : Walk E u v c := by
  induction h with
  | nil v => exact .nil v
  | edge h => exact .edge h
  | join _ _ _ ih ih' => exact ih.append ih'

/-- Nodes that no walk can pass do not matter. -/
theorem Inside.of_subset {T : Set V} (h : Inside E T u v c) (hu : u ∈ S)
    (hE : ∀ x y b, x ∈ S → E x y b → y ∈ S) : Inside E S u v c ∧ v ∈ S := by
  induction h with
  | nil v => exact ⟨.nil v, hu⟩
  | edge h => exact ⟨.edge h, hE _ _ _ hu h⟩
  | join _ _ _ ih ih' =>
    obtain ⟨h1, hw⟩ := ih hu
    obtain ⟨h2, hv⟩ := ih' hw
    exact ⟨.join h1 hw h2, hv⟩

/-- With one more inner node, a walk is one without it, or passes it once at no greater cost. -/
theorem Inside.split (hE : ∀ u v b, E u v b → 0 < b) (h : Inside E (insert i S) u v c) :
    Inside E S u v c ∨ ∃ a b, Inside E S u i a ∧ Inside E S i v b ∧ a + b ≤ c := by
  have hpos : ∀ {x y : V} {a : R}, Inside E S x y a → 0 ≤ a := fun h => h.walk.nonneg hE
  induction h with
  | nil v => exact .inl (.nil v)
  | edge h => exact .inl (.edge h)
  | @join u w v a b _ hw _ ih ih' =>
    -- the parts meet at the new node, or join at an old one
    obtain rfl | hw := Set.mem_insert_iff.mp hw
    · right
      have hfirst : ∃ a', Inside E S u w a' ∧ a' ≤ a := by
        obtain h | ⟨x, y, hx, hy, hle⟩ := ih
        · exact ⟨a, h, le_rfl⟩
        · exact ⟨x, hx, (le_add_of_nonneg_right (hpos hy)).trans hle⟩
      have hsecond : ∃ b', Inside E S w v b' ∧ b' ≤ b := by
        obtain h | ⟨x, y, hx, hy, hle⟩ := ih'
        · exact ⟨b, h, le_rfl⟩
        · exact ⟨y, hy, (le_add_of_nonneg_left (hpos hx)).trans hle⟩
      obtain ⟨a', ha, hle⟩ := hfirst
      obtain ⟨b', hb, hle'⟩ := hsecond
      exact ⟨a', b', ha, hb, add_le_add hle hle'⟩
    · obtain h | ⟨x, y, hx, hy, hle⟩ := ih
      · obtain h' | ⟨x', y', hx', hy', hle'⟩ := ih'
        · exact .inl (.join h hw h')
        · refine .inr ⟨a + x', y', .join h hw hx', hy', ?_⟩
          rw [add_assoc]
          exact add_le_add le_rfl hle'
      · right
        obtain h' | ⟨x', y', hx', hy', hle'⟩ := ih'
        · refine ⟨x, y + b, hx, .join hy hw h', ?_⟩
          rw [← add_assoc]
          exact add_le_add hle le_rfl
        · refine ⟨x, y', hx, hy', add_le_add ?_ ?_⟩
          · exact (le_add_of_nonneg_right (hpos hy)).trans hle
          · exact (le_add_of_nonneg_left (hpos hx')).trans hle'

/-- Without inner nodes there are only edges. -/
theorem Inside.of_empty (h : Inside E ∅ u v c) : (u = v ∧ c = 0) ∨ E u v c := by
  cases h with
  | nil => exact .inl ⟨rfl, rfl⟩
  | edge h => exact .inr h
  | join _ hw _ => exact absurd hw (Set.notMem_empty _)

end ShortestPath
